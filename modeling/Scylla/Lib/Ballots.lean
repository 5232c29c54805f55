import Mathlib

/-!
# Ballots

A voter that votes in numbered rounds, its terms, and casts at most one vote in each.  The votes it has cast, as
pairs of a candidate and a term, agree with its current term and vote: `Ballots.Consistent nobody votes term vote`
says that no vote is for a term after `term`, the votes of `term` are for `vote`, none is for `nobody` (the value
`vote` has before the voter has voted in `term`), and no two votes of one term are for different candidates.

A voter moves in three ways, and each keeps the ballots consistent: it goes to a later term without a vote
(`Consistent.newTerm`), casts a vote in its term for the candidate it voted for or while it has none
(`Consistent.cast`), and records a vote in a term in which it has cast none (`Consistent.record`).

A candidate wins with a majority of the voters; two majorities of the same voters share one
(`exists_mem_of_majorities`), whose one vote in the term then decides who won it.
-/

namespace Ballots

variable {α : Type}

/-- The votes `votes` of a voter whose term is `term` and whose vote in it is `vote`. -/
structure Consistent (nobody : α) (votes : List (α × Nat)) (term : Nat) (vote : α) : Prop where
  term_le : ∀ c t, (c, t) ∈ votes → t ≤ term
  current : ∀ c, (c, term) ∈ votes → c = vote
  ne_nobody : ∀ c t, (c, t) ∈ votes → c ≠ nobody
  unique : ∀ c c' t, (c, t) ∈ votes → (c', t) ∈ votes → c = c'

namespace Consistent

variable {nobody : α} {votes votes' : List (α × Nat)} {term : Nat} {vote : α}

theorem nil (nobody : α) (term : Nat) (vote : α) : Consistent nobody [] term vote where
  term_le _ _ h := by cases h
  current _ h := by cases h
  ne_nobody _ _ h := by cases h
  unique _ _ _ h := by cases h

/-- Only which votes were cast matters, not their order or how often. -/
theorem congr (h : Consistent nobody votes term vote) (hc : ∀ x, x ∈ votes' ↔ x ∈ votes) :
    Consistent nobody votes' term vote where
  term_le c t hx := h.term_le c t ((hc _).1 hx)
  current c hx := h.current c ((hc _).1 hx)
  ne_nobody c t hx := h.ne_nobody c t ((hc _).1 hx)
  unique c c' t hx hx' := h.unique c c' t ((hc _).1 hx) ((hc _).1 hx')

/-- Without a vote in its term, the voter has cast none in it. -/
theorem not_mem_of_nobody (h : Consistent nobody votes term nobody) (c : α) : (c, term) ∉ votes :=
  fun hc => h.ne_nobody c term hc (h.current c hc)

/-- A later term starts without a vote. -/
theorem newTerm (h : Consistent nobody votes term vote) {term' : Nat} (ht : term < term') :
    Consistent nobody votes term' nobody where
  term_le c t hx := (h.term_le c t hx).trans ht.le
  current c hx := absurd (h.term_le c term' hx) (Nat.not_le.2 ht)
  ne_nobody := h.ne_nobody
  unique := h.unique

/-- Casting a vote in the term for the candidate already voted for, or for a first one. -/
theorem cast (h : Consistent nobody votes term vote) {c : α} (hc : c ≠ nobody) (hv : vote = c ∨ vote = nobody) :
    Consistent nobody (votes ++ [(c, term)]) term c := by
  -- The votes of the term cast before are all for `c`.
  have hcur : ∀ d, (d, term) ∈ votes → d = c := by
    intro d hd
    rcases hv with hv | hv
    · exact hv ▸ h.current d hd
    · exact absurd ((h.current d hd).trans hv) (h.ne_nobody d term hd)
  constructor
  · intro d t hx
    rcases List.mem_append.1 hx with hx | hx
    · exact h.term_le d t hx
    · obtain ⟨-, rfl⟩ := Prod.mk.inj (List.mem_singleton.1 hx)
      exact le_rfl
  · intro d hx
    rcases List.mem_append.1 hx with hx | hx
    · exact hcur d hx
    · exact (Prod.mk.inj (List.mem_singleton.1 hx)).1
  · intro d t hx
    rcases List.mem_append.1 hx with hx | hx
    · exact h.ne_nobody d t hx
    · exact (Prod.mk.inj (List.mem_singleton.1 hx)).1 ▸ hc
  · intro d d' t hx hx'
    -- A vote of the term is `c`'s, whether cast before or now.
    have hterm : ∀ e, (e, t) ∈ votes ++ [(c, term)] → t = term → e = c := by
      intro e he ht
      subst ht
      rcases List.mem_append.1 he with he | he
      · exact hcur e he
      · exact (Prod.mk.inj (List.mem_singleton.1 he)).1
    rcases List.mem_append.1 hx with hx₁ | hx₁ <;> rcases List.mem_append.1 hx' with hx₂ | hx₂
    · exact h.unique d d' t hx₁ hx₂
    · obtain ⟨-, rfl⟩ := Prod.mk.inj (List.mem_singleton.1 hx₂)
      rw [hterm d hx rfl, hterm d' hx' rfl]
    · obtain ⟨-, rfl⟩ := Prod.mk.inj (List.mem_singleton.1 hx₁)
      rw [hterm d hx rfl, hterm d' hx' rfl]
    · rw [(Prod.mk.inj (List.mem_singleton.1 hx₁)).1, (Prod.mk.inj (List.mem_singleton.1 hx₂)).1]

/-- Recording a vote in a term in which none was cast. -/
theorem record (h : Consistent nobody votes term vote) (hno : ∀ c, (c, term) ∉ votes) (c : α) :
    Consistent nobody votes term c where
  term_le := h.term_le
  current d hd := absurd hd (hno d)
  ne_nobody := h.ne_nobody
  unique := h.unique

end Consistent

/-! ### Quorums -/

/-- Two majorities of one list of voters, each naming a voter at most once, share a voter. -/
theorem exists_mem_of_majorities {voters A B : List α} (hA : A.Nodup) (hB : B.Nodup)
    (hAv : ∀ x ∈ A, x ∈ voters) (hBv : ∀ x ∈ B, x ∈ voters) (hlA : voters.length / 2 + 1 ≤ A.length)
    (hlB : voters.length / 2 + 1 ≤ B.length) : ∃ x, x ∈ A ∧ x ∈ B := by
  by_contra hno
  -- Disjoint, the two fit into the voters side by side, which they are too many for.
  have hdisj : ∀ x ∈ A, x ∉ B := fun x hx hxB => hno ⟨x, hx, hxB⟩
  have hnd : (A ++ B).Nodup := List.nodup_append.2 ⟨hA, hB, fun x hx y hy hxy => hdisj x hx (hxy ▸ hy)⟩
  have hsub : (A ++ B).Subperm voters := hnd.subperm fun x hx => (List.mem_append.1 hx).elim (hAv x) (hBv x)
  have hlen := hsub.length_le
  rw [List.length_append] at hlen
  omega

end Ballots
