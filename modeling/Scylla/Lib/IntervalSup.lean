import Mathlib

/-!
# Values on half-open intervals, combined by their supremum

`piece a b v` is the function that is `v` on `[a, b)` of a linear order and `⊥` elsewhere.  A list of
such pieces stands for the supremum of its pieces, and an algorithm that rewrites the list keeps its
meaning when each rewrite is one of the identities here.

* `piece_eq_bot`: an empty interval carries nothing.
* `piece_union`, `piece_split`: two touching intervals with one value are their union.
* `piece_overlay`: a piece under a larger value is cut to what lies before and after the larger one.
-/

namespace IntervalSup

variable {P V : Type*} [LinearOrder P] [SemilatticeSup V] [OrderBot V]

/-- The function that is `v` on `[a, b)` and `⊥` elsewhere. -/
def piece (a b : P) (v : V) : P → V := fun p => if a ≤ p ∧ p < b then v else ⊥

variable {a b c d p : P} {u v : V}

@[simp] theorem piece_apply : piece a b v p = if a ≤ p ∧ p < b then v else ⊥ := rfl

theorem piece_eq_bot (h : b ≤ a) : piece a b v = ⊥ := by
  funext p
  rw [piece_apply, if_neg (fun hp => absurd (lt_of_le_of_lt hp.1 hp.2) (not_lt.2 h))]
  rfl

theorem piece_self (a : P) (v : V) : piece a a v = ⊥ := piece_eq_bot le_rfl

/-- Two intervals that touch or overlap, with the same value, make one piece over their union. -/
theorem piece_union (had : a ≤ d) (hcb : c ≤ b) :
    piece (min a c) (max b d) v = piece a b v ⊔ piece c d v := by
  funext p
  simp only [Pi.sup_apply, piece_apply, min_le_iff, lt_max_iff]
  by_cases h₁ : a ≤ p ∧ p < b
  · rw [if_pos ⟨Or.inl h₁.1, Or.inl h₁.2⟩, if_pos h₁]
    split <;> simp
  · by_cases h₂ : c ≤ p ∧ p < d
    · rw [if_pos ⟨Or.inr h₂.1, Or.inr h₂.2⟩, if_neg h₁, if_pos h₂, bot_sup_eq]
    · -- Outside both, so outside the union: the intervals leave no gap between them.
      rw [if_neg h₁, if_neg h₂, if_neg, bot_sup_eq]
      rintro ⟨hlo, hhi⟩
      rcases hlo with hlo | hlo <;> rcases hhi with hhi | hhi
      · exact h₁ ⟨hlo, hhi⟩
      · exact h₂ ⟨le_of_not_gt fun hpc => h₁ ⟨hlo, lt_of_lt_of_le hpc hcb⟩, hhi⟩
      · exact h₁ ⟨le_of_not_gt fun hpa => h₂ ⟨hlo, lt_of_lt_of_le hpa had⟩, hhi⟩
      · exact h₂ ⟨hlo, hhi⟩

theorem piece_split (hab : a ≤ b) (hbc : b ≤ c) : piece a c v = piece a b v ⊔ piece b c v := by
  rw [← piece_union (le_trans hab hbc) le_rfl, min_eq_left hab, max_eq_right hbc]

/-- A piece under a piece of a larger value shows only before and after it. -/
theorem piece_overlay (huv : u ≤ v) :
    piece a b u ⊔ piece c d v = piece a (min b c) u ⊔ piece c d v ⊔ piece (max a d) b u := by
  funext p
  simp only [Pi.sup_apply, piece_apply, lt_min_iff, max_le_iff]
  by_cases hc : c ≤ p ∧ p < d
  · -- Inside the larger piece, it wins.
    rw [if_pos hc]
    have hle : ∀ q : Prop, [Decidable q] → (if q then u else ⊥) ≤ v := fun q _ => by
      split
      · exact huv
      · exact bot_le
    rw [sup_eq_right.2 (hle _), sup_assoc, sup_eq_left.2 (hle _), sup_eq_right.2 (hle _)]
  · rw [if_neg hc, sup_bot_eq, sup_bot_eq]
    by_cases hab : a ≤ p ∧ p < b
    · -- Outside it, the smaller piece stays: before the larger piece or after it.
      rw [if_pos hab]
      by_cases hpc : p < c
      · rw [if_pos ⟨hab.1, hab.2, hpc⟩]
        split <;> simp
      · rw [if_neg (fun h => hpc h.2.2), if_pos ⟨⟨hab.1, le_of_not_gt fun hpd => hc ⟨le_of_not_gt hpc, hpd⟩⟩,
          hab.2⟩, bot_sup_eq]
    · rw [if_neg hab, if_neg (fun h => hab ⟨h.1, h.2.1⟩), if_neg (fun h => hab ⟨h.1.1, h.2⟩), bot_sup_eq]

end IntervalSup
