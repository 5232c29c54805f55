import Mathlib
import Scylla.Raft.Tracker

/-!
# What a candidate's vote count computes

`raft/tracker.hh`: an `election_tracker` counts the first reply of each voter of one set and drops replies from
servers outside it; `votes` keeps one tracker per voter set and, while the configuration is joint, lets the
previous set decide first.  The replies reach the candidate in any order, duplicated or late, so what the count
is for is stated here as a function of the reply sequence alone: the first answer of each voter
(`firstResponse`), the verdict of a voter set (`quorumVerdict`), and the outcome of the election
(`referenceTally`).

`Counts` is what a tracker records about the replies it has seen; each `register_vote` keeps it
(`Counts.registerVote`), so the trackers compute the reference verdict after any sequence of replies, and the
reference verdict of a decided set does not change when more replies come in.
-/

namespace Scylla.Raft

/-- The voters of a member set, in the order `election_tracker`'s constructor visits them. -/
def voterIds (s : List ConfigMember) : List Nat := (s.filter (·.canVote)).map (·.id)

/-- The answer of `v` in its first reply among `rs`, if it replied. -/
def firstResponse (rs : List (Nat × Bool)) (v : Nat) : Option Bool := (rs.find? (·.1 == v)).map (·.2)

/-- The verdict of one voter set on the replies `rs`: won with a quorum of granted first replies, lost when the
granted ones and the voters yet to reply together fall short of a quorum. -/
def quorumVerdict (voters : List Nat) (rs : List (Nat × Bool)) : VoteResult :=
  let quorum := voters.length / 2 + 1
  let granted := voters.countP fun v => firstResponse rs v == some true
  let silent := voters.countP fun v => firstResponse rs v == none
  if quorum ≤ granted then .won
  else if granted + silent < quorum then .lost
  else .unknown

/-- The outcome of an election on `cfg` from the replies `rs`: every voter set must be won, and the previous set
of a joint configuration is looked at first. -/
def referenceTally (cfg : Configuration) (rs : List (Nat × Bool)) : VoteResult :=
  if cfg.isJoint then
    match quorumVerdict (voterIds cfg.previous) rs with
    | .won => quorumVerdict (voterIds cfg.current) rs
    | r => r
  else quorumVerdict (voterIds cfg.current) rs

/-- `votes::register_vote` for each reply in turn. -/
def Votes.registerVotes (v : Votes) (rs : List (Nat × Bool)) : Votes :=
  rs.foldl (fun v r => v.registerVote r.1 r.2) v

theorem voterIds_nodup {s : List ConfigMember} (h : (s.map (·.id)).Nodup) : (voterIds s).Nodup :=
  h.sublist ((List.filter_sublist).map _)

/-! ## First replies -/

theorem firstResponse_append (rs rs' : List (Nat × Bool)) (v : Nat) :
    firstResponse (rs ++ rs') v = (firstResponse rs v).or (firstResponse rs' v) := by
  simp [firstResponse, Option.map_or]

theorem firstResponse_singleton (a : Nat) (b : Bool) (v : Nat) :
    firstResponse [(a, b)] v = if a = v then some b else none := by
  by_cases h : a = v <;> simp [firstResponse, h]

/-- A reply changes nothing for a voter that has replied before, nor for anyone but its sender. -/
theorem firstResponse_append_of_ne {rs : List (Nat × Bool)} {a v : Nat} (b : Bool)
    (h : (firstResponse rs v).isSome ∨ a ≠ v) : firstResponse (rs ++ [(a, b)]) v = firstResponse rs v := by
  rw [firstResponse_append, firstResponse_singleton]
  rcases h with h | h
  · obtain ⟨x, hx⟩ := Option.isSome_iff_exists.1 h
    simp [hx]
  · simp [h]

/-- A first reply is a reply. -/
theorem mem_of_firstResponse {rs : List (Nat × Bool)} {v : Nat} {b : Bool} (h : firstResponse rs v = some b) :
    (v, b) ∈ rs := by
  obtain ⟨p, hp, rfl⟩ := Option.map_eq_some_iff.1 h
  have hv : p.1 = v := by simpa using List.find?_some hp
  rw [← hv]
  exact List.mem_of_find?_eq_some hp

/-! ## The verdict of a decided set is final -/

/-- Two counts over one list compare as their summands do at every element. -/
private theorem countP_add_countP_le {l : List Nat} {p q p' q' : Nat → Bool}
    (h : ∀ x ∈ l, (if p' x then 1 else 0) + (if q' x then 1 else 0) ≤ (if p x then 1 else 0) + (if q x then 1 else 0)) :
    l.countP p' + l.countP q' ≤ l.countP p + l.countP q := by
  induction l with
  | nil => simp
  | cons x l ih =>
    have hx := h x List.mem_cons_self
    have hl := ih fun y hy => h y (List.mem_cons_of_mem x hy)
    simp only [List.countP_cons]
    omega

/-- More replies can only add granted first replies, and each voter that replies for the first time leaves the
silent ones. -/
theorem quorumVerdict_append {voters : List Nat} {rs : List (Nat × Bool)} (rs' : List (Nat × Bool))
    (h : quorumVerdict voters rs ≠ .unknown) : quorumVerdict voters (rs ++ rs') = quorumVerdict voters rs := by
  have hgranted : (voters.countP fun v => firstResponse rs v == some true) ≤
      voters.countP fun v => firstResponse (rs ++ rs') v == some true :=
    List.countP_mono_left fun v _ hv => by simp_all [firstResponse_append]
  have hopen : ((voters.countP fun v => firstResponse (rs ++ rs') v == some true) +
        voters.countP fun v => firstResponse (rs ++ rs') v == none) ≤
      (voters.countP fun v => firstResponse rs v == some true) +
        voters.countP fun v => firstResponse rs v == none := by
    refine countP_add_countP_le fun v _ => ?_
    rw [firstResponse_append]
    cases firstResponse rs v with
    | none => cases firstResponse rs' v with
      | none => simp
      | some b => cases b <;> simp
    | some b => cases b <;> simp
  unfold quorumVerdict at h ⊢
  dsimp only at h ⊢
  split_ifs at h ⊢ <;> first | rfl | omega | exact absurd rfl h

theorem referenceTally_append {cfg : Configuration} {rs : List (Nat × Bool)} (rs' : List (Nat × Bool))
    (h : referenceTally cfg rs ≠ .unknown) : referenceTally cfg (rs ++ rs') = referenceTally cfg rs := by
  unfold referenceTally at h ⊢
  split
  · rename_i hjoint
    rw [if_pos hjoint] at h
    -- The previous set is decided, so its verdict stays; when it is won, the current set decides.
    have hprev : quorumVerdict (voterIds cfg.previous) rs ≠ .unknown := by
      intro hu
      rw [hu] at h
      exact h rfl
    rw [quorumVerdict_append rs' hprev]
    cases hp : quorumVerdict (voterIds cfg.previous) rs with
    | won =>
      rw [hp] at h
      exact quorumVerdict_append rs' h
    | unknown => exact absurd hp hprev
    | lost => rfl
  · rename_i hjoint
    rw [if_neg hjoint] at h
    exact quorumVerdict_append rs' h

/-! ## The trackers count first replies -/

namespace ElectionTracker

variable {e : ElectionTracker} {rs : List (Nat × Bool)}

@[simp] theorem registerVote_suffrage (e : ElectionTracker) (src : Nat) (b : Bool) :
    (e.registerVote src b).2.suffrage = e.suffrage := by
  unfold registerVote
  split_ifs <;> rfl

/-- What a tracker records about the replies `rs`: the voters that replied, each once, and how many of them
granted in their first reply. -/
structure Counts (e : ElectionTracker) (rs : List (Nat × Bool)) : Prop where
  mem_responded : ∀ v, v ∈ e.responded ↔ v ∈ e.suffrage ∧ (firstResponse rs v).isSome
  nodup : e.responded.Nodup
  granted_eq : e.granted = e.responded.countP fun v => firstResponse rs v == some true

theorem counts_ofMembers (s : List ConfigMember) : (ofMembers s).Counts [] :=
  ⟨fun v => by simp [ofMembers, firstResponse], List.nodup_nil, rfl⟩

/-- A reply that the tracker drops, from outside the set or from a voter that replied before, changes none of
the first replies of the voters that replied. -/
private theorem Counts.of_ignored (h : e.Counts rs) {src : Nat} (b : Bool)
    (hign : ∀ v ∈ e.suffrage, (firstResponse rs v).isSome ∨ src ≠ v) : e.Counts (rs ++ [(src, b)]) := by
  have hsame : ∀ v ∈ e.suffrage, firstResponse (rs ++ [(src, b)]) v = firstResponse rs v :=
    fun v hv => firstResponse_append_of_ne b (hign v hv)
  refine ⟨fun v => ?_, h.nodup, ?_⟩
  · rw [h.mem_responded v]
    constructor
    · rintro ⟨hv, hs⟩
      exact ⟨hv, (hsame v hv).symm ▸ hs⟩
    · rintro ⟨hv, hs⟩
      exact ⟨hv, hsame v hv ▸ hs⟩
  · rw [h.granted_eq]
    refine List.countP_congr fun v hv => ?_
    rw [hsame v ((h.mem_responded v).1 hv).1]

theorem Counts.registerVote (h : e.Counts rs) (src : Nat) (b : Bool) :
    (e.registerVote src b).2.Counts (rs ++ [(src, b)]) := by
  unfold ElectionTracker.registerVote
  by_cases hin : e.suffrage.contains src
  · by_cases hdup : e.responded.contains src
    · -- A second reply of a voter.
      simp only [hin, hdup, Bool.not_true, Bool.false_eq_true, ↓reduceIte]
      have hsrc := ((h.mem_responded src).1 (List.contains_iff_mem.1 hdup)).2
      refine h.of_ignored b fun v _ => ?_
      by_cases hv : src = v
      · exact .inl (hv ▸ hsrc)
      · exact .inr hv
    · -- The first reply of a voter is counted.
      simp only [hin, hdup, Bool.not_true, Bool.false_eq_true, ↓reduceIte]
      have hnew : firstResponse rs src = none := by
        by_contra hsome
        exact hdup (List.contains_iff_mem.2 ((h.mem_responded src).2
          ⟨List.contains_iff_mem.1 hin, Option.ne_none_iff_isSome.1 hsome⟩))
      have hsrc : firstResponse (rs ++ [(src, b)]) src = some b := by
        simp [firstResponse_append, hnew, firstResponse_singleton]
      have hold : ∀ v, v ≠ src → firstResponse (rs ++ [(src, b)]) v = firstResponse rs v :=
        fun v hv => firstResponse_append_of_ne b (.inr (Ne.symm hv))
      refine ⟨fun v => ?_, ?_, ?_⟩
      · by_cases hv : v = src
        · subst hv
          simp [hsrc, List.contains_iff_mem.1 hin]
        · simp only [List.mem_append, List.mem_singleton, hv, or_false, hold v hv]
          exact h.mem_responded v
      · exact List.nodup_append.2 ⟨h.nodup, List.nodup_singleton src,
          fun v hv w hw => by
            rw [List.mem_singleton.1 hw]
            rintro rfl
            exact hdup (List.contains_iff_mem.2 hv)⟩
      · have hrest : (e.responded.countP fun v => firstResponse (rs ++ [(src, b)]) v == some true) =
            e.responded.countP fun v => firstResponse rs v == some true :=
          List.countP_congr fun v hv => by
            rw [hold v fun hvs => hdup (List.contains_iff_mem.2 (hvs ▸ hv))]
        rw [List.countP_append, hrest, ← h.granted_eq, List.countP_singleton, hsrc]
        cases b <;> rfl
  · -- A reply from outside the set.
    simp only [hin, Bool.not_false, ↓reduceIte]
    exact h.of_ignored b fun v hv => .inr fun hsv => hin (List.contains_iff_mem.2 (hsv ▸ hv))

/-- The tracker's verdict is the reference verdict of its voters. -/
theorem Counts.tallyVotes_eq (h : e.Counts rs) (hnd : e.suffrage.Nodup) :
    e.tallyVotes = quorumVerdict e.suffrage rs := by
  -- The voters that replied are, up to order, the voters with a first reply.
  have hperm : e.responded.Perm (e.suffrage.filter fun v => (firstResponse rs v).isSome) :=
    (List.perm_ext_iff_of_nodup h.nodup (hnd.filter _)).2 fun v => by simp [h.mem_responded v]
  have hgranted : e.granted = e.suffrage.countP fun v => firstResponse rs v == some true := by
    rw [h.granted_eq, hperm.countP_eq, List.countP_filter]
    refine List.countP_congr fun v _ => ?_
    cases firstResponse rs v <;> simp
  have hsilent : e.suffrage.length - e.responded.length =
      e.suffrage.countP fun v => firstResponse rs v == none := by
    rw [hperm.length_eq, ← List.countP_eq_length_filter,
      List.length_eq_countP_add_countP fun v => (firstResponse rs v).isSome, Nat.add_sub_cancel_left]
    refine List.countP_congr fun v _ => ?_
    cases firstResponse rs v <;> simp
  unfold tallyVotes quorumVerdict
  dsimp only
  rw [← hgranted, ← hsilent]
  split_ifs <;> first | rfl | omega

/-- A won count holds a quorum of its voters, each of which granted in its first reply. -/
theorem Counts.exists_quorum (h : e.Counts rs) (hw : e.tallyVotes = .won) :
    ∃ W : List Nat, W.Nodup ∧ (∀ x ∈ W, x ∈ e.suffrage ∧ (x, true) ∈ rs) ∧
      e.suffrage.length / 2 + 1 ≤ W.length := by
  -- The granted ones among the voters that replied.
  refine ⟨e.responded.filter fun v => firstResponse rs v == some true, h.nodup.filter _, fun x hx => ?_, ?_⟩
  · obtain ⟨hr, hg⟩ := List.mem_filter.1 hx
    exact ⟨((h.mem_responded x).1 hr).1, mem_of_firstResponse (by simpa using hg)⟩
  · rw [← List.countP_eq_length_filter, ← h.granted_eq]
    unfold tallyVotes at hw
    dsimp only at hw
    split_ifs at hw with hq
    exact hq

end ElectionTracker

namespace Votes

variable {v : Votes} {cfg : Configuration} {rs : List (Nat × Bool)}

/-- The trackers of `v` count the replies `rs` of the voter sets of `cfg`. -/
structure Counts (v : Votes) (cfg : Configuration) (rs : List (Nat × Bool)) : Prop where
  current : v.current.Counts rs
  current_suffrage : v.current.suffrage = voterIds cfg.current
  previous_isSome : v.previous.isSome = cfg.isJoint
  previous : ∀ p, v.previous = some p → p.Counts rs ∧ p.suffrage = voterIds cfg.previous

theorem counts_ofConfiguration (cfg : Configuration) : (ofConfiguration cfg).Counts cfg [] := by
  refine ⟨ElectionTracker.counts_ofMembers _, rfl, ?_, fun p hp => ?_⟩
  · by_cases hj : cfg.isJoint <;> simp [ofConfiguration, hj]
  · by_cases hj : cfg.isJoint <;> simp only [ofConfiguration, hj, ↓reduceIte, Option.some.injEq,
      reduceCtorEq] at hp
    subst hp
    exact ⟨ElectionTracker.counts_ofMembers _, rfl⟩

theorem Counts.registerVote (h : v.Counts cfg rs) (src : Nat) (b : Bool) :
    (v.registerVote src b).Counts cfg (rs ++ [(src, b)]) := by
  refine ⟨h.current.registerVote src b, by simp [Votes.registerVote, h.current_suffrage], ?_, fun p hp => ?_⟩
  · simp [Votes.registerVote, h.previous_isSome]
  · simp only [Votes.registerVote, Option.map_eq_some_iff] at hp
    obtain ⟨q, hq, rfl⟩ := hp
    obtain ⟨hqc, hqs⟩ := h.previous q hq
    exact ⟨hqc.registerVote src b, by simp [hqs]⟩

/-- A won election won the current voter set, with a quorum of its voters whose first reply granted. -/
theorem Counts.exists_quorum (h : v.Counts cfg rs) (hw : v.tallyVotes = .won) :
    ∃ W : List Nat, W.Nodup ∧ (∀ x ∈ W, x ∈ voterIds cfg.current ∧ (x, true) ∈ rs) ∧
      (voterIds cfg.current).length / 2 + 1 ≤ W.length := by
  -- The previous set of a joint configuration is decided first; a won election goes on to the current one.
  have hcw : v.current.tallyVotes = .won := by
    unfold tallyVotes at hw
    split at hw
    · split_ifs at hw with hp
      · rw [hw] at hp
        exact absurd hp (by decide)
      · exact hw
    · exact hw
  rw [← h.current_suffrage]
  exact h.current.exists_quorum hcw

/-- The run lemma: the counts are kept by every sequence of replies. -/
theorem Counts.registerVotes (h : v.Counts cfg rs) (rs' : List (Nat × Bool)) :
    (v.registerVotes rs').Counts cfg (rs ++ rs') := by
  induction rs' generalizing v rs with
  | nil => simpa [registerVotes] using h
  | cons r rs' ih =>
    have := ih (h.registerVote r.1 r.2)
    simpa [registerVotes] using this

theorem Counts.tallyVotes_eq (h : v.Counts cfg rs) (hcur : (cfg.current.map (·.id)).Nodup)
    (hprev : (cfg.previous.map (·.id)).Nodup) : v.tallyVotes = referenceTally cfg rs := by
  have hc : v.current.tallyVotes = quorumVerdict (voterIds cfg.current) rs := by
    rw [h.current.tallyVotes_eq (h.current_suffrage ▸ voterIds_nodup hcur), h.current_suffrage]
  unfold tallyVotes referenceTally
  cases hp : v.previous with
  | none =>
    have hj : cfg.isJoint = false := by simpa [hp] using h.previous_isSome.symm
    simp [hj, hc]
  | some p =>
    have hj : cfg.isJoint = true := by simpa [hp] using h.previous_isSome.symm
    obtain ⟨hpc, hps⟩ := h.previous p hp
    have hpv : p.tallyVotes = quorumVerdict (voterIds cfg.previous) rs := by
      rw [hpc.tallyVotes_eq (hps ▸ voterIds_nodup hprev), hps]
    simp only [hj, ↓reduceIte, hpv, hc]
    cases quorumVerdict (voterIds cfg.previous) rs <;> rfl

end Votes

/-- The vote count of a candidate, on any configuration whose member sets name each server once (they are
`config_member_set`s): after any sequence of `register_vote` calls, duplicates, strangers and non-voters
included, `tally_votes` is the reference outcome of the first replies, and once it is won or lost no further
reply changes it. -/
theorem tallyVotes_registerVotes (cfg : Configuration) (hcur : (cfg.current.map (·.id)).Nodup)
    (hprev : (cfg.previous.map (·.id)).Nodup) :
    (∀ rs, ((Votes.ofConfiguration cfg).registerVotes rs).tallyVotes = referenceTally cfg rs) ∧
    ∀ rs rs', ((Votes.ofConfiguration cfg).registerVotes rs).tallyVotes ≠ .unknown →
      ((Votes.ofConfiguration cfg).registerVotes (rs ++ rs')).tallyVotes =
        ((Votes.ofConfiguration cfg).registerVotes rs).tallyVotes := by
  have htally : ∀ rs, ((Votes.ofConfiguration cfg).registerVotes rs).tallyVotes = referenceTally cfg rs :=
    fun rs => ((Votes.counts_ofConfiguration cfg).registerVotes rs).tallyVotes_eq hcur hprev
  refine ⟨htally, fun rs rs' hdecided => ?_⟩
  rw [htally] at hdecided
  rw [htally, htally]
  exact referenceTally_append rs' hdecided

/-- A joint election in which server 1 votes in both sets and twice, server 4 is no voter and server 5 no
member: both sets are won. -/
theorem tallyVotes_registerVotes_joint :
    ((Votes.ofConfiguration { current := [⟨1, true⟩, ⟨2, true⟩, ⟨4, false⟩], previous := [⟨1, true⟩, ⟨3, true⟩] }).registerVotes
      [(5, true), (1, true), (4, true), (1, false), (3, true), (2, true)]).tallyVotes = .won := by
  rw [(tallyVotes_registerVotes _ (by decide) (by decide)).1]
  decide

end Scylla.Raft
