import Scylla.Lib.Rank
import Scylla.Raft.Votes
import Scylla.Raft.LogConfig
import Scylla.Raft.Fsm.Progress

/-!
# The commit index of a tracker

`raft/tracker.cc`: `tracker::committed` puts the match index (or the acknowledged read id) of each voter in a
`match_vector`, returns the previous commit index unless more than half of a voter set is past it, and otherwise
the value at rank `(size - 1) / 2`, the smaller of the two in a joint configuration.  What that value is for:
the greatest index that more than half of every voter set has reached (`QuorumReached`).

`set_configuration` builds the progress map and the voter sets from a configuration whose member sets name each
server once, as `config_member_set` does: every voter then has exactly one progress entry
(`setConfiguration_progress`), so the match vector of a set holds one value per voter (`countP_matchVector`),
and the rank lemmas of `Rank` do the rest.  The law is stated for any `key`, which covers any match indexes the
leader may have recorded as well as the read ids of `max_acked_read`.
-/

namespace Scylla.Raft

namespace Tracker

/-- The number of voters of `voters` whose progress has reached `c` in `key`. -/
def countReached (t : Tracker) (key : FollowerProgress → Nat) (voters : List Nat) (c : Nat) : Nat :=
  voters.countP fun v => (t.find? v).any fun p => c ≤ key p

/-- More than half of `voters` has reached `c`. -/
def QuorumReached (t : Tracker) (key : FollowerProgress → Nat) (voters : List Nat) (c : Nat) : Prop :=
  voters.length / 2 + 1 ≤ t.countReached key voters c

instance (t : Tracker) (key : FollowerProgress → Nat) (voters : List Nat) (c : Nat) :
    Decidable (t.QuorumReached key voters c) :=
  inferInstanceAs (Decidable (_ ≤ _))

theorem QuorumReached.mono {t : Tracker} {key : FollowerProgress → Nat} {voters : List Nat} {c c' : Nat}
    (h : t.QuorumReached key voters c) (hc : c' ≤ c) : t.QuorumReached key voters c' := by
  refine h.trans (List.countP_mono_left fun v _ hv => ?_)
  cases hp : t.find? v with
  | none => simp [hp] at hv
  | some p =>
    simp only [hp, Option.any_some, decide_eq_true_eq] at hv ⊢
    omega

/-! ## The progress and voter sets of a configuration -/

section SetConfiguration

variable (cfg : Configuration) (nextIdx : Nat) (old : List FollowerProgress)

theorem emplaceSimpleConfig_snd (ss : List ConfigMember) :
    ∀ (ps : List FollowerProgress) (vs : List Nat),
      (emplaceSimpleConfig cfg nextIdx old ss (ps, vs)).2 = vs ++ voterIds ss := by
  induction ss with
  | nil => simp [emplaceSimpleConfig, voterIds]
  | cons s ss ih =>
    intro ps vs
    unfold emplaceSimpleConfig
    dsimp only
    split <;> · rw [ih]; by_cases hv : s.canVote <;> simp [hv, voterIds]

/-- One pass of `set_configuration`'s lambda adds a progress entry for each member not yet present, once. -/
theorem emplaceSimpleConfig_fst (ss : List ConfigMember) :
    ∀ (ps : List FollowerProgress) (vs : List Nat), (ps.map (·.id)).Nodup →
      ((emplaceSimpleConfig cfg nextIdx old ss (ps, vs)).1.map (·.id)).Nodup ∧
        ∀ v, v ∈ (emplaceSimpleConfig cfg nextIdx old ss (ps, vs)).1.map (·.id) ↔
          v ∈ ps.map (·.id) ∨ v ∈ ss.map (·.id) := by
  induction ss with
  | nil => simp [emplaceSimpleConfig]
  | cons s ss ih =>
    intro ps vs hnd
    unfold emplaceSimpleConfig
    dsimp only
    split
    · -- The member already has its entry, from the other half of a joint configuration.
      rename_i hfound
      have hs : s.id ∈ ps.map (·.id) := by
        obtain ⟨q, hq, hqs⟩ := List.find?_isSome.1 hfound
        exact List.mem_map.2 ⟨q, hq, by simpa using hqs⟩
      obtain ⟨hnd', hmem⟩ := ih ps _ hnd
      refine ⟨hnd', fun v => ?_⟩
      rw [hmem v, List.map_cons, List.mem_cons]
      constructor
      · rintro (h | h)
        · exact .inl h
        · exact .inr (.inr h)
      · rintro (h | rfl | h)
        · exact .inl h
        · exact .inl hs
        · exact .inr h
    · rename_i hfound
      have hs : s.id ∉ ps.map (·.id) := fun hs => hfound (List.find?_isSome.2 (by
        obtain ⟨q, hq, hqs⟩ := List.mem_map.1 hs
        exact ⟨q, hq, by simpa using hqs⟩))
      -- The entry appended, old or new, carries the member's id.
      have hnew : ∀ (ws : List Nat) (p : FollowerProgress), p.id = s.id →
          ((emplaceSimpleConfig cfg nextIdx old ss (ps ++ [p], ws)).1.map (·.id)).Nodup ∧
            ∀ v, v ∈ (emplaceSimpleConfig cfg nextIdx old ss (ps ++ [p], ws)).1.map (·.id) ↔
              v ∈ ps.map (·.id) ∨ v ∈ (s :: ss).map (·.id) := by
        intro ws p hp
        have hnd' : ((ps ++ [p]).map (·.id)).Nodup := by
          rw [List.map_append, List.map_singleton, hp, List.nodup_append]
          exact ⟨hnd, List.nodup_singleton _, fun a ha b hb => by
            rw [List.mem_singleton.1 hb]
            rintro rfl
            exact hs ha⟩
        obtain ⟨hnd'', hmem⟩ := ih (ps ++ [p]) _ hnd'
        refine ⟨hnd'', fun v => ?_⟩
        rw [hmem v, List.map_append, List.map_singleton, hp, List.map_cons, List.mem_append,
          List.mem_singleton, List.mem_cons]
        tauto
      split
      · rename_i q hq
        exact hnew _ _ (by simpa using List.find?_some hq)
      · exact hnew _ _ rfl

/-- The inversion lemma of `set_configuration`: the fields it builds from the two passes. -/
private theorem setConfiguration_cases (t0 : Tracker) :
    ∃ ps cur, emplaceSimpleConfig cfg nextIdx t0.progress cfg.current ([], []) = (ps, cur) ∧
      ((cfg.isJoint = true ∧ ∃ ps' prev, emplaceSimpleConfig cfg nextIdx t0.progress cfg.previous (ps, []) =
          (ps', prev) ∧ t0.setConfiguration cfg nextIdx = ⟨ps', cur, prev⟩) ∨
        (cfg.isJoint = false ∧ t0.setConfiguration cfg nextIdx = ⟨ps, cur, []⟩)) := by
  rcases h : emplaceSimpleConfig cfg nextIdx t0.progress cfg.current ([], []) with ⟨ps, cur⟩
  refine ⟨ps, cur, rfl, ?_⟩
  cases hj : cfg.isJoint
  · refine .inr ⟨rfl, ?_⟩
    simp only [setConfiguration, h, hj, Bool.false_eq_true, ↓reduceIte]
  · rcases h' : emplaceSimpleConfig cfg nextIdx t0.progress cfg.previous (ps, []) with ⟨ps', prev⟩
    refine .inl ⟨rfl, ps', prev, rfl, ?_⟩
    simp only [setConfiguration, h, hj, h', ↓reduceIte]

theorem setConfiguration_currentVoters (t0 : Tracker) :
    (t0.setConfiguration cfg nextIdx).currentVoters = voterIds cfg.current := by
  obtain ⟨ps, cur, h, ⟨-, ps', prev, -, ht⟩ | ⟨-, ht⟩⟩ := setConfiguration_cases cfg nextIdx t0 <;>
  · have := emplaceSimpleConfig_snd cfg nextIdx t0.progress cfg.current [] []
    rw [h] at this
    simpa [ht] using this

theorem setConfiguration_previousVoters (t0 : Tracker) :
    (t0.setConfiguration cfg nextIdx).previousVoters = if cfg.isJoint then voterIds cfg.previous else [] := by
  obtain ⟨ps, cur, -, ⟨hj, ps', prev, h', ht⟩ | ⟨hj, ht⟩⟩ := setConfiguration_cases cfg nextIdx t0
  · have := emplaceSimpleConfig_snd cfg nextIdx t0.progress cfg.previous ps []
    rw [h'] at this
    simpa [ht, hj] using this
  · simp [ht, hj]

/-- After `set_configuration` the members have one progress entry each, and no one else has one. -/
theorem setConfiguration_progress (t0 : Tracker) :
    ((t0.setConfiguration cfg nextIdx).progress.map (·.id)).Nodup ∧
      ∀ v, v ∈ (t0.setConfiguration cfg nextIdx).progress.map (·.id) ↔
        v ∈ cfg.current.map (·.id) ∨ (cfg.isJoint = true ∧ v ∈ cfg.previous.map (·.id)) := by
  obtain ⟨ps, cur, h, rest⟩ := setConfiguration_cases cfg nextIdx t0
  have hcur := emplaceSimpleConfig_fst cfg nextIdx t0.progress cfg.current [] [] List.nodup_nil
  rw [h] at hcur
  obtain ⟨hj, ps', prev, h', ht⟩ | ⟨hj, ht⟩ := rest
  · have hprev := emplaceSimpleConfig_fst cfg nextIdx t0.progress cfg.previous ps [] hcur.1
    rw [h'] at hprev
    refine ⟨by simpa [ht] using hprev.1, fun v => ?_⟩
    rw [ht, hprev.2 v, hcur.2 v]
    simp [hj]
  · refine ⟨by simpa [ht] using hcur.1, fun v => ?_⟩
    rw [ht, hcur.2 v]
    simp [hj]

/-- `set_configuration` only appends to the progress it has built so far. -/
theorem emplaceSimpleConfig_prefix (ss : List ConfigMember) :
    ∀ (ps : List FollowerProgress) (vs : List Nat), ps <+: (emplaceSimpleConfig cfg nextIdx old ss (ps, vs)).1 := by
  induction ss with
  | nil => exact fun ps vs => List.prefix_refl ps
  | cons s ss ih =>
    intro ps vs
    unfold emplaceSimpleConfig
    dsimp only
    split
    · exact ih ps _
    · exact (List.prefix_append ps _).trans (ih _ _)

/-- A member met for the first time gets its old progress, with its voting right refreshed. -/
theorem find?_emplaceSimpleConfig {v : Nat} {q : FollowerProgress} (hq : old.find? (·.id == v) = some q)
    (ss : List ConfigMember) : ∀ (ps : List FollowerProgress) (vs : List Nat), ps.find? (·.id == v) = none →
      v ∈ ss.map (·.id) →
        (emplaceSimpleConfig cfg nextIdx old ss (ps, vs)).1.find? (·.id == v) =
          some { q with canVote := cfg.canVote v } := by
  have hqv : q.id = v := by simpa using List.find?_some hq
  induction ss with
  | nil => exact fun _ _ _ hv => absurd hv List.not_mem_nil
  | cons s ss ih =>
    intro ps vs hnone hv
    unfold emplaceSimpleConfig
    dsimp only
    split
    · -- `s` has its entry already, so it is not `v`.
      rename_i hfound
      have hsv : s.id ≠ v := by
        rintro rfl
        rw [hnone] at hfound
        cases hfound
      exact ih ps _ hnone ((List.mem_cons.1 hv).resolve_left fun h => hsv h.symm)
    · by_cases hsv : s.id = v
      · subst hsv
        obtain ⟨qs, hqs⟩ := emplaceSimpleConfig_prefix cfg nextIdx old ss (ps ++ [_]) (if s.canVote then vs ++ [s.id] else vs)
        rw [← hqs, hq]
        simp [List.find?_append, hnone, hqv]
      · -- The entry added for `s` has the id of `s`.
        have hid : ∀ p : FollowerProgress, p.id = s.id →
            (ps ++ [{ p with canVote := cfg.canVote s.id }]).find? (fun x : FollowerProgress => x.id == v) = none := by
          intro p hp
          simp [List.find?_append, hnone, hp, hsv]
        refine ih _ _ (hid _ ?_) ((List.mem_cons.1 hv).resolve_left fun h => hsv h.symm)
        split
        · rename_i q' hq'
          simpa using List.find?_some hq'
        · rfl

/-- A member of the current set keeps its progress through `set_configuration`, with its voting right
refreshed. -/
theorem find?_setConfiguration {t : Tracker} {v : Nat} {q : FollowerProgress} (hq : t.find? v = some q)
    (hv : v ∈ cfg.current.map (·.id)) :
    (t.setConfiguration cfg nextIdx).find? v = some { q with canVote := cfg.canVote v } := by
  have hcur := find?_emplaceSimpleConfig cfg nextIdx t.progress hq cfg.current [] [] rfl hv
  obtain ⟨ps, cur, h, ⟨-, ps', prev, h', ht⟩ | ⟨-, ht⟩⟩ := setConfiguration_cases cfg nextIdx t
  · rw [h] at hcur
    obtain ⟨qs, hqs⟩ := emplaceSimpleConfig_prefix cfg nextIdx t.progress cfg.previous ps []
    rw [h'] at hqs
    dsimp only at hcur hqs
    rw [Tracker.find?, ht, ← hqs, List.find?_append, hcur, Option.some_or]
  · rw [h] at hcur
    rw [Tracker.find?, ht]
    exact hcur

/-- Voters of the current set count the same in the tracker `set_configuration` builds. -/
theorem countReached_setConfiguration {t : Tracker} {voters : List Nat}
    (hv : ∀ v ∈ voters, v ∈ cfg.current.map (·.id) ∧ (t.find? v).isSome) (c : Nat) :
    (t.setConfiguration cfg nextIdx).countReached (·.matchIdx) voters c = t.countReached (·.matchIdx) voters c := by
  refine List.countP_congr fun v hmem => ?_
  obtain ⟨hcur, hsome⟩ := hv v hmem
  obtain ⟨q, hq⟩ := Option.isSome_iff_exists.1 hsome
  rw [find?_setConfiguration cfg nextIdx hq hcur, hq]
  rfl

end SetConfiguration

theorem mem_map_id_of_mem_voterIds {s : List ConfigMember} {v : Nat} (h : v ∈ voterIds s) :
    v ∈ s.map (·.id) := by
  obtain ⟨m, hm, rfl⟩ := List.mem_map.1 h
  exact List.mem_map_of_mem (List.mem_filter.1 hm).1

/-- Every voter of the current set has a progress entry in the tracker `set_configuration` builds. -/
theorem find?_setConfiguration_isSome (cfg : Configuration) (nextIdx : Nat) (t0 : Tracker) {v : Nat}
    (hv : v ∈ voterIds cfg.current) : ((t0.setConfiguration cfg nextIdx).find? v).isSome := by
  obtain ⟨p, hp, rfl⟩ := List.mem_map.1 (((setConfiguration_progress cfg nextIdx t0).2 v).2
    (.inl (mem_map_id_of_mem_voterIds hv)))
  exact List.find?_isSome.2 ⟨p, hp, by simp⟩

/-! ## One value per voter in the match vector -/

/-- With one entry per id, `find` returns the entry of an id. -/
private theorem find?_id_of_mem {ps : List FollowerProgress} (hnd : (ps.map (·.id)).Nodup) {p : FollowerProgress}
    (hp : p ∈ ps) : ps.find? (·.id == p.id) = some p := by
  induction ps with
  | nil => exact absurd hp List.not_mem_nil
  | cons q qs ih =>
    rw [List.map_cons, List.nodup_cons] at hnd
    rcases List.mem_cons.1 hp with rfl | hp'
    · simp
    · have hne : q.id ≠ p.id := fun h => hnd.1 (h ▸ List.mem_map_of_mem hp')
      simp [hne, ih hnd.2 hp']

section MatchVector

variable {t : Tracker} {voters : List Nat} (hnd : (t.progress.map (·.id)).Nodup) (hv : voters.Nodup)
  (hsub : ∀ v ∈ voters, v ∈ t.progress.map (·.id))
include hnd hv hsub

/-- The entries the match vector is read from name the voters, each once. -/
private theorem perm_matchEntries :
    ((t.progress.filter fun p => voters.contains p.id).map (·.id)).Perm voters := by
  refine (List.perm_ext_iff_of_nodup (hnd.sublist (List.filter_sublist.map _)) hv).2 fun v => ?_
  simp only [List.mem_map, List.mem_filter, List.contains_iff_mem]
  constructor
  · rintro ⟨p, ⟨-, hp⟩, rfl⟩
    exact hp
  · intro h
    obtain ⟨p, hp, rfl⟩ := List.mem_map.1 (hsub v h)
    exact ⟨p, ⟨hp, h⟩, rfl⟩

theorem length_matchVector (key : FollowerProgress → Nat) :
    (t.matchVector voters key).length = voters.length := by
  rw [matchVector, List.length_map, ← (perm_matchEntries hnd hv hsub).length_eq, List.length_map]

theorem countP_matchVector (key : FollowerProgress → Nat) (q : Nat → Bool) :
    (t.matchVector voters key).countP q = voters.countP fun v => (t.find? v).any fun p => q (key p) := by
  rw [matchVector, List.countP_map, ← (perm_matchEntries hnd hv hsub).countP_eq, List.countP_map]
  refine List.countP_congr fun p hp => ?_
  rw [Function.comp_apply, Function.comp_apply, Tracker.find?,
    find?_id_of_mem hnd (List.mem_filter.1 hp).1, Option.any_some]

/-- `match_vector::committed` asks for a majority past `prev`. -/
theorem matchCommitted_eq (key : FollowerProgress → Nat) (prev : Nat) :
    matchCommitted prev (t.matchVector voters key) = decide (t.QuorumReached key voters (prev + 1)) := by
  rw [matchCommitted, length_matchVector hnd hv hsub, countP_matchVector hnd hv hsub]
  simp only [QuorumReached, countReached, gt_iff_lt]
  -- `prev < x` is `prev + 1 ≤ x` by definition.
  congr 2

/-- `match_vector::commit_idx` of a nonempty voter set is the greatest index a majority has reached. -/
theorem isGreatest_matchCommitIdx (key : FollowerProgress → Nat) (hne : voters ≠ []) :
    IsGreatest {c | t.QuorumReached key voters c} (matchCommitIdx (t.matchVector voters key)) := by
  have hlen := length_matchVector hnd hv hsub key
  have hpos : 0 < voters.length := List.length_pos_iff.2 hne
  have hrank := Rank.isGreatest_getD_insertionSort (t.matchVector voters key)
    (k := ((t.matchVector voters key).length - 1) / 2) (by omega) 0
  -- The rank `(n - 1) / 2` leaves `n / 2 + 1` values at or above it.
  have hquorum : (t.matchVector voters key).length - ((t.matchVector voters key).length - 1) / 2 =
      voters.length / 2 + 1 := by
    omega
  have hset : {c | (t.matchVector voters key).length - ((t.matchVector voters key).length - 1) / 2 ≤
      (t.matchVector voters key).countP fun x => c ≤ x} = {c | t.QuorumReached key voters c} := by
    ext c
    simp only [Set.mem_ofPred_eq, hquorum, countP_matchVector hnd hv hsub, QuorumReached, countReached]
  rw [hset] at hrank
  exact hrank

end MatchVector

end Tracker

open Tracker in
theorem committed_setConfiguration (t0 : Tracker) (cfg : Configuration) (nextIdx : Nat)
    (hcur : (cfg.current.map (·.id)).Nodup) (hprev : (cfg.previous.map (·.id)).Nodup)
    (hvoter : cfg.isJoint = true → voterIds cfg.previous ≠ []) (key : FollowerProgress → Nat) (prev : Nat) :
    ((¬ (t0.setConfiguration cfg nextIdx).QuorumReached key (voterIds cfg.current) (prev + 1) ∨
        cfg.isJoint = true ∧ ¬ (t0.setConfiguration cfg nextIdx).QuorumReached key (voterIds cfg.previous) (prev + 1)) →
      (t0.setConfiguration cfg nextIdx).committed key prev = prev) ∧
    ((t0.setConfiguration cfg nextIdx).QuorumReached key (voterIds cfg.current) (prev + 1) →
      (cfg.isJoint = true → (t0.setConfiguration cfg nextIdx).QuorumReached key (voterIds cfg.previous) (prev + 1)) →
      IsGreatest {c | (t0.setConfiguration cfg nextIdx).QuorumReached key (voterIds cfg.current) c ∧
        (cfg.isJoint = true → (t0.setConfiguration cfg nextIdx).QuorumReached key (voterIds cfg.previous) c)}
        ((t0.setConfiguration cfg nextIdx).committed key prev)) := by
  obtain ⟨hnd, hmem⟩ := setConfiguration_progress cfg nextIdx t0
  have hcv := setConfiguration_currentVoters cfg nextIdx t0
  have hpv := setConfiguration_previousVoters cfg nextIdx t0
  generalize t0.setConfiguration cfg nextIdx = t at *
  have hsubc : ∀ v ∈ voterIds cfg.current, v ∈ t.progress.map (·.id) :=
    fun v hv => (hmem v).2 (.inl (mem_map_id_of_mem_voterIds hv))
  have hcomc := matchCommitted_eq hnd (voterIds_nodup hcur) hsubc key prev
  -- A set with a majority is not empty.
  have hne_of : ∀ {vs : List Nat} {c : Nat}, t.QuorumReached key vs c → vs ≠ [] := by
    rintro vs c h rfl
    simp [QuorumReached, countReached] at h
  have hanti : ∀ vs x y, y ≤ x → x ∈ {c | t.QuorumReached key vs c} → y ∈ {c | t.QuorumReached key vs c} :=
    fun _ _ _ hyx hx => QuorumReached.mono hx hyx
  unfold committed
  dsimp only
  rw [hcv, hpv, hcomc]
  cases hj : cfg.isJoint
  · -- A simple configuration: only the current set counts.
    simp only [Bool.false_eq_true, ↓reduceIte, List.isEmpty_nil, Bool.not_true, false_and, or_false,
      false_implies, and_true]
    refine ⟨fun h => by simp [h], fun h _ => ?_⟩
    rw [if_neg (by simpa using h)]
    exact isGreatest_matchCommitIdx hnd (voterIds_nodup hcur) hsubc key (hne_of h)
  · -- A joint configuration: both sets count, and the previous one has a voter.
    have hsubp : ∀ v ∈ voterIds cfg.previous, v ∈ t.progress.map (·.id) :=
      fun v hv => (hmem v).2 (.inr ⟨hj, mem_map_id_of_mem_voterIds hv⟩)
    have hnotempty : (!(voterIds cfg.previous).isEmpty) = true := by
      simpa [List.isEmpty_iff] using hvoter hj
    rw [if_pos rfl, if_pos hnotempty, matchCommitted_eq hnd (voterIds_nodup hprev) hsubp key prev]
    refine ⟨fun h => by rcases h with h | ⟨-, h⟩ <;> simp [h], fun hc hp => ?_⟩
    rw [if_neg (by simp [hc, hp rfl])]
    have hmin := Rank.isGreatest_inter_min
      (isGreatest_matchCommitIdx hnd (voterIds_nodup hcur) hsubc key (hne_of hc))
      (isGreatest_matchCommitIdx hnd (voterIds_nodup hprev) hsubp key (hvoter hj)) (hanti _) (hanti _)
    simpa [Set.inter_def] using hmin

open Tracker in
/-- What a tracker configured by `set_configuration` commits past `prev` a majority of each voter set has
reached. -/
theorem quorumReached_of_lt_committed (t0 : Tracker) (cfg : Configuration) (nextIdx : Nat)
    (hcur : (cfg.current.map (·.id)).Nodup) (hprev : (cfg.previous.map (·.id)).Nodup)
    (hvoter : cfg.isJoint = true → voterIds cfg.previous ≠ []) (key : FollowerProgress → Nat) (prev : Nat)
    (h : prev < (t0.setConfiguration cfg nextIdx).committed key prev) :
    (t0.setConfiguration cfg nextIdx).QuorumReached key (voterIds cfg.current)
        ((t0.setConfiguration cfg nextIdx).committed key prev) ∧
      (cfg.isJoint = true → (t0.setConfiguration cfg nextIdx).QuorumReached key (voterIds cfg.previous)
        ((t0.setConfiguration cfg nextIdx).committed key prev)) := by
  obtain ⟨hstay, hgreatest⟩ := committed_setConfiguration t0 cfg nextIdx hcur hprev hvoter key prev
  by_cases hc : (t0.setConfiguration cfg nextIdx).QuorumReached key (voterIds cfg.current) (prev + 1)
  · by_cases hp : cfg.isJoint = true →
        (t0.setConfiguration cfg nextIdx).QuorumReached key (voterIds cfg.previous) (prev + 1)
    · exact (hgreatest hc hp).1
    · exact absurd (hstay (.inr (Classical.not_imp.1 hp))) h.ne'
  · exact absurd (hstay (.inl hc)) h.ne'

/-- The configuration entry appended at the next index is the configuration in force. -/
theorem Log.getConfiguration_emplaceBack_configuration {l : Log} (hpos : 0 < l.firstIdx) (term : Nat)
    (c : Configuration) : (l.emplaceBack { term, idx := l.nextIdx, data := .configuration c }).getConfiguration = c := by
  obtain ⟨hlast, -⟩ := Log.emplaceBack_of_config (l := l) (e := { term, idx := l.nextIdx, data := .configuration c }) rfl
  unfold Log.getConfiguration
  rw [hlast, Log.emplaceBack_lastIdx _ _ hpos, if_pos (Nat.succ_ne_zero _), Log.getEntry_emplaceBack hpos rfl]
  simp [Log.nextIdx, EntryData.config?]

/-! ## `fsm::maybe_commit`

The leader asks its tracker for the new commit index and takes it when the entry there is of its own term
(3.6.2).  When that commits the joint configuration, it appends `C_new`, configures the tracker for it and asks
again, so that a second commit counts the new voters only (4.3).
-/

namespace Fsm

open StateExcept Tracker

/-- What the end of `maybe_commit` leaves alone: the commit index, the log and the term. -/
structure CommitFrame (s s' : Fsm) : Prop where
  commitIdx : s'.commitIdx = s.commitIdx
  log : s'.log = s.log
  currentTerm : s'.currentTerm = s.currentTerm

namespace CommitFrame

theorem of_view {s s' : Fsm}
    (h : (s'.commitIdx, s'.log, s'.currentTerm) = (s.commitIdx, s.log, s.currentTerm)) : CommitFrame s s' := by
  simp only [Prod.mk.injEq] at h
  exact ⟨h.1, h.2.1, h.2.2⟩

instance : Std.Refl CommitFrame := ⟨fun _ => of_view rfl⟩

instance : IsTrans Fsm CommitFrame :=
  ⟨fun _ _ _ h₁ h₂ => ⟨h₂.commitIdx.trans h₁.commitIdx, h₂.log.trans h₁.log, h₂.currentTerm.trans h₁.currentTerm⟩⟩

end CommitFrame

theorem sendTo_commitFrame (dst : Nat) (m : RpcMessage) : Keeps CommitFrame (sendTo dst m) :=
  keeps_modify fun _ => CommitFrame.of_view rfl

theorem setLeaderState_commitFrame (ls : LeaderState) : Keeps CommitFrame (setLeaderState ls) :=
  keeps_modify fun _ => CommitFrame.of_view rfl

theorem becomeFollower_commitFrame (leader : Nat) : Keeps CommitFrame (becomeFollower leader) := by
  apply keeps_get_bind
  intro s
  dsimp only
  split
  · exact keeps_throw_bind _ _ s
  · exact keepsFrom_set (CommitFrame.of_view (by split_ifs <;> rfl))

theorem sendTimeoutNow_commitFrame (id : Nat) : Keeps CommitFrame (sendTimeoutNow id) := by
  unfold sendTimeoutNow
  refine keeps_get_bind fun s => (Keeps.bind (sendTo_commitFrame _ _) fun _ =>
    Keeps.bind leaderState_readOnly.of_eq fun ls => Keeps.bind (setLeaderState_commitFrame _) fun _ => ?_) s
  split
  · split
    · exact becomeFollower_commitFrame 0
    · exact keeps_pure _
  · exact becomeFollower_commitFrame 0

theorem transferLeadership_commitFrame (timeout : Nat) : Keeps CommitFrame (transferLeadership timeout) := by
  unfold transferLeadership
  dsimp only
  refine Keeps.bind checkIsLeader_readOnly.of_eq fun _ => Keeps.bind leaderState_readOnly.of_eq fun ls => ?_
  refine keeps_get_bind fun s => (?_ : Keeps CommitFrame _) s
  split
  · exact keeps_throw_bind _ _
  · refine Keeps.bind (setLeaderState_commitFrame _) fun _ => ?_
    split
    · exact sendTimeoutNow_commitFrame _
    · exact keeps_pure _

theorem handleReadQuorumReply_commitFrame (src : Nat) (reply : ReadQuorumReply) :
    Keeps CommitFrame (handleReadQuorumReply src reply) := by
  unfold handleReadQuorumReply
  dsimp only
  refine Keeps.bind leaderState_readOnly.of_eq fun ls => ?_
  split
  · refine Keeps.bind (setLeaderState_commitFrame _) fun _ => ?_
    split
    · exact keeps_pure _
    · split
      · exact keeps_pure _
      · exact Keeps.bind (setLeaderState_commitFrame _) fun _ => keeps_modify fun _ => CommitFrame.of_view rfl
  · exact keeps_pure _

theorem broadcastReadQuorumLoop_commitFrame (id : Nat) : ∀ ps, Keeps CommitFrame (broadcastReadQuorumLoop id ps)
  | [] => keeps_pure _
  | p :: ps => by
    unfold broadcastReadQuorumLoop
    dsimp only
    split
    · refine keeps_get_bind fun s => (?_ : Keeps CommitFrame _) s
      split
      · exact Keeps.bind (handleReadQuorumReply_commitFrame _ _) fun _ => broadcastReadQuorumLoop_commitFrame id ps
      · exact Keeps.bind (sendTo_commitFrame _ _) fun _ => broadcastReadQuorumLoop_commitFrame id ps
    · exact broadcastReadQuorumLoop_commitFrame id ps

theorem broadcastReadQuorum_commitFrame (id : Nat) : Keeps CommitFrame (broadcastReadQuorum id) :=
  Keeps.bind leaderState_readOnly.of_eq fun _ => broadcastReadQuorumLoop_commitFrame id _

private theorem rebroadcast_commitFrame : Keeps CommitFrame (do
    match (← get).state with
    | .leader ls => if ls.lastReadId ≠ ls.maxReadIdWithQuorum then broadcastReadQuorum ls.lastReadId
    | _ => pure () : FsmM Unit) := by
  refine keeps_get_bind fun s => (?_ : Keeps CommitFrame _) s
  split
  · split
    · exact broadcastReadQuorum_commitFrame _
    · exact keeps_pure _
  · exact keeps_pure _

variable {t : Tracker} {cfg : Configuration}

/-- What `maybe_commit` guarantees a leader whose configuration in force is `cfg`, counted by the tracker `t`: the
term stays, the commit index does not go down, and the log stays or gains `C_new` after the joint `cfg`.  A new
commit index holds an entry of the leader's term that a majority of each voter set of `cfg` has reached, or a
majority of the current set once the joint configuration is committed in the same call. -/
structure CommitSpec (t : Tracker) (cfg : Configuration) (s s' : Fsm) : Prop where
  currentTerm : s'.currentTerm = s.currentTerm
  commitIdx_le : s.commitIdx ≤ s'.commitIdx
  log : s'.log = s.log ∨ cfg.isJoint = true ∧
    s'.log = s.log.emplaceBack { term := s.currentTerm, idx := s.log.nextIdx, data := .configuration cfg.leaveJoint }
  raised : s.commitIdx < s'.commitIdx →
    (∃ e, s'.log.getEntry s'.commitIdx = some e ∧ e.term = s.currentTerm) ∧
      t.QuorumReached (·.matchIdx) (voterIds cfg.current) s'.commitIdx ∧
      (cfg.isJoint = true → t.QuorumReached (·.matchIdx) (voterIds cfg.previous) s'.commitIdx ∨
        s.commitIdx < s.log.lastConfIdx ∧ t.QuorumReached (·.matchIdx) (voterIds cfg.previous) s.log.lastConfIdx ∧
          s'.log.getConfiguration = cfg.leaveJoint)

theorem CommitSpec.refl (s : Fsm) : CommitSpec t cfg s s :=
  ⟨rfl, le_rfl, .inl rfl, fun h => absurd h (lt_irrefl _)⟩

/-- A commit at `n`, by majorities of both voter sets, followed by steps that keep the frame. -/
theorem CommitSpec.of_commit {s s' : Fsm} {n : Nat} {e : LogEntry} (hlt : s.commitIdx < n)
    (he : s.log.getEntry n = some e) (hterm : e.term = s.currentTerm)
    (hcur : t.QuorumReached (·.matchIdx) (voterIds cfg.current) n)
    (hprev : cfg.isJoint = true → t.QuorumReached (·.matchIdx) (voterIds cfg.previous) n)
    (hf : CommitFrame { s with commitIdx := n } s') : CommitSpec t cfg s s' := by
  have hc : s'.commitIdx = n := hf.commitIdx
  have hl : s'.log = s.log := hf.log
  refine ⟨hf.currentTerm, hc ▸ hlt.le, .inl hl, fun _ => ?_⟩
  rw [hc, hl]
  exact ⟨⟨e, he, hterm⟩, hcur, fun hj => .inl (hprev hj)⟩

/-- A commit at `n` of the joint configuration, then `C_new` appended as `s₃` and what the tracker configured for
it commits, then steps that keep the frame.  The current voters keep their match indexes in the new tracker. -/
theorem CommitSpec.of_leaveJoint {s s₃ s₄ s' : Fsm} {n m : Nat} {e : LogEntry}
    (hsub : ∀ v ∈ voterIds cfg.current, (t.find? v).isSome) (hpos : 0 < s.log.firstIdx) (hj : cfg.isJoint = true)
    (hlt : s.commitIdx < n) (he : s.log.getEntry n = some e) (hterm : e.term = s.currentTerm)
    (hconf : s.commitIdx < s.log.lastConfIdx ∧ s.log.lastConfIdx ≤ n)
    (hcur : t.QuorumReached (·.matchIdx) (voterIds cfg.current) n)
    (hprev : t.QuorumReached (·.matchIdx) (voterIds cfg.previous) n) (h₃c : s₃.commitIdx = n)
    (h₃l : s₃.log = s.log.emplaceBack { term := s.currentTerm, idx := s.log.nextIdx, data := .configuration cfg.leaveJoint })
    (h₃t : s₃.currentTerm = s.currentTerm)
    (hrec : CommitSpec (t.setConfiguration cfg.leaveJoint m) cfg.leaveJoint s₃ s₄) (hf : CommitFrame s₄ s') :
    CommitSpec t cfg s s' := by
  -- The recursive call is on a configuration that is not joint, so it appends nothing.
  have h₄l : s₄.log = s₃.log := hrec.log.resolve_right fun h => by simp at h
  have hl : s'.log =
      s.log.emplaceBack { term := s.currentTerm, idx := s.log.nextIdx, data := .configuration cfg.leaveJoint } :=
    hf.log.trans (h₄l.trans h₃l)
  have hn : n ≤ s'.commitIdx := hf.commitIdx ▸ h₃c ▸ hrec.commitIdx_le
  refine ⟨hf.currentTerm.trans (hrec.currentTerm.trans h₃t), hlt.le.trans hn, .inr ⟨hj, hl⟩, fun _ => ?_⟩
  rcases hn.lt_or_eq with hgt | heq
  · -- The new tracker committed further, counting the current voters alone.
    obtain ⟨⟨e', he', hterm'⟩, hcur', -⟩ := hrec.raised (by rw [h₃c, ← hf.commitIdx]; exact hgt)
    have hcount : (t.setConfiguration cfg.leaveJoint m).countReached (·.matchIdx) (voterIds cfg.current) s₄.commitIdx =
        t.countReached (·.matchIdx) (voterIds cfg.current) s₄.commitIdx :=
      countReached_setConfiguration cfg.leaveJoint m (fun v hv => ⟨mem_map_id_of_mem_voterIds hv, hsub v hv⟩) _
    refine ⟨⟨e', by rw [hf.log, hf.commitIdx]; exact he', hterm'.trans h₃t⟩, ?_,
      fun _ => .inr ⟨hconf.1, hprev.mono hconf.2, ?_⟩⟩
    · rw [hf.commitIdx]
      unfold QuorumReached
      rw [← hcount]
      exact hcur'
    · rw [hl]
      exact Log.getConfiguration_emplaceBack_configuration hpos _ _
  · -- Nothing more: the joint commit stands, in the log that gained `C_new`.
    rw [← heq, hl]
    exact ⟨⟨e, Log.getEntry_emplaceBack_of_some he, hterm⟩, hcur, fun _ => .inl hprev⟩

/-- `maybe_commit` with any fuel meets `CommitSpec`, for a leader whose tracker `set_configuration` built from
the configuration in force. -/
theorem maybeCommitAux_commitSpec (fuel : Nat) : ∀ {t : Tracker} {cfg : Configuration} {nextIdx : Nat} {s : Fsm}
    {ls : LeaderState}, (cfg.current.map (·.id)).Nodup → (cfg.previous.map (·.id)).Nodup →
    (cfg.isJoint = true → voterIds cfg.previous ≠ []) → s.state = .leader ls →
    ls.tracker = t.setConfiguration cfg nextIdx → s.log.getConfiguration = cfg → 0 < s.log.firstIdx →
    KeepsFrom (CommitSpec ls.tracker cfg) s (maybeCommitAux fuel) := by
  induction fuel with
  | zero =>
    intro t0 cfg nextIdx s ls _ _ _ _ _ _ _ u s' h
    obtain ⟨-, rfl⟩ := run_pure_eq_ok.1 h
    exact CommitSpec.refl s
  | succ fuel ih =>
    intro t0 cfg nextIdx s ls hcur hprev hvoter hls ht hcfg hpos
    rw [maybeCommitAux]
    refine keepsFrom_leaderState_bind fun ls' hls' => keepsFrom_get_bind ?_
    rw [hls] at hls'
    cases hls'
    dsimp only
    split
    · exact fun _ _ h => (run_pure_eq_ok.1 h).2 ▸ CommitSpec.refl s
    rename_i hle
    have hq := quorumReached_of_lt_committed t0 cfg nextIdx hcur hprev hvoter (·.matchIdx) s.commitIdx
      (by rw [← ht]; omega)
    rw [← ht] at hq
    split
    · rename_i e he
      split
      · exact fun _ _ h => (run_pure_eq_ok.1 h).2 ▸ CommitSpec.refl s
      rename_i hterm
      intro u s' h
      obtain ⟨u, s₁, hset, h⟩ := run_bind_eq_ok.1 h
      rw [run_set_eq_ok] at hset
      subst hset
      split at h
      · rename_i hconf
        simp only [decide_eq_true_eq] at hconf
        split at h
        · -- The joint configuration is committed: `C_new` is appended and the tracker configured for it.
          rename_i hj
          rw [hcfg] at hj
          obtain ⟨_, _, hg, h⟩ := run_bind_eq_ok.1 h
          obtain ⟨rfl, rfl⟩ := run_get_eq_ok.1 hg
          obtain ⟨_, _, hset, h⟩ := run_bind_eq_ok.1 h
          rw [run_set_eq_ok] at hset
          subst hset
          obtain ⟨_, _, hg, h⟩ := run_bind_eq_ok.1 h
          obtain ⟨rfl, rfl⟩ := run_get_eq_ok.1 hg
          obtain ⟨ls₂, _, hl, h⟩ := run_bind_eq_ok.1 h
          obtain ⟨hls₂, rfl⟩ := leaderState_eq_ok.1 hl
          rw [show ls₂ = ls from Role.leader.inj (hls₂.symm.trans hls)] at h
          obtain ⟨_, _, hsl, h⟩ := run_bind_eq_ok.1 h
          rw [setLeaderState_eq_ok] at hsl
          subst hsl
          obtain ⟨_, s₄, hrun, h⟩ := run_bind_eq_ok.1 h
          dsimp only at hrun
          rw [hcfg] at hrun
          -- The log now holds `C_new`, for which the tracker is configured.
          have hnew := Log.getConfiguration_emplaceBack_configuration hpos s.currentTerm cfg.leaveJoint
          have hrec := ih (t := ls.tracker) (show (cfg.leaveJoint.current.map (·.id)).Nodup from hcur)
            List.nodup_nil (fun h => absurd h (by simp)) rfl (by rw [hnew]) hnew
            (by rw [Log.emplaceBack_firstIdx]; exact hpos) hrun
          rw [hnew] at hrec
          refine CommitSpec.of_leaveJoint (fun v hv => ht ▸ find?_setConfiguration_isSome cfg nextIdx t0 hv) hpos hj
            (Nat.lt_of_not_le hle) he (not_not.1 hterm) ⟨hconf.1, hconf.2⟩ hq.1 (hq.2 hj) ?_ ?_ ?_ hrec
            (rebroadcast_commitFrame s₄ h) <;> rfl
        · -- A committed `C_new`: the leader may step down, which keeps the frame.
          obtain ⟨_, _, hl, h⟩ := run_bind_eq_ok.1 h
          obtain ⟨-, rfl⟩ := leaderState_eq_ok.1 hl
          have hf : CommitFrame { s with commitIdx := ls.tracker.committed (·.matchIdx) s.commitIdx } s' := by
            split at h
            · split at h
              · exact Keeps.bind (transferLeadership_commitFrame 0) (fun _ => rebroadcast_commitFrame) _ h
              · exact rebroadcast_commitFrame _ h
            · exact Keeps.bind (transferLeadership_commitFrame 0) (fun _ => rebroadcast_commitFrame) _ h
          exact CommitSpec.of_commit (Nat.lt_of_not_le hle) he (not_not.1 hterm) hq.1 hq.2 hf
      · obtain ⟨-, rfl⟩ := run_pure_eq_ok.1 h
        exact CommitSpec.of_commit (Nat.lt_of_not_le hle) he (not_not.1 hterm) hq.1 hq.2 (refl_of CommitFrame _)
    · exact keeps_throw _ s

end Fsm

open Tracker Fsm in
/-- The commit rule of a tracker configured by `set_configuration`, on a configuration whose member sets name
each server once and whose previous set, while joint, has a voter.  For any values of `key` (the match indexes or
the acknowledged read ids), `committed` returns `prev` when a voter set has no majority past `prev`, and
otherwise the greatest index that a majority of every voter set has reached.  So `maybe_commit`, on a leader whose
tracker was so configured from the configuration in force, raises the commit index only to an entry of the
leader's term that a majority of each voter set has reached by the match indexes, the non-voters counting for
nothing; except that once it commits the joint configuration and appends `C_new`, a majority of the new voters
suffices. -/
theorem committed_of_setConfiguration (t0 : Tracker) (cfg : Configuration) (nextIdx : Nat)
    (hcur : (cfg.current.map (·.id)).Nodup) (hprev : (cfg.previous.map (·.id)).Nodup)
    (hvoter : cfg.isJoint = true → voterIds cfg.previous ≠ []) :
    (∀ (key : FollowerProgress → Nat) (prev : Nat),
      ((¬ (t0.setConfiguration cfg nextIdx).QuorumReached key (voterIds cfg.current) (prev + 1) ∨
          cfg.isJoint = true ∧
            ¬ (t0.setConfiguration cfg nextIdx).QuorumReached key (voterIds cfg.previous) (prev + 1)) →
        (t0.setConfiguration cfg nextIdx).committed key prev = prev) ∧
      ((t0.setConfiguration cfg nextIdx).QuorumReached key (voterIds cfg.current) (prev + 1) →
        (cfg.isJoint = true → (t0.setConfiguration cfg nextIdx).QuorumReached key (voterIds cfg.previous) (prev + 1)) →
        IsGreatest {c | (t0.setConfiguration cfg nextIdx).QuorumReached key (voterIds cfg.current) c ∧
          (cfg.isJoint = true → (t0.setConfiguration cfg nextIdx).QuorumReached key (voterIds cfg.previous) c)}
          ((t0.setConfiguration cfg nextIdx).committed key prev))) ∧
    ∀ {s s' : Fsm} {ls : LeaderState} {u : Unit}, s.state = .leader ls →
      ls.tracker = t0.setConfiguration cfg nextIdx → s.log.getConfiguration = cfg → 0 < s.log.firstIdx →
      maybeCommit.run s = .ok (u, s') → s.commitIdx < s'.commitIdx →
        (∃ e, s'.log.getEntry s'.commitIdx = some e ∧ e.term = s.currentTerm) ∧
        (t0.setConfiguration cfg nextIdx).QuorumReached (·.matchIdx) (voterIds cfg.current) s'.commitIdx ∧
        (cfg.isJoint = true →
          (t0.setConfiguration cfg nextIdx).QuorumReached (·.matchIdx) (voterIds cfg.previous) s'.commitIdx ∨
            s.commitIdx < s.log.lastConfIdx ∧
              (t0.setConfiguration cfg nextIdx).QuorumReached (·.matchIdx) (voterIds cfg.previous) s.log.lastConfIdx ∧
              s'.log.getConfiguration = cfg.leaveJoint) := by
  refine ⟨committed_setConfiguration t0 cfg nextIdx hcur hprev hvoter, fun hls ht hcfg hpos h hlt => ?_⟩
  rw [← ht]
  exact (maybeCommitAux_commitSpec 2 hcur hprev hvoter hls ht hcfg hpos h).raised hlt

open StateExcept Fsm in
/-- The example of `fsm.cc`: a leader in the joint configuration `{1, 2}` to `{1, …, 5}`, whose followers have
reached 5, 5, 6, 7 and 8, with the joint entry at 4 and commit index 3.  Both sets have a majority at 5 only, which
commits the joint entry; the leader appends `C_new` at 9 and, counting the new voters alone, commits 6, which the
old set has no majority for. -/
theorem committed_of_setConfiguration_leaving_joint :
    let cfg : Configuration :=
      { current := [⟨1, true⟩, ⟨2, true⟩, ⟨3, true⟩, ⟨4, true⟩, ⟨5, true⟩], previous := [⟨1, true⟩, ⟨2, true⟩] }
    let t0 : Tracker :=
      { progress := [{ id := 1, nextIdx := 9, matchIdx := 5 }, { id := 2, nextIdx := 9, matchIdx := 5 },
          { id := 3, nextIdx := 9, matchIdx := 6 }, { id := 4, nextIdx := 9, matchIdx := 7 },
          { id := 5, nextIdx := 9, matchIdx := 8 }],
        currentVoters := [], previousVoters := [] }
    let s : Fsm :=
      { myId := 1, state := .leader { tracker := t0.setConfiguration cfg 9 }, currentTerm := 1, votedFor := 1,
        commitIdx := 3,
        log := ⟨{ config := { current := [⟨1, true⟩, ⟨2, true⟩] } }, [⟨1, 1, .dummy⟩, ⟨1, 2, .dummy⟩, ⟨1, 3, .dummy⟩,
          ⟨1, 4, .configuration cfg⟩, ⟨1, 5, .dummy⟩, ⟨1, 6, .dummy⟩, ⟨1, 7, .dummy⟩, ⟨1, 8, .dummy⟩], 1, 8, 4, 0, 0, 0⟩,
        config := { appendRequestThreshold := 1, maxLogSize := 100, enablePrevoting := false },
        abortLeadershipTransfer := false, pingLeader := false,
        observed := { currentTerm := 1, votedFor := 1, commitIdx := 3, lastConfIdx := 4, lastTerm := 1,
                      abortLeadershipTransfer := false },
        output := {}, now := 0, lastElectionTime := 0, randomizedElectionTimeout := 11, messages := [] }
    ∃ s', maybeCommit.run s = .ok ((), s') ∧ s'.commitIdx = 6 ∧
      ¬ (t0.setConfiguration cfg 9).QuorumReached (·.matchIdx) (voterIds cfg.previous) 6 ∧
      (∃ e, s'.log.getEntry s'.commitIdx = some e ∧ e.term = s.currentTerm) ∧
      (t0.setConfiguration cfg 9).QuorumReached (·.matchIdx) (voterIds cfg.current) s'.commitIdx ∧
      (cfg.isJoint = true →
        (t0.setConfiguration cfg 9).QuorumReached (·.matchIdx) (voterIds cfg.previous) s'.commitIdx ∨
          s.commitIdx < s.log.lastConfIdx ∧
            (t0.setConfiguration cfg 9).QuorumReached (·.matchIdx) (voterIds cfg.previous) s.log.lastConfIdx ∧
            s'.log.getConfiguration = cfg.leaveJoint) := by
  intro cfg t0 s
  have hok : (maybeCommit.run s >>= fun r => pure r.2.commitIdx : Except RaftError Nat) = .ok 6 := by
    decide +kernel
  obtain ⟨⟨u, s'⟩, hrun, h6⟩ := except_bind_eq_ok.1 hok
  have hc : s'.commitIdx = 6 := except_pure_eq_ok.1 h6
  refine ⟨s', hrun, hc, by decide, ?_⟩
  exact (committed_of_setConfiguration t0 cfg 9 (by decide) (by decide) (by decide)).2 rfl rfl (by decide)
    (by decide) hrun (by rw [hc]; decide)

/-- A joint configuration whose previous set has no voter: the previous set is empty to the tracker, which then
commits on the current set alone, although no majority of the (empty) previous voter set is past the commit
index. -/
theorem committed_ignores_voterless_previous :
    Configuration.isJoint ⟨[⟨1, true⟩], [⟨2, false⟩]⟩ = true ∧
      ¬ ((Tracker.empty.setConfiguration (⟨[⟨1, true⟩], [⟨2, false⟩]⟩ : Configuration) 1).update
          ({ id := 1, nextIdx := 6, matchIdx := 5 } : FollowerProgress)).QuorumReached (·.matchIdx)
          (voterIds [⟨2, false⟩]) 1 ∧
      ((Tracker.empty.setConfiguration (⟨[⟨1, true⟩], [⟨2, false⟩]⟩ : Configuration) 1).update
          ({ id := 1, nextIdx := 6, matchIdx := 5 } : FollowerProgress)).committed (·.matchIdx) 0 = 5 := by
  decide

end Scylla.Raft
