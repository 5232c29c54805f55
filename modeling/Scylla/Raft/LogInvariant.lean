import Mathlib
import Scylla.Raft.Log

/-!
# The representation invariant of the log

`raft/log.hh`, `raft/log.cc`: what every log built by the constructor and changed by `emplace_back`,
`maybe_append`, `stable_to` and `apply_snapshot` (`Log.Step`) satisfies (`Log.WellFormed`): the entries are
consecutive from a positive first index at most one past the snapshot, the log reaches the snapshot's index, the
stable index lies in the log, and the memory counter is the memory of the entries held.  `term_for` is then
defined exactly on the entries and at the snapshot's index (`WellFormed.termFor_isSome_iff`).

`apply_snapshot` keeps the entries above the snapshot and the longest run of entries just below it within both
trailing limits (`WellFormed.applySnapshot_spec`); its loop is characterised once (`trailingLoop_spec`).

The constructor checks only that its first entry is not past the snapshot: the invariant holds from a constructor
given entries with consecutive indexes that reach the snapshot's index.
-/

namespace Scylla.Raft

namespace Log

/-! ## Memory of a range of entries -/

@[simp] theorem rangeMemoryUsage_nil (m : Nat) : rangeMemoryUsage m [] = 0 := rfl

@[simp] theorem rangeMemoryUsage_append (m : Nat) (es es' : List LogEntry) :
    rangeMemoryUsage m (es ++ es') = rangeMemoryUsage m es + rangeMemoryUsage m es' := by
  simp [rangeMemoryUsage]

@[simp] theorem rangeMemoryUsage_cons (m : Nat) (e : LogEntry) (es : List LogEntry) :
    rangeMemoryUsage m (e :: es) = memoryUsageOf m e + rangeMemoryUsage m es := by
  simp [rangeMemoryUsage]

theorem rangeMemoryUsage_take_add_drop (m n : Nat) (es : List LogEntry) :
    rangeMemoryUsage m (es.take n) + rangeMemoryUsage m (es.drop n) = rangeMemoryUsage m es := by
  rw [← rangeMemoryUsage_append, List.take_append_drop]

/-- A longer suffix holds at least as much memory. -/
theorem rangeMemoryUsage_drop_anti (m : Nat) (es : List LogEntry) {j j' : Nat} (h : j ≤ j') :
    rangeMemoryUsage m (es.drop j') ≤ rangeMemoryUsage m (es.drop j) := by
  have hsplit := rangeMemoryUsage_take_add_drop m (j' - j) (es.drop j)
  rw [List.drop_drop, Nat.add_sub_cancel' h] at hsplit
  omega

/-! ## Fields the operations keep -/

@[simp] theorem emplaceBack_memoryUsage (l : Log) (e : LogEntry) :
    (l.emplaceBack e).memoryUsage = l.memoryUsage + memoryUsageOf l.maxCommandSize e := by
  unfold emplaceBack
  split <;> rfl

@[simp] theorem emplaceBack_maxCommandSize (l : Log) (e : LogEntry) :
    (l.emplaceBack e).maxCommandSize = l.maxCommandSize := by
  unfold emplaceBack
  split <;> rfl

/-- Entries indexed `i, i + 1, …`: up to `x` they are a prefix, above `x` the rest. -/
theorem filter_idx_of_indexed {es : List LogEntry} {i : Nat}
    (h : ∀ {j : Nat} {e : LogEntry}, es[j]? = some e → e.idx = i + j) (x : Nat) :
    es.filter (fun e => e.idx ≤ x) = es.take (x + 1 - i) ∧
      es.filter (fun e => x < e.idx) = es.drop (x + 1 - i) := by
  induction es generalizing i with
  | nil => simp
  | cons e es ih =>
    have he : e.idx = i := by simpa using h (j := 0) rfl
    have htail := ih (i := i + 1) fun {j} {e'} hj => by
      have := h (j := j + 1) (by simpa using hj)
      omega
    by_cases hix : i ≤ x
    · rw [show x + 1 - i = (x + 1 - (i + 1)) + 1 by omega, List.take_succ_cons, List.drop_succ_cons]
      simp only [List.filter_cons, he, hix, decide_true, ↓reduceIte, htail.1, htail.2,
        show ¬ x < i by omega, decide_false, Bool.false_eq_true]
      exact ⟨trivial, trivial⟩
    · rw [show x + 1 - i = 0 by omega, List.take_zero, List.drop_zero]
      have hnil : es.take (x + 1 - (i + 1)) = [] := by rw [show x + 1 - (i + 1) = 0 by omega, List.take_zero]
      have hall : es.drop (x + 1 - (i + 1)) = es := by rw [show x + 1 - (i + 1) = 0 by omega, List.drop_zero]
      simp only [List.filter_cons, he, hix, decide_false, Bool.false_eq_true, ↓reduceIte, htail.1, htail.2,
        hnil, hall, show x < i by omega, decide_true]
      exact ⟨trivial, trivial⟩

/-! ## The invariant -/

/-- The representation invariant of `raft::log`. -/
structure WellFormed (l : Log) : Prop where
  consecutive : l.Consecutive
  firstIdx_le : l.firstIdx ≤ l.snapshot.idx + 1
  snapshot_le : l.snapshot.idx ≤ l.lastIdx
  stableIdx_le : l.stableIdx ≤ l.lastIdx
  memoryUsage_eq : l.memoryUsage = rangeMemoryUsage l.maxCommandSize l.entries

/-- `last_term` is the term of the last entry, or the snapshot's without entries. -/
theorem lastTerm_eq (l : Log) : l.lastTerm = (l.entries.getLast?.map (·.term)).getD l.snapshot.term := by
  unfold lastTerm
  cases l.entries.getLast? <;> rfl

namespace WellFormed

variable {l l' : Log}

theorem getEntry_isSome_iff (h : l.WellFormed) {i : Nat} :
    (l.getEntry i).isSome ↔ l.firstIdx ≤ i ∧ i ≤ l.lastIdx := by
  have hpos := h.consecutive.firstIdx_pos
  unfold getEntry lastIdx
  by_cases hi : l.firstIdx ≤ i
  · rw [if_pos hi, isSome_getElem?]
    omega
  · rw [if_neg hi]
    simp only [Option.isSome_none, Bool.false_eq_true, false_iff, not_and]
    exact fun h => absurd h hi

/-- `term_for` is defined exactly on the entries held and at the snapshot's index. -/
theorem termFor_isSome_iff (h : l.WellFormed) (i : Nat) :
    (l.termFor i).isSome ↔ l.firstIdx ≤ i ∧ i ≤ l.lastIdx ∨ i = l.snapshot.idx := by
  have hsnap := h.snapshot_le
  have hfirst := h.firstIdx_le
  have hpos := h.consecutive.firstIdx_pos
  unfold termFor
  split
  · -- Some entry is held at or below `i`: the entry answers, and the snapshot's index is in the log.
    rename_i hin
    simp only [Bool.and_eq_true, Bool.not_eq_true', List.isEmpty_eq_false_iff, decide_eq_true_eq] at hin
    rw [Option.isSome_map, h.getEntry_isSome_iff]
    constructor
    · exact .inl
    · rintro (hi | rfl)
      · exact hi
      · exact ⟨hin.2, hsnap⟩
  · rename_i hout
    -- Without entries the log ends at the snapshot; below the first entry only the snapshot is known.
    have hnone : ¬ (l.firstIdx ≤ i ∧ i ≤ l.lastIdx) := by
      rintro ⟨h1, h2⟩
      apply hout
      simp only [Bool.and_eq_true, Bool.not_eq_true', List.isEmpty_eq_false_iff, decide_eq_true_eq]
      refine ⟨fun hnil => ?_, h1⟩
      unfold lastIdx at h2
      rw [hnil, List.length_nil] at h2
      omega
    split
    · rename_i hi
      simp [hi]
    · rename_i hi
      simp [hi, hnone]

theorem emplaceBack (h : l.WellFormed) {e : LogEntry} (he : e.idx = l.nextIdx) : (l.emplaceBack e).WellFormed := by
  have hlast := emplaceBack_lastIdx l e h.consecutive.firstIdx_pos
  refine ⟨h.consecutive.emplaceBack he, ?_, ?_, ?_, ?_⟩
  · simpa using h.firstIdx_le
  · rw [hlast, emplaceBack_snapshot]
    exact Nat.le_succ_of_le h.snapshot_le
  · rw [hlast, emplaceBack_stableIdx]
    exact Nat.le_succ_of_le h.stableIdx_le
  · simp [h.memoryUsage_eq]

theorem stableTo (h : l.WellFormed) {idx : Nat} (hs : l.stableTo idx = .ok l') : l'.WellFormed := by
  obtain ⟨rfl, hidx⟩ := stableTo_eq_ok hs
  exact ⟨h.consecutive.congr rfl rfl, h.firstIdx_le, h.snapshot_le, hidx, h.memoryUsage_eq⟩

/-- A truncation above the snapshot, within the log, as `maybe_append` makes it. -/
theorem truncateUncommitted (h : l.WellFormed) {idx : Nat} (ht : l.truncateUncommitted idx = .ok l')
    (hsnap : l.snapshot.idx < idx) (hle : idx ≤ l.lastIdx) : l'.WellFormed := by
  have hcons := h.consecutive.truncateUncommitted ht
  -- Every outcome keeps the prefix below `idx`, with the memory and the stable index cut to it.
  have hprefix : ∀ {l'' : Log}, l''.entries = l.entries.take (idx - l.firstIdx) → l''.firstIdx = l.firstIdx →
      l''.snapshot = l.snapshot → l''.maxCommandSize = l.maxCommandSize →
      l''.memoryUsage = l.memoryUsage - rangeMemoryUsage l.maxCommandSize (l.entries.drop (idx - l.firstIdx)) →
      l''.stableIdx = min l.stableIdx ((l.entries.take (idx - l.firstIdx)).length + l.firstIdx - 1) →
      l''.Consecutive → l''.WellFormed := by
    intro l'' he hf hs hm hmem hst hc
    have hfi := h.firstIdx_le
    have hlen : (l.entries.take (idx - l.firstIdx)).length = idx - l.firstIdx := by
      unfold lastIdx at hle
      rw [List.length_take]
      omega
    have hlast : l''.lastIdx = idx - 1 := by
      unfold lastIdx
      rw [he, hf, hlen]
      omega
    refine ⟨hc, hf ▸ hs ▸ h.firstIdx_le, ?_, ?_, ?_⟩
    · rw [hlast, hs]
      omega
    · rw [hlast, hst]
      rw [hlen]
      omega
    · have hsplit := rangeMemoryUsage_take_add_drop l.maxCommandSize (idx - l.firstIdx) l.entries
      rw [hmem, he, hm, h.memoryUsage_eq]
      omega
  unfold Log.truncateUncommitted at ht
  split at ht
  · cases ht
  · dsimp only at ht
    split at ht
    · split at ht
      · cases ht
        exact hprefix rfl rfl rfl rfl rfl rfl hcons
      · cases ht
    · cases ht
      exact hprefix rfl rfl rfl rfl rfl rfl hcons

end WellFormed

/-- The spec of `maybe_append`'s loop for any property that appending at the next index and truncating above
the snapshot keep. -/
theorem maybeAppendLoop_keeps (P : Log → Prop)
    (happend : ∀ {l : Log} {e : LogEntry}, P l → e.idx = l.nextIdx → P (l.emplaceBack e))
    (htrunc : ∀ {l l' : Log} {idx : Nat}, P l → l.truncateUncommitted idx = .ok l' → l.snapshot.idx < idx →
      idx ≤ l.lastIdx → P l') :
    ∀ {l l' : Log} {es : List LogEntry}, P l → maybeAppendLoop l es = .ok l' → P l'
  | l, l', [], h, hm => by
    cases hm
    exact h
  | l, l', e :: es, h, hm => by
    simp only [Log.maybeAppendLoop] at hm
    split at hm
    · rename_i hle
      split at hm
      · exact maybeAppendLoop_keeps P happend htrunc h hm
      · split at hm
        · exact maybeAppendLoop_keeps P happend htrunc h hm
        · split at hm
          · cases hm
          · rename_i hsnap
            cases ht : l.truncateUncommitted e.idx with
            | error => simp [ht] at hm; cases hm
            | ok l1 =>
              simp only [ht, bind, Except.bind] at hm
              split at hm
              · cases hm
              · -- The conflicting entry goes right after the truncated log.
                have h1 := htrunc h ht (Nat.lt_of_not_le hsnap) hle
                exact maybeAppendLoop_keeps P happend htrunc (happend h1 (by omega)) hm
    · split at hm
      · cases hm
      · exact maybeAppendLoop_keeps P happend htrunc (happend h (by omega)) hm

theorem WellFormed.maybeAppend {l l' : Log} {es : List LogEntry} {i : Nat} (h : l.WellFormed)
    (hm : l.maybeAppend es = .ok (l', i)) : l'.WellFormed := by
  unfold Log.maybeAppend at hm
  split at hm
  · cases hm
  · obtain ⟨l1, hl, hr⟩ := StateExcept.except_bind_eq_ok.1 hm
    cases hr
    exact maybeAppendLoop_keeps WellFormed (fun h he => h.emplaceBack he)
      (fun h ht hs hle => h.truncateUncommitted ht hs hle) h hl

/-! ## The constructor -/

/-- A constructor given entries indexed `i, i + 1, …` that reach the snapshot's index builds a well-formed log. -/
theorem WellFormed.mk' {snp : SnapshotDescriptor} {es : List LogEntry} {mcs : Nat} {l : Log}
    (hidx : ∃ i, es.map (·.idx) = List.range' i es.length ∧ snp.idx + 1 ≤ i + es.length)
    (h : Log.mk' snp es mcs = .ok l) : l.WellFormed := by
  obtain ⟨i, hmap, hreach⟩ := hidx
  -- The entries are those the indexes `i, i + 1, …` name.
  have hidx : ∀ {j : Nat} {x : LogEntry}, es[j]? = some x → x.idx = i + j := by
    intro j x hj
    have hlt : j < es.length := (List.getElem?_eq_some_iff.1 hj).1
    have := congrArg (·[j]?) hmap
    simp only [List.getElem?_map, hj, Option.map_some, List.getElem?_range' hlt, Nat.one_mul] at this
    exact Option.some.inj this
  unfold Log.mk' at h
  dsimp only at h
  split at h
  · -- No entries: the log starts right after the snapshot.
    rename_i hhead
    obtain rfl := List.head?_eq_none_iff.1 hhead
    split at h
    · cases h
    split at h
    · cases h
    cases h
    exact ⟨⟨Nat.succ_pos _, fun hj => by simp at hj⟩, le_rfl, by simp [lastIdx], by simp [lastIdx], rfl⟩
  · rename_i e hhead
    have he : e.idx = i := by
      rw [List.head?_eq_getElem?] at hhead
      exact hidx hhead
    have hne : es.isEmpty = false := by
      cases es with
      | nil => simp at hhead
      | cons _ _ => rfl
    split at h
    · cases h
    rename_i hassert
    split at h
    · cases h
    rename_i hzero
    cases h
    refine ⟨⟨Nat.pos_of_ne_zero hzero, fun hj => by rw [hidx hj, he]⟩, ?_, ?_, le_rfl, rfl⟩
    · simp only [hne, true_and, gt_iff_lt, not_lt] at hassert
      exact hassert
    · simp only [lastIdx]
      omega

/-! ## `apply_snapshot` -/

/-- The inversion lemma of `apply_snapshot`: a newer snapshot, and either nothing left past the end of the log or
the entries from where the trailing loop stopped. -/
theorem applySnapshot_cases {l l' : Log} {snp : SnapshotDescriptor} {te tb released newFirst : Nat}
    (ha : l.applySnapshot snp te tb = .ok (l', released, newFirst)) :
    l.snapshot.idx < snp.idx ∧ l'.snapshot = snp ∧ l'.maxCommandSize = l.maxCommandSize ∧
      newFirst = l'.firstIdx ∧ l'.stableIdx = max snp.idx l.stableIdx ∧
      ((l.lastIdx < snp.idx ∧ l'.entries = [] ∧ l'.firstIdx = snp.idx + 1 ∧ l'.memoryUsage = 0 ∧
          released = l.memoryUsage) ∨
        (snp.idx ≤ l.lastIdx ∧
          l'.entries = l.entries.drop
            (trailingLoop l.entries l.maxCommandSize tb te (l.entries.length - (l.lastIdx - snp.idx)) 0) ∧
          l'.firstIdx = l.firstIdx +
            trailingLoop l.entries l.maxCommandSize tb te (l.entries.length - (l.lastIdx - snp.idx)) 0 ∧
          released = rangeMemoryUsage l.maxCommandSize (l.entries.take
            (trailingLoop l.entries l.maxCommandSize tb te (l.entries.length - (l.lastIdx - snp.idx)) 0)) ∧
          l'.memoryUsage = l.memoryUsage - released)) := by
  unfold applySnapshot at ha
  split at ha
  · cases ha
  rename_i hnew
  dsimp only at ha
  split at ha
  · rename_i hpast
    simp only [Except.ok.injEq, Prod.mk.injEq] at ha
    obtain ⟨rfl, rfl, rfl⟩ := ha
    refine ⟨Nat.lt_of_not_le hnew, rfl, ?_, rfl, ?_, .inl ⟨hpast, ?_, ?_, ?_, rfl⟩⟩ <;> split_ifs <;> rfl
  · rename_i hin
    simp only [Except.ok.injEq, Prod.mk.injEq] at ha
    obtain ⟨rfl, rfl, rfl⟩ := ha
    refine ⟨Nat.lt_of_not_le hnew, rfl, ?_, rfl, ?_, .inr ⟨Nat.le_of_not_lt hin, ?_, ?_, rfl, ?_⟩⟩ <;>
      split_ifs <;> rfl

/-- Stepping the loop down by one entry adds that entry's memory. -/
private theorem rangeMemoryUsage_drop_pred (m : Nat) (es : List LogEntry) {n j : Nat} (hn : n ≤ es.length)
    (hj : 0 < j) (hjn : j ≤ n) :
    rangeMemoryUsage m ((es.take n).drop (j - 1)) =
      rangeMemoryUsage m ((es.take n).drop j) + ((es[j - 1]?).map (memoryUsageOf m)).getD 0 := by
  have hlt : j - 1 < (es.take n).length := by
    rw [List.length_take]
    omega
  rw [List.drop_eq_getElem_cons hlt, rangeMemoryUsage_cons, List.getElem_take,
    List.getElem?_eq_getElem (by omega), Option.map_some, Option.getD_some, show j - 1 + 1 = j by omega]
  omega

/-- The loop of `apply_snapshot` only counts down. -/
theorem trailingLoop_le (es : List LogEntry) (m tb : Nat) :
    ∀ fuel r0 bytes, trailingLoop es m tb fuel r0 bytes ≤ r0 := by
  intro fuel
  induction fuel with
  | zero => intro r0 bytes; exact le_rfl
  | succ fuel ih =>
    intro r0 bytes
    rw [trailingLoop]
    split
    · exact le_rfl
    · dsimp only
      split
      · exact le_rfl
      · exact (ih _ _).trans (Nat.sub_le r0 1)

/-- The loop of `apply_snapshot` counts down from `r0` while the kept entries fit in `tb`: it stops at `r` with the
entries from `r` on within the bound, and because it ran out of entries, of steps, or of bytes. -/
theorem trailingLoop_spec (es : List LogEntry) (m tb n : Nat) (hn : n ≤ es.length) :
    ∀ fuel r0, r0 ≤ n → rangeMemoryUsage m ((es.take n).drop r0) ≤ tb →
      r0 ≤ trailingLoop es m tb fuel r0 (rangeMemoryUsage m ((es.take n).drop r0)) + fuel ∧
      rangeMemoryUsage m ((es.take n).drop (trailingLoop es m tb fuel r0
        (rangeMemoryUsage m ((es.take n).drop r0)))) ≤ tb ∧
      (trailingLoop es m tb fuel r0 (rangeMemoryUsage m ((es.take n).drop r0)) = 0 ∨
        r0 = trailingLoop es m tb fuel r0 (rangeMemoryUsage m ((es.take n).drop r0)) + fuel ∨
        tb < rangeMemoryUsage m ((es.take n).drop
          (trailingLoop es m tb fuel r0 (rangeMemoryUsage m ((es.take n).drop r0)) - 1))) := by
  intro fuel
  induction fuel with
  | zero =>
    intro r0 _ hfit
    exact ⟨le_rfl, hfit, .inr (.inl rfl)⟩
  | succ fuel ih =>
    intro r0 hr0 hfit
    rw [trailingLoop]
    split
    · rename_i hzero
      exact ⟨by omega, hfit, .inl hzero⟩
    · rename_i hzero
      dsimp only
      -- One more entry is counted: the bytes become those of the entries from `r0 - 1` on.
      rw [← rangeMemoryUsage_drop_pred m es hn (Nat.pos_of_ne_zero hzero) hr0]
      split
      · rename_i hover
        exact ⟨by omega, hfit, .inr (.inr hover)⟩
      · rename_i hfit'
        obtain ⟨h2, h3, h4⟩ := ih (r0 - 1) (by omega) (Nat.le_of_not_lt hfit')
        refine ⟨by omega, h3, ?_⟩
        rcases h4 with h4 | h4 | h4
        · exact .inl h4
        · exact .inr (.inl (by omega))
        · exact .inr (.inr h4)

/-- From `n` entries, the loop keeps the greatest number of them, at most `te`, whose memory fits in `tb`. -/
theorem trailingLoop_isGreatest (es : List LogEntry) (m tb te n : Nat) (hn : n ≤ es.length) :
    IsGreatest {k | k ≤ te ∧ k ≤ n ∧ rangeMemoryUsage m ((es.take n).drop (n - k)) ≤ tb}
      (n - trailingLoop es m tb te n 0) := by
  have hnone : rangeMemoryUsage m ((es.take n).drop n) = 0 := by
    rw [List.drop_eq_nil_of_le (by rw [List.length_take]; omega), rangeMemoryUsage_nil]
  have hle := trailingLoop_le es m tb te n 0
  have hspec := trailingLoop_spec es m tb n hn te n le_rfl (by omega)
  rw [hnone] at hspec
  obtain ⟨hfuel, hfit, hstop⟩ := hspec
  refine ⟨⟨by omega, by omega, by rwa [Nat.sub_sub_self hle]⟩, fun k hk => ?_⟩
  obtain ⟨hkte, hkn, hkfit⟩ := hk
  by_contra hgt
  -- Keeping `k` entries would have kept the entry at which the loop stopped.
  rcases hstop with h0 | h0 | h0
  · omega
  · omega
  · have := rangeMemoryUsage_drop_anti m (es.take n)
      (show n - k ≤ trailingLoop es m tb te n 0 - 1 by omega)
    omega

/-- The log ends at the snapshot's index or where it ended before, whichever is later. -/
theorem WellFormed.lastIdx_applySnapshot {l l' : Log} {snp : SnapshotDescriptor} {te tb released newFirst : Nat}
    (h : l.WellFormed) (ha : l.applySnapshot snp te tb = .ok (l', released, newFirst)) :
    l'.lastIdx = max l.lastIdx snp.idx := by
  obtain ⟨-, -, -, -, -, hpast | hin⟩ := applySnapshot_cases ha
  · obtain ⟨hlast, hent, hfirst, -, -⟩ := hpast
    have hlast' : l'.lastIdx = snp.idx := by simp [lastIdx, hent, hfirst]
    omega
  · obtain ⟨hle, hent, hfirst, -, -⟩ := hin
    -- The loop removes at most the entries up to the snapshot's index.
    have hr := trailingLoop_le l.entries l.maxCommandSize tb te (l.entries.length - (l.lastIdx - snp.idx)) 0
    have hlastEq : l.lastIdx = l.entries.length + l.firstIdx - 1 := rfl
    have hpos := h.consecutive.firstIdx_pos
    rw [show l'.lastIdx = l'.entries.length + l'.firstIdx - 1 from rfl, hent, hfirst, List.length_drop]
    omega

theorem WellFormed.applySnapshot {l l' : Log} {snp : SnapshotDescriptor} {te tb released newFirst : Nat}
    (h : l.WellFormed) (ha : l.applySnapshot snp te tb = .ok (l', released, newFirst)) : l'.WellFormed := by
  have hcons := h.consecutive.applySnapshot ha
  have hfi := h.firstIdx_le
  obtain ⟨hnew, hsnp, hmcs, -, hstable, hpast | hin⟩ := applySnapshot_cases ha
  · obtain ⟨hlast, hent, hfirst, hmem, -⟩ := hpast
    have hlast' : l'.lastIdx = snp.idx := by simp [lastIdx, hent, hfirst]
    have hst := h.stableIdx_le
    refine ⟨hcons, by rw [hfirst, hsnp], by rw [hlast', hsnp], by rw [hlast', hstable]; omega, by simp [hmem, hent]⟩
  · obtain ⟨hle, hent, hfirst, hrel, hmem⟩ := hin
    -- The loop starts from the entries up to the snapshot's index and removes at most them.
    have hr := trailingLoop_le l.entries l.maxCommandSize tb te (l.entries.length - (l.lastIdx - snp.idx)) 0
    have hlastEq : l.lastIdx = l.entries.length + l.firstIdx - 1 := rfl
    have hpos := h.consecutive.firstIdx_pos
    have hst := h.stableIdx_le
    have hlast' : l'.lastIdx = l.lastIdx := by
      rw [show l'.lastIdx = l'.entries.length + l'.firstIdx - 1 from rfl, hent, hfirst, List.length_drop]
      omega
    refine ⟨hcons, by rw [hfirst, hsnp]; omega, by rw [hlast', hsnp]; exact hle,
      by rw [hlast', hstable]; omega, ?_⟩
    have hsplit := rangeMemoryUsage_take_add_drop l.maxCommandSize
      (trailingLoop l.entries l.maxCommandSize tb te (l.entries.length - (l.lastIdx - snp.idx)) 0) l.entries
    rw [hmem, hrel, hmcs, hent, h.memoryUsage_eq]
    omega

/-- What `apply_snapshot` keeps: every entry past the snapshot, and of those it covers the longest suffix within
`max_trailing_entries` entries and `max_trailing_bytes` bytes (none if the snapshot is past the log's end). It
returns the memory it released and the new first index. -/
theorem WellFormed.applySnapshot_spec {l l' : Log} {snp : SnapshotDescriptor} {te tb released newFirst : Nat}
    (h : l.WellFormed) (ha : l.applySnapshot snp te tb = .ok (l', released, newFirst)) :
    newFirst = l'.firstIdx ∧ released + l'.memoryUsage = l.memoryUsage ∧
      (l.lastIdx < snp.idx → l'.entries = []) ∧
      (snp.idx ≤ l.lastIdx → ∃ k,
        IsGreatest {k | k ≤ te ∧ k ≤ (l.entries.filter (·.idx ≤ snp.idx)).length ∧
          rangeMemoryUsage l.maxCommandSize ((l.entries.filter (·.idx ≤ snp.idx)).rtake k) ≤ tb} k ∧
        l'.entries = (l.entries.filter (·.idx ≤ snp.idx)).rtake k ++ l.entries.filter (snp.idx < ·.idx)) := by
  obtain ⟨-, -, -, hfst, -, hpast | hin⟩ := applySnapshot_cases ha
  · obtain ⟨hlast, hent, -, hmem, hrel⟩ := hpast
    exact ⟨hfst, by rw [hmem, hrel, Nat.add_zero], fun _ => hent, fun hle => absurd hle (Nat.not_le.2 hlast)⟩
  · obtain ⟨hle, hent, -, hrel, hmem⟩ := hin
    -- The entries the snapshot covers are the first `n`, those the loop starts from.
    have hpos := h.consecutive.firstIdx_pos
    have hlastEq : l.lastIdx = l.entries.length + l.firstIdx - 1 := rfl
    have hn : snp.idx + 1 - l.firstIdx = l.entries.length - (l.lastIdx - snp.idx) := by omega
    obtain ⟨hlo, hhi⟩ := filter_idx_of_indexed h.consecutive.idx_eq snp.idx
    rw [hn] at hlo hhi
    have hnlen : l.entries.length - (l.lastIdx - snp.idx) ≤ l.entries.length := Nat.sub_le _ _
    have hr := trailingLoop_le l.entries l.maxCommandSize tb te (l.entries.length - (l.lastIdx - snp.idx)) 0
    have hsplit := rangeMemoryUsage_take_add_drop l.maxCommandSize
      (trailingLoop l.entries l.maxCommandSize tb te (l.entries.length - (l.lastIdx - snp.idx)) 0) l.entries
    refine ⟨hfst, by rw [hmem, hrel]; rw [h.memoryUsage_eq]; omega, fun hlt => absurd hle (Nat.not_le.2 hlt),
      fun _ => ⟨l.entries.length - (l.lastIdx - snp.idx) -
        trailingLoop l.entries l.maxCommandSize tb te (l.entries.length - (l.lastIdx - snp.idx)) 0, ?_, ?_⟩⟩
    · rw [hlo, List.length_take, Nat.min_eq_left hnlen]
      simp only [List.rtake, List.length_take, Nat.min_eq_left hnlen]
      exact trailingLoop_isGreatest l.entries l.maxCommandSize tb te _ hnlen
    · rw [hent, hlo, hhi, List.rtake, List.length_take, Nat.min_eq_left hnlen, Nat.sub_sub_self hr,
        ← List.drop_append_of_le_length (by rw [List.length_take]; omega), List.take_append_drop]

/-- A strictly newer snapshot is always applied. -/
theorem applySnapshot_isOk {l : Log} {snp : SnapshotDescriptor} (te tb : Nat) (h : l.snapshot.idx < snp.idx) :
    ∃ r, l.applySnapshot snp te tb = .ok r := by
  unfold applySnapshot
  rw [if_neg (Nat.not_le.2 h)]
  dsimp only
  split <;> exact ⟨_, rfl⟩

/-! ## Runs of the log -/

/-- The operations a log goes through: appending the entry of the next index, and the calls of `maybe_append`,
`stable_to` and `apply_snapshot` that succeed. -/
inductive Step : Log → Log → Prop
  | emplaceBack {l : Log} (e : LogEntry) (he : e.idx = l.nextIdx) : Step l (l.emplaceBack e)
  | maybeAppend {l l' : Log} {es : List LogEntry} {i : Nat} (hm : l.maybeAppend es = .ok (l', i)) : Step l l'
  | stableTo {l l' : Log} {idx : Nat} (hs : l.stableTo idx = .ok l') : Step l l'
  | applySnapshot {l l' : Log} {snp : SnapshotDescriptor} {te tb released newFirst : Nat}
      (ha : l.applySnapshot snp te tb = .ok (l', released, newFirst)) : Step l l'

theorem WellFormed.step {l l' : Log} (h : l.WellFormed) (hs : Step l l') : l'.WellFormed := by
  cases hs with
  | emplaceBack e he => exact h.emplaceBack he
  | maybeAppend hm => exact h.maybeAppend hm
  | stableTo hs => exact h.stableTo hs
  | applySnapshot ha => exact h.applySnapshot ha

theorem WellFormed.run {l l' : Log} (h : l.WellFormed) (hr : Relation.ReflTransGen Step l l') : l'.WellFormed := by
  induction hr with
  | refl => exact h
  | tail _ hs ih => exact ih.step hs

/-- Every log reachable from one built of entries indexed `i, i + 1, …` up to at least the snapshot's index is
well formed, and applies every newer snapshot as `WellFormed.applySnapshot_spec` says. -/
theorem reachable_invariant (snp : SnapshotDescriptor) (es : List LogEntry) (mcs : Nat) {l0 l : Log}
    (hidx : ∃ i, es.map (·.idx) = List.range' i es.length ∧ snp.idx + 1 ≤ i + es.length)
    (h0 : Log.mk' snp es mcs = .ok l0) (hr : Relation.ReflTransGen Step l0 l) :
    l.Consecutive ∧ 1 ≤ l.firstIdx ∧ l.firstIdx ≤ l.snapshot.idx + 1 ∧ l.stableIdx ≤ l.lastIdx ∧
      l.lastTerm = (l.entries.getLast?.map (·.term)).getD l.snapshot.term ∧
      (∀ i, (l.termFor i).isSome ↔ l.firstIdx ≤ i ∧ i ≤ l.lastIdx ∨ i = l.snapshot.idx) ∧
      l.memoryUsage = rangeMemoryUsage l.maxCommandSize l.entries ∧
      ∀ (snp' : SnapshotDescriptor) (te tb : Nat), l.snapshot.idx < snp'.idx →
        ∃ l' released newFirst, l.applySnapshot snp' te tb = .ok (l', released, newFirst) ∧
          newFirst = l'.firstIdx ∧ released + l'.memoryUsage = l.memoryUsage ∧
          (l.lastIdx < snp'.idx → l'.entries = []) ∧
          (snp'.idx ≤ l.lastIdx → ∃ k,
            IsGreatest {k | k ≤ te ∧ k ≤ (l.entries.filter (·.idx ≤ snp'.idx)).length ∧
              rangeMemoryUsage l.maxCommandSize ((l.entries.filter (·.idx ≤ snp'.idx)).rtake k) ≤ tb} k ∧
            l'.entries = (l.entries.filter (·.idx ≤ snp'.idx)).rtake k ++ l.entries.filter (snp'.idx < ·.idx)) := by
  have h := (WellFormed.mk' hidx h0).run hr
  refine ⟨h.consecutive, h.consecutive.firstIdx_pos, h.firstIdx_le, h.stableIdx_le, lastTerm_eq l,
    h.termFor_isSome_iff, h.memoryUsage_eq, fun snp' te tb hnew => ?_⟩
  obtain ⟨⟨l', released, newFirst⟩, ha⟩ := applySnapshot_isOk te tb hnew
  exact ⟨l', released, newFirst, ha, h.applySnapshot_spec ha⟩

/-- A log of the entries `2, 3` over the snapshot at `2`, with the entry `4` appended: its terms are known exactly
from `2` to `4`. -/
theorem reachable_invariant_emplaced :
    ∃ l0, Log.mk' { idx := 2, term := 1, config := { current := [⟨1, true⟩] } }
        [⟨1, 2, .dummy⟩, ⟨1, 3, .dummy⟩] 64 = .ok l0 ∧
      ∀ i, ((l0.emplaceBack ⟨1, 4, .dummy⟩).termFor i).isSome ↔
        (l0.emplaceBack ⟨1, 4, .dummy⟩).firstIdx ≤ i ∧ i ≤ (l0.emplaceBack ⟨1, 4, .dummy⟩).lastIdx ∨
          i = (l0.emplaceBack ⟨1, 4, .dummy⟩).snapshot.idx :=
  ⟨_, rfl, (reachable_invariant { idx := 2, term := 1, config := { current := [⟨1, true⟩] } }
    [⟨1, 2, .dummy⟩, ⟨1, 3, .dummy⟩] 64 ⟨2, rfl, by decide⟩ rfl
    (.single (.emplaceBack ⟨1, 4, .dummy⟩ rfl))).2.2.2.2.2.1⟩

/-- The constructor checks neither that its entries reach the snapshot nor that they are consecutive: entries
`5, 6, 7` under a snapshot at `10` leave no term at the snapshot's index, and entries `5, 9` put the entry `9`
where the index `6` is looked up. -/
theorem constructor_breaks_invariant :
    (∃ l, Log.mk' { idx := 10, term := 3, config := { current := [⟨1, true⟩] } }
        [⟨1, 5, .dummy⟩, ⟨1, 6, .dummy⟩, ⟨1, 7, .dummy⟩] 64 = .ok l ∧ l.termFor 10 = none) ∧
      ∃ l, Log.mk' { idx := 10, term := 3, config := { current := [⟨1, true⟩] } }
        [⟨1, 5, .dummy⟩, ⟨1, 9, .dummy⟩] 64 = .ok l ∧ l.getEntry 6 = some ⟨1, 9, .dummy⟩ :=
  ⟨⟨_, rfl, rfl⟩, ⟨_, rfl, rfl⟩⟩

end Log

end Scylla.Raft
