import Scylla.Lib.StateExcept
import Scylla.Raft.Basic

/-!
# The Raft log

`raft/log.cc`: the in-memory log of a Raft server.  It starts after a snapshot, holds the entries
`first_idx, first_idx + 1, …` and remembers the indexes of the last two configuration entries, so that the
configuration in force never needs a scan of the log.

A failed `SCYLLA_ASSERT` is the error `RaftError.assertion`.  The source does not check an index past the last
entry; `get_entry` and `term_for` answer `none` there, and a caller that dereferences the entry, as `maybe_commit`
does, fails with `RaftError.assertion`.
-/

namespace Scylla.Raft

/-- `raft::log`. -/
structure Log where
  snapshot : SnapshotDescriptor
  /-- `_log`: the entries with indexes `firstIdx, firstIdx + 1, …`. -/
  entries : List LogEntry
  firstIdx : Nat
  stableIdx : Nat
  /-- `_last_conf_idx`: the index of the last configuration entry above the snapshot, `0` if none. -/
  lastConf : Nat := 0
  /-- `_prev_conf_idx`: the index of the configuration entry before `lastConf`, `0` if none is kept. -/
  prevConf : Nat := 0
  /-- `_memory_usage`: the memory charged for the entries held, by `memory_usage_of`. -/
  memoryUsage : Nat
  maxCommandSize : Nat
  deriving DecidableEq, Repr

namespace Log

/-- `log::last_idx`. -/
def lastIdx (l : Log) : Nat := l.entries.length + l.firstIdx - 1

/-- `log::next_idx`. -/
def nextIdx (l : Log) : Nat := l.lastIdx + 1

/-- `log::get_entry` and `log::operator[]`: the entry with index `i`. -/
def getEntry (l : Log) (i : Nat) : Option LogEntry :=
  if l.firstIdx ≤ i then l.entries[i - l.firstIdx]? else none

/-- `log::last_term`. -/
def lastTerm (l : Log) : Nat :=
  match l.entries.getLast? with
  | some e => e.term
  | none => l.snapshot.term

/-- `log::last_conf_idx`: the index of the configuration in force, the snapshot's if no entry holds one. -/
def lastConfIdx (l : Log) : Nat := if l.lastConf ≠ 0 then l.lastConf else l.snapshot.idx

/-- `log::memory_usage_of`: commands are charged with the entry overhead when they fit under
`max_command_size`; configurations and dummies cost nothing. -/
def memoryUsageOf (maxCommandSize : Nat) (e : LogEntry) : Nat :=
  match e.data with
  | .command c =>
    if maxCommandSize > sizeofLogEntry ∧ c.length < maxCommandSize - sizeofLogEntry then c.length + sizeofLogEntry
    else c.length
  | _ => 0

/-- `log::range_memory_usage`. -/
def rangeMemoryUsage (maxCommandSize : Nat) (es : List LogEntry) : Nat :=
  (es.map (memoryUsageOf maxCommandSize)).sum

/-- `log::emplace_back`. -/
def emplaceBack (l : Log) (e : LogEntry) : Log :=
  let l' := { l with entries := l.entries ++ [e], memoryUsage := l.memoryUsage + memoryUsageOf l.maxCommandSize e }
  match e.data with
  | .configuration _ => { l' with prevConf := l.lastConf, lastConf := l'.lastIdx }
  | _ => l'

/-- `log::is_up_to_date` (3.6.1 Election restriction). -/
def isUpToDate (l : Log) (idx : Nat) (term : Nat) : Bool :=
  term > l.lastTerm || (term == l.lastTerm && idx ≥ l.lastIdx)

/-- `log::stable_to`. -/
def stableTo (l : Log) (idx : Nat) : Except RaftError Log :=
  if idx ≤ l.lastIdx then .ok { l with stableIdx := idx } else .error .assertion

/-- `log::truncate_uncommitted`: drop the entries from `idx` on, and roll the configuration back if the last
configuration entry was dropped. -/
def truncateUncommitted (l : Log) (idx : Nat) : Except RaftError Log :=
  if idx < l.firstIdx then .error .assertion
  else
    let l1 := { l with entries := l.entries.take (idx - l.firstIdx),
                       memoryUsage := l.memoryUsage - rangeMemoryUsage l.maxCommandSize
                         (l.entries.drop (idx - l.firstIdx)) }
    let l2 := { l1 with stableIdx := min l.stableIdx l1.lastIdx }
    if l2.lastConf > l2.lastIdx then
      -- No two uncommitted configuration changes are in progress, so nothing older is left to restore.
      if l2.prevConf < l2.lastConf then .ok { l2 with lastConf := l2.prevConf, prevConf := 0 }
      else .error .assertion
    else .ok l2

/-- The loop of `log::init_last_conf_idx`, over the entries from the last one down, stopping at the snapshot. -/
def initLastConfIdxLoop (snapIdx : Nat) : List LogEntry → Nat × Nat → Nat × Nat
  | [], acc => acc
  | e :: es, (last, prev) =>
    if e.idx = snapIdx then (last, prev)
    else match e.data with
      | .configuration _ => if last = 0 then initLastConfIdxLoop snapIdx es (e.idx, prev) else (last, e.idx)
      | _ => initLastConfIdxLoop snapIdx es (last, prev)

/-- The constructor `log::log(snapshot, entries, max_command_size)`. -/
def mk' (snp : SnapshotDescriptor) (es : List LogEntry) (maxCommandSize : Nat) : Except RaftError Log :=
  let firstIdx := match es.head? with
    | none => snp.idx + 1
    | some e => e.idx
  if es.isEmpty = false ∧ firstIdx > snp.idx + 1 then .error .assertion
  else if firstIdx = 0 then .error .assertion
  else
    let (last, prev) := initLastConfIdxLoop snp.idx es.reverse (0, 0)
    .ok { snapshot := snp, entries := es, firstIdx, stableIdx := es.length + firstIdx - 1,
          lastConf := last, prevConf := prev, memoryUsage := rangeMemoryUsage maxCommandSize es, maxCommandSize }

/-- `log::match_term`: whether the log holds an entry `idx` of term `term`, and the term it holds instead. -/
def matchTerm (l : Log) (idx : Nat) (term : Nat) : Bool × Nat :=
  if idx = 0 then (true, 0)
  -- An index inside the snapshot must match by the log matching property.
  else if idx < l.snapshot.idx then (true, l.lastTerm)
  else
    let myTerm? : Option Nat :=
      if idx = l.snapshot.idx then some l.snapshot.term else (l.getEntry idx).map (·.term)
    match myTerm? with
    -- A gap between the follower's log and the leader's.
    | none => (false, 0)
    | some myTerm => if myTerm = term then (true, 0) else (false, myTerm)

/-- `log::term_for`.  Past the last index the source reads `_log` out of range, which is undefined; the model
answers `none` there. -/
def termFor (l : Log) (idx : Nat) : Option Nat :=
  if !l.entries.isEmpty && l.firstIdx ≤ idx then (l.getEntry idx).map (·.term)
  else if idx = l.snapshot.idx then some l.snapshot.term
  else none

/-- `log::get_configuration`: the configuration of the last configuration entry, or the snapshot's.  The entry
at `lastConf` is a configuration entry whenever `lastConf ≠ 0`, so the fallback is never taken there. -/
def getConfiguration (l : Log) : Configuration :=
  if l.lastConf ≠ 0 then ((l.getEntry l.lastConf).bind (·.data.config?)).getD l.snapshot.config
  else l.snapshot.config

/-- The scan of `log::last_conf_for` from `idx` down to the first index above the snapshot. -/
def lastConfForLoop (l : Log) : Nat → Nat → Configuration
  | 0, _ => l.snapshot.config
  | n + 1, idx =>
    match (l.getEntry idx).bind (·.data.config?) with
    | some cfg => cfg
    | none => lastConfForLoop l n (idx - 1)

/-- `log::last_conf_for`: the configuration in force at index `idx`. -/
def lastConfFor (l : Log) (idx : Nat) : Except RaftError Configuration :=
  if l.lastIdx < idx ∨ idx < l.snapshot.idx then .error .assertion
  else if l.lastConf = 0 then
    if l.prevConf ≠ 0 then .error .assertion else .ok l.snapshot.config
  else if idx ≥ l.lastConf then .ok ((l.getEntry l.lastConf).bind (·.data.config?) |>.getD l.snapshot.config)
  -- No configuration entry between the snapshot and the last one.
  else if l.prevConf = 0 then .ok l.snapshot.config
  else if idx ≥ l.prevConf then .ok ((l.getEntry l.prevConf).bind (·.data.config?) |>.getD l.snapshot.config)
  else .ok (l.lastConfForLoop (idx - l.snapshot.idx) idx)

/-- The loop of `log::maybe_append` over the received entries. -/
def maybeAppendLoop : Log → List LogEntry → Except RaftError Log
  | l, [] => .ok l
  | l, e :: es => do
    if e.idx ≤ l.lastIdx then
      -- An entry below the log start is already part of the snapshot.
      if e.idx < l.firstIdx then return ← maybeAppendLoop l es
      if some e.term = (l.getEntry e.idx).map (·.term) then return ← maybeAppendLoop l es
      -- A conflicting entry: delete it and all that follow it (3.5).
      if e.idx ≤ l.snapshot.idx then throw .assertion
      let l ← l.truncateUncommitted e.idx
      if e.idx ≠ l.nextIdx then throw .assertion
      maybeAppendLoop (l.emplaceBack e) es
    else
      if e.idx ≠ l.nextIdx then throw .assertion
      maybeAppendLoop (l.emplaceBack e) es

/-- `log::maybe_append`: append the entries the log does not hold yet, truncating at the first conflict; returns
the index of the last received entry. -/
def maybeAppend (l : Log) (es : List LogEntry) : Except RaftError (Log × Nat) :=
  match es.getLast? with
  | none => .error .assertion
  | some e => do return (← maybeAppendLoop l es, e.idx)

/-- `log::get_prev_configuration`: the configuration before the last one, if the log still knows it. -/
def getPrevConfiguration (l : Log) : Option Configuration :=
  if l.prevConf ≠ 0 then (l.getEntry l.prevConf).bind (·.data.config?)
  else if l.lastConf > l.snapshot.idx then some l.snapshot.config
  -- Only the last configuration, the snapshot's, is known.
  else none

/-- The loop of `log::apply_snapshot` that keeps up to `max_trailing_entries` entries below the snapshot index
whose memory stays within `max_trailing_bytes`; returns how many entries to remove. -/
def trailingLoop (es : List LogEntry) (maxCommandSize maxTrailingBytes : Nat) :
    Nat → Nat → Nat → Nat
  | 0, toRemove, _ => toRemove
  | n + 1, toRemove, bytes =>
    if toRemove = 0 then toRemove
    else
      let bytes' := bytes + ((es[toRemove - 1]?).map (memoryUsageOf maxCommandSize)).getD 0
      if bytes' > maxTrailingBytes then toRemove
      else trailingLoop es maxCommandSize maxTrailingBytes n (toRemove - 1) bytes'

/-- `log::apply_snapshot`: replace the prefix of the log by the snapshot, keeping some trailing entries; returns
the memory released and the new first index. -/
def applySnapshot (l : Log) (snp : SnapshotDescriptor) (maxTrailingEntries maxTrailingBytes : Nat) :
    Except RaftError (Log × Nat × Nat) :=
  if snp.idx ≤ l.snapshot.idx then .error .assertion
  else
    let idx := snp.idx
    -- Past the end of the log every entry goes, whatever the trailing arguments say, or there would be a gap.
    let (l1, released) : Log × Nat :=
      if idx > l.lastIdx then ({ l with entries := [], firstIdx := idx + 1, memoryUsage := 0 }, l.memoryUsage)
      else
        let toRemove := trailingLoop l.entries l.maxCommandSize maxTrailingBytes maxTrailingEntries
          (l.entries.length - (l.lastIdx - idx)) 0
        let released := rangeMemoryUsage l.maxCommandSize (l.entries.take toRemove)
        ({ l with entries := l.entries.drop toRemove, firstIdx := l.firstIdx + toRemove,
                  memoryUsage := l.memoryUsage - released }, released)
    let l2 := { l1 with stableIdx := max idx l1.stableIdx }
    let l3 :=
      if idx ≥ l2.prevConf then
        if idx ≥ l2.lastConf then { l2 with prevConf := 0, lastConf := 0 } else { l2 with prevConf := 0 }
      else l2
    .ok ({ l3 with snapshot := snp }, released, l3.firstIdx)

/-! ### What each operation leaves alone -/

@[simp] theorem emplaceBack_snapshot (l : Log) (e : LogEntry) : (l.emplaceBack e).snapshot = l.snapshot := by
  unfold emplaceBack; split <;> rfl

@[simp] theorem emplaceBack_firstIdx (l : Log) (e : LogEntry) : (l.emplaceBack e).firstIdx = l.firstIdx := by
  unfold emplaceBack; split <;> rfl

@[simp] theorem emplaceBack_entries (l : Log) (e : LogEntry) :
    (l.emplaceBack e).entries = l.entries ++ [e] := by
  unfold emplaceBack; split <;> rfl

@[simp] theorem emplaceBack_stableIdx (l : Log) (e : LogEntry) :
    (l.emplaceBack e).stableIdx = l.stableIdx := by
  unfold emplaceBack; split <;> rfl

theorem emplaceBack_lastIdx (l : Log) (e : LogEntry) (h : 0 < l.firstIdx) :
    (l.emplaceBack e).lastIdx = l.lastIdx + 1 := by
  simp only [lastIdx, emplaceBack_entries, emplaceBack_firstIdx, List.length_append, List.length_singleton]
  omega

theorem emplaceBack_lastConf {l : Log} {e : LogEntry} (he : e.data.config? = none) :
    (l.emplaceBack e).lastConf = l.lastConf := by
  unfold emplaceBack
  cases hd : e.data with
  | configuration cfg => rw [hd] at he; cases he
  | command c => rfl
  | dummy => rfl

theorem getEntry_emplaceBack_of_some {l : Log} {e x : LogEntry} {i : Nat} (h : l.getEntry i = some x) :
    (l.emplaceBack e).getEntry i = some x := by
  unfold getEntry at h ⊢
  rw [emplaceBack_firstIdx, emplaceBack_entries]
  split at h
  · have hlt : i - l.firstIdx < l.entries.length := (List.getElem?_eq_some_iff.1 h).1
    rw [if_pos ‹_›, List.getElem?_append_left hlt]
    exact h
  · cases h

theorem getEntry_emplaceBack_of_none {l : Log} {e : LogEntry} {i : Nat} (h : l.getEntry i = none) :
    (l.emplaceBack e).getEntry i = none ∨ (l.emplaceBack e).getEntry i = some e := by
  unfold getEntry at h ⊢
  rw [emplaceBack_firstIdx, emplaceBack_entries]
  split
  · rw [if_pos ‹_›, List.getElem?_eq_none_iff] at h
    rw [List.getElem?_append_right h]
    -- Past the old end only the appended entry can be found.
    cases hk : i - l.firstIdx - l.entries.length with
    | zero => exact .inr rfl
    | succ k => exact .inl rfl
  · exact .inl rfl

/-- An entry that holds no configuration leaves the configuration in force as it is. -/
theorem getConfiguration_emplaceBack {l : Log} {e : LogEntry} (he : e.data.config? = none) :
    (l.emplaceBack e).getConfiguration = l.getConfiguration := by
  unfold getConfiguration
  rw [emplaceBack_lastConf he, emplaceBack_snapshot]
  split
  · cases hx : l.getEntry l.lastConf with
    | some x => rw [getEntry_emplaceBack_of_some hx]
    | none =>
      rcases getEntry_emplaceBack_of_none (e := e) hx with h | h
      · rw [h]
      · rw [h, Option.bind_some, he]
        rfl
  · rfl

theorem lastConfIdx_emplaceBack {l : Log} {e : LogEntry} (he : e.data.config? = none) :
    (l.emplaceBack e).lastConfIdx = l.lastConfIdx := by
  unfold lastConfIdx
  rw [emplaceBack_lastConf he, emplaceBack_snapshot]

theorem stableTo_eq_ok {l l' : Log} {idx : Nat} (h : l.stableTo idx = .ok l') :
    l' = { l with stableIdx := idx } ∧ idx ≤ l.lastIdx := by
  unfold stableTo at h
  split at h
  · cases h; exact ⟨rfl, ‹_›⟩
  · cases h

theorem truncateUncommitted_snapshot {l l' : Log} {idx : Nat} (h : l.truncateUncommitted idx = .ok l') :
    l'.snapshot = l.snapshot ∧ l'.firstIdx = l.firstIdx := by
  unfold truncateUncommitted at h
  split at h
  · cases h
  · dsimp only at h
    split at h
    · split at h
      · cases h; exact ⟨rfl, rfl⟩
      · cases h
    · cases h; exact ⟨rfl, rfl⟩

theorem maybeAppendLoop_snapshot : ∀ {l l' : Log} {es : List LogEntry}, maybeAppendLoop l es = .ok l' →
    l'.snapshot = l.snapshot ∧ l'.firstIdx = l.firstIdx
  | l, l', [], h => by cases h; exact ⟨rfl, rfl⟩
  | l, l', e :: es, h => by
    simp only [maybeAppendLoop] at h
    split at h
    · split at h
      · exact maybeAppendLoop_snapshot h
      · split at h
        · exact maybeAppendLoop_snapshot h
        · split at h
          · cases h
          · cases ht : l.truncateUncommitted e.idx with
            | error => simp [ht] at h; cases h
            | ok l1 =>
              simp only [ht, bind, Except.bind] at h
              split at h
              · cases h
              · have h1 := truncateUncommitted_snapshot ht
                have h2 := maybeAppendLoop_snapshot h
                simp only [emplaceBack_snapshot, emplaceBack_firstIdx] at h2
                exact ⟨h2.1.trans h1.1, h2.2.trans h1.2⟩
    · split at h
      · cases h
      · have h2 := maybeAppendLoop_snapshot h
        simpa using h2

theorem maybeAppend_snapshot {l l' : Log} {es : List LogEntry} {i : Nat}
    (h : l.maybeAppend es = .ok (l', i)) : l'.snapshot = l.snapshot ∧ l'.firstIdx = l.firstIdx := by
  unfold maybeAppend at h
  split at h
  · cases h
  · cases hl : maybeAppendLoop l es with
    | error => simp [hl, bind, Except.bind] at h
    | ok l1 =>
      simp only [hl, bind, Except.bind, pure, Except.pure, Except.ok.injEq, Prod.mk.injEq] at h
      obtain ⟨rfl, -⟩ := h
      exact maybeAppendLoop_snapshot hl

theorem applySnapshot_snapshot {l l' : Log} {snp : SnapshotDescriptor} {te tb released newFirst : Nat}
    (ha : l.applySnapshot snp te tb = .ok (l', released, newFirst)) : l'.snapshot = snp := by
  unfold applySnapshot at ha
  split at ha
  · cases ha
  · dsimp only at ha
    split at ha <;>
    · simp only [Except.ok.injEq, Prod.mk.injEq] at ha
      obtain ⟨rfl, -, -⟩ := ha
      rfl

/-! ### Consecutive indexes -/

/-- The entries of the log carry the indexes of their places, from a positive first index on.  Every access
`_log[idx - _first_idx]` of the source relies on it. -/
structure Consecutive (l : Log) : Prop where
  firstIdx_pos : 0 < l.firstIdx
  idx_eq : ∀ {j : Nat} {e : LogEntry}, l.entries[j]? = some e → e.idx = l.firstIdx + j

/-- In a consecutive log, the entry found at an index carries that index. -/
theorem Consecutive.getEntry_idx {l : Log} (h : l.Consecutive) {i : Nat} {e : LogEntry}
    (he : l.getEntry i = some e) : e.idx = i := by
  unfold getEntry at he
  split at he
  · have := h.idx_eq he
    omega
  · cases he

/-- Only the entries and the first index matter. -/
theorem Consecutive.congr {l l' : Log} (h : l.Consecutive) (he : l'.entries = l.entries)
    (hf : l'.firstIdx = l.firstIdx) : l'.Consecutive where
  firstIdx_pos := hf ▸ h.firstIdx_pos
  idx_eq := by
    intro j e hj
    rw [he] at hj
    rw [hf]
    exact h.idx_eq hj

theorem Consecutive.emplaceBack {l : Log} {e : LogEntry} (h : l.Consecutive) (he : e.idx = l.nextIdx) :
    (l.emplaceBack e).Consecutive where
  firstIdx_pos := by
    rw [emplaceBack_firstIdx]
    exact h.firstIdx_pos
  idx_eq := by
    intro j x hx
    rw [emplaceBack_entries, List.getElem?_append] at hx
    rw [emplaceBack_firstIdx]
    split at hx
    · exact h.idx_eq hx
    · -- The new entry sits right after the old ones.
      have hpos := h.firstIdx_pos
      have hj : j - l.entries.length = 0 := by
        cases hk : j - l.entries.length with
        | zero => rfl
        | succ k => rw [hk] at hx; simp at hx
      rw [hj] at hx
      simp only [List.getElem?_singleton, if_pos, Option.some.injEq] at hx
      subst hx
      rw [he]
      unfold nextIdx lastIdx
      omega

theorem Consecutive.stableTo {l l' : Log} {idx : Nat} (h : l.Consecutive) (hs : l.stableTo idx = .ok l') :
    l'.Consecutive := by
  obtain ⟨rfl, -⟩ := stableTo_eq_ok hs
  exact h.congr rfl rfl

theorem Consecutive.truncateUncommitted {l l' : Log} {idx : Nat} (h : l.Consecutive)
    (ht : l.truncateUncommitted idx = .ok l') : l'.Consecutive := by
  -- Every outcome keeps a prefix of the entries and the first index.
  have hprefix : ∀ {l'' : Log}, l''.entries = l.entries.take (idx - l.firstIdx) → l''.firstIdx = l.firstIdx →
      l''.Consecutive := by
    intro l'' he hf
    refine ⟨hf ▸ h.firstIdx_pos, ?_⟩
    intro j e hj
    rw [he, List.getElem?_take] at hj
    rw [hf]
    split at hj
    · exact h.idx_eq hj
    · cases hj
  unfold Log.truncateUncommitted at ht
  split at ht
  · cases ht
  · dsimp only at ht
    split at ht
    · split at ht
      · cases ht
        exact hprefix rfl rfl
      · cases ht
    · cases ht
      exact hprefix rfl rfl

theorem Consecutive.maybeAppendLoop : ∀ {l l' : Log} {es : List LogEntry}, l.Consecutive →
    maybeAppendLoop l es = .ok l' → l'.Consecutive
  | l, l', [], h, hm => by
    cases hm
    exact h
  | l, l', e :: es, h, hm => by
    simp only [Log.maybeAppendLoop] at hm
    split at hm
    · split at hm
      · exact Consecutive.maybeAppendLoop h hm
      · split at hm
        · exact Consecutive.maybeAppendLoop h hm
        · split at hm
          · cases hm
          · cases ht : l.truncateUncommitted e.idx with
            | error => simp [ht] at hm; cases hm
            | ok l1 =>
              simp only [ht, bind, Except.bind] at hm
              split at hm
              · cases hm
              · -- After the truncation the conflicting entry goes right at the end.
                have h1 := h.truncateUncommitted ht
                exact Consecutive.maybeAppendLoop (h1.emplaceBack (by omega)) hm
    · split at hm
      · cases hm
      · exact Consecutive.maybeAppendLoop (h.emplaceBack (by omega)) hm

theorem Consecutive.maybeAppend {l l' : Log} {es : List LogEntry} {i : Nat} (h : l.Consecutive)
    (hm : l.maybeAppend es = .ok (l', i)) : l'.Consecutive := by
  unfold Log.maybeAppend at hm
  split at hm
  · cases hm
  · obtain ⟨l1, hl, hr⟩ := StateExcept.except_bind_eq_ok.1 hm
    cases hr
    exact h.maybeAppendLoop hl

theorem Consecutive.applySnapshot {l l' : Log} {snp : SnapshotDescriptor} {te tb released newFirst : Nat}
    (h : l.Consecutive) (ha : l.applySnapshot snp te tb = .ok (l', released, newFirst)) : l'.Consecutive := by
  unfold Log.applySnapshot at ha
  split at ha
  · cases ha
  · -- What stays is a suffix of the entries, or nothing, starting after the snapshot; the updates of the
    -- configuration indexes that follow touch neither.
    dsimp only at ha
    split at ha
    · simp only [Except.ok.injEq, Prod.mk.injEq] at ha
      obtain ⟨rfl, -, -⟩ := ha
      have hnil : ({ l with entries := [], firstIdx := snp.idx + 1 } : Log).Consecutive :=
        ⟨Nat.succ_pos _, fun hj => by simp at hj⟩
      refine hnil.congr ?_ ?_ <;> split_ifs <;> rfl
    · simp only [Except.ok.injEq, Prod.mk.injEq] at ha
      obtain ⟨rfl, -, -⟩ := ha
      have hdrop : ∀ n, ({ l with entries := l.entries.drop n, firstIdx := l.firstIdx + n } : Log).Consecutive := by
        intro n
        refine ⟨Nat.lt_add_right n h.firstIdx_pos, ?_⟩
        intro j e hj
        rw [List.getElem?_drop] at hj
        show e.idx = l.firstIdx + n + j
        rw [h.idx_eq hj]
        omega
      refine (hdrop (trailingLoop l.entries l.maxCommandSize tb te (l.entries.length - (l.lastIdx - snp.idx)) 0)).congr
        ?_ ?_ <;> split_ifs <;> rfl

/-! ### Terms and snapshots -/

theorem getEntry_eq_none_of_lastIdx_lt {l : Log} {i : Nat} (h : l.lastIdx < i) : l.getEntry i = none := by
  unfold getEntry
  split
  · unfold lastIdx at h
    exact List.getElem?_eq_none (by omega)
  · rfl

/-- Above the snapshot, the term of an index is the term of the entry the log holds there, if any. -/
theorem termFor_of_snapshot_lt {l : Log} {i : Nat} (h : l.snapshot.idx < i) :
    l.termFor i = (l.getEntry i).map (·.term) := by
  unfold termFor
  split
  · rfl
  · rename_i hno
    rw [if_neg (Nat.ne_of_gt h)]
    -- Without entries, or below the first one, the log holds nothing at `i`.
    have hnone : l.getEntry i = none := by
      unfold getEntry
      split
      · cases hl : l.entries with
        | nil => rfl
        | cons e es => simp_all
      · rfl
    rw [hnone]
    rfl

/-- `apply_snapshot` with no trailing entries, as a follower applies its leader's snapshot: nothing stays at or
below the snapshot, and every entry above it stays where it is, whatever term the log held at the snapshot's
index. -/
theorem applySnapshot_zero {l l' : Log} {snp : SnapshotDescriptor} {tb released newFirst : Nat}
    (ha : l.applySnapshot snp 0 tb = .ok (l', released, newFirst)) :
    l.snapshot.idx < snp.idx ∧ l'.snapshot = snp ∧ (l'.entries = [] ∨ snp.idx < l'.firstIdx) ∧
      ∀ i, snp.idx < i → l'.getEntry i = l.getEntry i := by
  have hsnp := applySnapshot_snapshot ha
  unfold applySnapshot at ha
  split at ha
  · cases ha
  rename_i hnew
  refine ⟨Nat.lt_of_not_le hnew, hsnp, ?_⟩
  dsimp only at ha
  split at ha
  · -- Past the end of the log nothing stays.
    rename_i hpast
    simp only [Except.ok.injEq, Prod.mk.injEq] at ha
    have hent : l'.entries = [] := by
      rw [← ha.1]
      split_ifs <;> rfl
    refine ⟨.inl hent, fun i hi => ?_⟩
    have hl : l.getEntry i = none := getEntry_eq_none_of_lastIdx_lt (by omega)
    rw [hl]
    unfold getEntry
    rw [hent]
    split <;> rfl
  · -- The entries up to the snapshot's index go: with no trailing entries the loop removes them all.
    rename_i hin
    simp only [Except.ok.injEq, Prod.mk.injEq] at ha
    have hent : l'.entries = l.entries.drop (l.entries.length - (l.lastIdx - snp.idx)) := by
      rw [← ha.1]
      split_ifs <;> rfl
    have hfirst : l'.firstIdx = l.firstIdx + (l.entries.length - (l.lastIdx - snp.idx)) := by
      rw [← ha.1]
      split_ifs <;> rfl
    unfold lastIdx at hent hfirst hin
    refine ⟨.inr (by omega), fun i hi => ?_⟩
    unfold getEntry
    rw [hent, hfirst]
    by_cases hle : l.firstIdx ≤ i
    · rw [if_pos (by omega), if_pos hle, List.getElem?_drop]
      congr 1
      omega
    · rw [if_neg (by omega), if_neg hle]

/-- After a follower applies its leader's snapshot, the log answers the snapshot's term at its index and keeps
every term above it. -/
theorem applySnapshot_zero_termFor {l l' : Log} {snp : SnapshotDescriptor} {tb released newFirst : Nat}
    (ha : l.applySnapshot snp 0 tb = .ok (l', released, newFirst)) :
    l'.termFor snp.idx = some snp.term ∧ ∀ i, snp.idx < i → l'.termFor i = l.termFor i := by
  obtain ⟨hold, hsnp, hfirst, hget⟩ := applySnapshot_zero ha
  refine ⟨?_, fun i hi => ?_⟩
  · -- No entry stays at the snapshot's index, so the snapshot answers.
    unfold termFor
    rw [if_neg, if_pos (by rw [hsnp]), hsnp]
    rcases hfirst with hnil | hlt
    · simp [hnil]
    · simp only [Bool.and_eq_true, decide_eq_true_eq, not_and]
      intro _
      omega
  · rw [termFor_of_snapshot_lt (hsnp ▸ hi), termFor_of_snapshot_lt (hold.trans hi), hget i hi]

end Log

end Scylla.Raft
