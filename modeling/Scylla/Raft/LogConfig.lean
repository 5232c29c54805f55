import Scylla.Raft.Log

/-!
# Configuration bookkeeping of the Raft log

`raft::log` keeps the indexes of the last two configuration entries above the snapshot (`lastConf`,
`prevConf`) so that `get_configuration`, `get_prev_configuration` and `last_conf_for` need no scan.
`raft/log.hh` documents `last_conf_for(idx)` as the last configuration entry at or below `idx`, and
`server.cc` stores it as the configuration of every snapshot it takes.

* `confInForce` is that documented answer, read off the entries;
* `lastConfFor_eq_confInForce` and `getPrevConfiguration_eq`: while the two indexes are the last two
  configuration entries above the snapshot (`ConfBook`), the log answers as documented;
* `ConfBook.emplaceBack`, `ConfBook.stableTo`: appending and marking stable keep the bookkeeping;
* `truncateUncommitted_forgets`: a truncation that drops the last configuration entry sets `prevConf` to
  `0`, and `last_conf_for` then answers the snapshot's configuration below the new last one, whatever
  configuration entries lie between.
-/

namespace Scylla.Raft

namespace Log

/-- The configuration held at index `i`, if the log holds a configuration entry there. -/
def configAt (l : Log) (i : Nat) : Option Configuration := (l.getEntry i).bind (·.data.config?)

/-- The configurations of the entries with an index in `(lo, hi]`, in index order. -/
def configsIn (l : Log) (lo hi : Nat) : List Configuration :=
  (List.range' (lo + 1) (hi - lo)).filterMap l.configAt

/-- The configuration in force at `idx`: the last configuration entry above the snapshot and at or below
`idx`, or the snapshot's configuration. -/
def confInForce (l : Log) (idx : Nat) : Configuration :=
  ((l.configsIn l.snapshot.idx idx).getLast?).getD l.snapshot.config

/-- Whether the entry with index `i` holds a configuration. -/
def isConfAt (l : Log) (i : Nat) : Bool := (l.configAt i).isSome

/-- `lastConf` and `prevConf` are the last two configuration entries above the snapshot (`0` where there is
none). -/
structure ConfBook (l : Log) : Prop where
  lastConf_zero : l.lastConf = 0 → ∀ i, l.snapshot.idx < i → l.isConfAt i = false
  lastConf_pos : l.lastConf ≠ 0 →
    l.snapshot.idx < l.lastConf ∧ l.isConfAt l.lastConf ∧ ∀ i, l.lastConf < i → l.isConfAt i = false
  prevConf_zero : l.prevConf = 0 → ∀ i, l.snapshot.idx < i → i < l.lastConf → l.isConfAt i = false
  prevConf_pos : l.prevConf ≠ 0 →
    l.snapshot.idx < l.prevConf ∧ l.prevConf < l.lastConf ∧ l.isConfAt l.prevConf ∧
      ∀ i, l.prevConf < i → i < l.lastConf → l.isConfAt i = false

variable {l : Log}

/-! ### The configuration in force -/

theorem configsIn_self (l : Log) (lo : Nat) : l.configsIn lo lo = [] := by
  simp [configsIn]

theorem configsIn_succ {lo hi : Nat} (h : lo ≤ hi) :
    l.configsIn lo (hi + 1) = l.configsIn lo hi ++ (l.configAt (hi + 1)).toList := by
  have hlen : hi + 1 - lo = (hi - lo) + 1 := by omega
  have hlast : lo + 1 + (hi - lo) = hi + 1 := by omega
  rw [configsIn, configsIn, hlen, List.range'_concat, Nat.one_mul, List.filterMap_append, hlast]
  simp only [List.filterMap_cons, List.filterMap_nil]
  cases l.configAt (hi + 1) <;> rfl

theorem confInForce_snapshot (l : Log) : l.confInForce l.snapshot.idx = l.snapshot.config := by
  simp [confInForce, configsIn_self]

/-- One index up, the configuration in force is the entry's configuration if it holds one. -/
theorem confInForce_succ {i : Nat} (h : l.snapshot.idx ≤ i) :
    l.confInForce (i + 1) = (l.configAt (i + 1)).getD (l.confInForce i) := by
  unfold confInForce
  rw [configsIn_succ h]
  cases l.configAt (i + 1) <;> simp

theorem confInForce_of_configAt {i : Nat} {c : Configuration} (h : l.snapshot.idx < i) (hc : l.configAt i = some c) :
    l.confInForce i = c := by
  obtain ⟨j, rfl⟩ : ∃ j, i = j + 1 := ⟨i - 1, by omega⟩
  rw [confInForce_succ (by omega), hc, Option.getD_some]

/-- Across indexes that hold no configuration the configuration in force stays. -/
theorem confInForce_eq_of_no_conf {j k : Nat} (hj : l.snapshot.idx ≤ j) (hjk : j ≤ k)
    (h : ∀ i, j < i → i ≤ k → l.isConfAt i = false) : l.confInForce k = l.confInForce j := by
  induction k, hjk using Nat.le_induction with
  | base => rfl
  | succ k hjk ih =>
    have hk : l.configAt (k + 1) = none := by
      simpa [isConfAt] using h (k + 1) (by omega) le_rfl
    rw [confInForce_succ (by omega), hk, Option.getD_none]
    exact ih fun i hi hik => h i hi (by omega)

/-- The scan of `last_conf_for` finds the configuration in force, with no bookkeeping needed. -/
theorem lastConfForLoop_eq : ∀ (n idx : Nat), idx = l.snapshot.idx + n →
    l.lastConfForLoop n idx = l.confInForce idx
  | 0, idx, h => by
    subst h
    rw [lastConfForLoop, Nat.add_zero, confInForce_snapshot]
  | n + 1, idx, h => by
    subst h
    have ih := lastConfForLoop_eq n (l.snapshot.idx + n) rfl
    rw [lastConfForLoop, show l.snapshot.idx + (n + 1) = (l.snapshot.idx + n) + 1 by omega,
      confInForce_succ (by omega), Nat.add_sub_cancel, ← ih]
    unfold configAt
    cases (l.getEntry (l.snapshot.idx + n + 1)).bind (·.data.config?) <;> rfl

/-! ### What the bookkeeping answers -/

theorem exists_configAt {i : Nat} (h : l.isConfAt i = true) : ∃ c, l.configAt i = some c :=
  Option.isSome_iff_exists.1 h

namespace ConfBook

variable (hb : l.ConfBook)
include hb

theorem prevConf_eq_zero (hl : l.lastConf = 0) : l.prevConf = 0 := by
  by_contra hp
  have := (hb.prevConf_pos hp).2.1
  omega

/-- The configuration of the last configuration entry, from the bookkeeping. -/
theorem confInForce_of_ge_lastConf {idx : Nat} (hl : l.lastConf ≠ 0) (hge : l.lastConf ≤ idx) :
    (l.configAt l.lastConf).getD l.snapshot.config = l.confInForce idx := by
  obtain ⟨hsl, hcl, habove⟩ := hb.lastConf_pos hl
  obtain ⟨c, hc⟩ := exists_configAt hcl
  rw [hc, Option.getD_some, confInForce_eq_of_no_conf hsl.le hge fun i hi _ => habove i hi,
    confInForce_of_configAt hsl hc]

theorem confInForce_of_ge_prevConf {idx : Nat} (hp : l.prevConf ≠ 0) (hge : l.prevConf ≤ idx)
    (hlt : idx < l.lastConf) :
    (l.configAt l.prevConf).getD l.snapshot.config = l.confInForce idx := by
  obtain ⟨hsp, -, hcp, hbetween⟩ := hb.prevConf_pos hp
  obtain ⟨c, hc⟩ := exists_configAt hcp
  rw [hc, Option.getD_some,
    confInForce_eq_of_no_conf hsp.le hge fun i hi hik => hbetween i hi (by omega),
    confInForce_of_configAt hsp hc]

theorem confInForce_of_lt_lastConf {idx : Nat} (hp : l.prevConf = 0) (hs : l.snapshot.idx ≤ idx)
    (hlt : idx < l.lastConf) : l.snapshot.config = l.confInForce idx := by
  rw [confInForce_eq_of_no_conf le_rfl hs fun i hi hik => hb.prevConf_zero hp i hi (by omega),
    confInForce_snapshot]

/-- `last_conf_for` answers the configuration in force. -/
theorem lastConfFor_eq {idx : Nat} (h₁ : l.snapshot.idx ≤ idx) (h₂ : idx ≤ l.lastIdx) :
    l.lastConfFor idx = .ok (l.confInForce idx) := by
  unfold lastConfFor
  rw [if_neg (by omega)]
  by_cases hl : l.lastConf = 0
  · rw [if_pos hl, if_neg (by simp [hb.prevConf_eq_zero hl]),
      confInForce_eq_of_no_conf le_rfl h₁ fun i hi _ => hb.lastConf_zero hl i hi, confInForce_snapshot]
  rw [if_neg hl]
  by_cases hge : idx ≥ l.lastConf
  · rw [if_pos hge]
    exact congrArg Except.ok (hb.confInForce_of_ge_lastConf hl hge)
  rw [if_neg hge]
  by_cases hp : l.prevConf = 0
  · rw [if_pos hp]
    exact congrArg Except.ok (hb.confInForce_of_lt_lastConf hp h₁ (by omega))
  rw [if_neg hp]
  by_cases hgp : idx ≥ l.prevConf
  · rw [if_pos hgp]
    exact congrArg Except.ok (hb.confInForce_of_ge_prevConf hp hgp (by omega))
  · rw [if_neg hgp, lastConfForLoop_eq _ _ (by omega)]

/-- `get_prev_configuration` answers the configuration in force just below the last one, when the last
one is above the snapshot. -/
theorem getPrevConfiguration_eq :
    l.getPrevConfiguration =
      if l.snapshot.idx < l.lastConfIdx then some (l.confInForce (l.lastConfIdx - 1)) else none := by
  unfold getPrevConfiguration lastConfIdx
  by_cases hl : l.lastConf = 0
  · simp [hl, hb.prevConf_eq_zero hl]
  have hsl := (hb.lastConf_pos hl).1
  simp only [if_pos hl, gt_iff_lt, if_pos hsl]
  by_cases hp : l.prevConf = 0
  · rw [if_neg (by simp [hp]),
      hb.confInForce_of_lt_lastConf hp (show l.snapshot.idx ≤ l.lastConf - 1 by omega) (by omega)]
  · rw [if_pos hp]
    have hpl := (hb.prevConf_pos hp).2.1
    obtain ⟨c, hc⟩ := exists_configAt (hb.prevConf_pos hp).2.2.1
    rw [← hb.confInForce_of_ge_prevConf hp (by omega) (by omega)]
    rw [show (l.getEntry l.prevConf).bind (·.data.config?) = l.configAt l.prevConf from rfl, hc]
    rfl

end ConfBook

/-! ### Operations that keep the bookkeeping -/

theorem ConfBook.congr {l' : Log} (hb : l.ConfBook) (hs : l'.snapshot.idx = l.snapshot.idx)
    (hl : l'.lastConf = l.lastConf) (hp : l'.prevConf = l.prevConf) (hc : ∀ i, l'.isConfAt i = l.isConfAt i) :
    l'.ConfBook where
  lastConf_zero h := by
    simpa [hs, hc] using hb.lastConf_zero (hl ▸ h)
  lastConf_pos h := by
    simpa [hs, hl, hc] using hb.lastConf_pos (hl ▸ h)
  prevConf_zero h := by
    simpa [hs, hl, hc] using hb.prevConf_zero (hp ▸ h)
  prevConf_pos h := by
    simpa [hs, hl, hp, hc] using hb.prevConf_pos (hp ▸ h)

theorem isConfAt_of_lastIdx_lt {i : Nat} (h : l.lastIdx < i) : l.isConfAt i = false := by
  simp [isConfAt, configAt, getEntry_eq_none_of_lastIdx_lt h]

theorem le_lastIdx_of_isConfAt {i : Nat} (h : l.isConfAt i = true) : i ≤ l.lastIdx := by
  by_contra hlt
  rw [isConfAt_of_lastIdx_lt (by omega)] at h
  cases h

/-- Appending at the next index adds exactly the new entry. -/
theorem getEntry_emplaceBack {e : LogEntry} (hpos : 0 < l.firstIdx) (he : e.idx = l.nextIdx) (i : Nat) :
    (l.emplaceBack e).getEntry i = if i = e.idx then some e else l.getEntry i := by
  unfold getEntry
  rw [emplaceBack_firstIdx, emplaceBack_entries]
  unfold nextIdx lastIdx at he
  by_cases hf : l.firstIdx ≤ i
  · rw [if_pos hf, if_pos hf, List.getElem?_append]
    by_cases hlt : i - l.firstIdx < l.entries.length
    · rw [if_pos hlt, if_neg (by omega)]
    · rw [if_neg hlt]
      by_cases hi : i = e.idx
      · rw [if_pos hi, show i - l.firstIdx - l.entries.length = 0 by omega]
        rfl
      · rw [if_neg hi, List.getElem?_eq_none (l := [e]) (by simp; omega),
          List.getElem?_eq_none (l := l.entries) (by omega)]
  · rw [if_neg hf, if_neg hf, if_neg (by omega)]

theorem isConfAt_emplaceBack {e : LogEntry} (hpos : 0 < l.firstIdx) (he : e.idx = l.nextIdx) (i : Nat) :
    (l.emplaceBack e).isConfAt i = if i = e.idx then e.data.config?.isSome else l.isConfAt i := by
  unfold isConfAt configAt
  rw [getEntry_emplaceBack hpos he]
  split <;> rfl

theorem emplaceBack_of_config {e : LogEntry} {c : Configuration} (hd : e.data = .configuration c) :
    (l.emplaceBack e).lastConf = (l.emplaceBack e).lastIdx ∧ (l.emplaceBack e).prevConf = l.lastConf := by
  unfold emplaceBack
  simp only [hd]
  exact ⟨rfl, trivial⟩

theorem emplaceBack_prevConf {e : LogEntry} (he : e.data.config? = none) :
    (l.emplaceBack e).prevConf = l.prevConf := by
  unfold emplaceBack
  cases hd : e.data with
  | configuration cfg => rw [hd] at he; cases he
  | command c => rfl
  | dummy => rfl

theorem ConfBook.emplaceBack {e : LogEntry} (hb : l.ConfBook) (hpos : 0 < l.firstIdx)
    (he : e.idx = l.nextIdx) (hs : l.snapshot.idx ≤ l.lastIdx) : (l.emplaceBack e).ConfBook := by
  have hnext : e.idx = l.lastIdx + 1 := he
  cases hconf? : e.data.config? with
  | some c =>
    -- The new entry becomes the last configuration, the old last one the previous.
    have hd : e.data = .configuration c := by
      cases hd : e.data <;> rw [hd] at hconf? <;> cases hconf?
      rfl
    obtain ⟨hl, hp⟩ := emplaceBack_of_config (l := l) hd
    rw [emplaceBack_lastIdx l e hpos, ← hnext] at hl
    have hconf : ∀ i, (l.emplaceBack e).isConfAt i = if i = e.idx then true else l.isConfAt i := by
      intro i
      rw [isConfAt_emplaceBack hpos he, hconf?]
      rfl
    refine ⟨fun h => by omega, fun _ => ?_, fun h i hi hlt => ?_, fun h => ?_⟩
    · refine ⟨by rw [emplaceBack_snapshot, hl]; omega, by rw [hl, hconf, if_pos rfl], fun i hi => ?_⟩
      rw [hl] at hi
      rw [hconf, if_neg (by omega), isConfAt_of_lastIdx_lt (by omega)]
    · rw [hp] at h
      rw [emplaceBack_snapshot] at hi
      rw [hl] at hlt
      rw [hconf, if_neg (by omega)]
      exact hb.lastConf_zero h i hi
    · rw [hp] at h ⊢
      obtain ⟨hsl, hcl, habove⟩ := hb.lastConf_pos h
      have hle := le_lastIdx_of_isConfAt hcl
      refine ⟨by rw [emplaceBack_snapshot]; exact hsl, by omega, ?_, fun i hi hlt => ?_⟩
      · rw [hconf, if_neg (by omega)]
        exact hcl
      · rw [hl] at hlt
        rw [hconf, if_neg (by omega)]
        exact habove i hi
  | none =>
    -- An entry without a configuration changes neither index nor any configuration above the snapshot.
    refine hb.congr (by rw [emplaceBack_snapshot]) (emplaceBack_lastConf hconf?) (emplaceBack_prevConf hconf?)
      fun i => ?_
    rw [isConfAt_emplaceBack hpos he, hconf?]
    split
    · rw [isConfAt_of_lastIdx_lt (by omega)]
      rfl
    · rfl

theorem ConfBook.stableTo {l' : Log} {idx : Nat} (hb : l.ConfBook) (hs : l.stableTo idx = .ok l') : l'.ConfBook := by
  obtain ⟨rfl, -⟩ := stableTo_eq_ok hs
  exact hb.congr rfl rfl rfl fun _ => rfl

/-! ### Truncation forgets the configurations below the previous one -/

/-- A truncation that drops the last configuration entry makes the previous one the last and forgets any
before it: below the new last configuration entry, `last_conf_for` answers the snapshot's configuration. -/
theorem truncateUncommitted_forgets {l' : Log} {idx : Nat} (ht : l.truncateUncommitted idx = .ok l')
    (hdrop : l'.lastIdx < l.lastConf) :
    l'.snapshot = l.snapshot ∧ l'.lastConf = l.prevConf ∧ l'.prevConf = 0 ∧
      ∀ i, l.snapshot.idx ≤ i → i < l.prevConf → i ≤ l'.lastIdx → l'.lastConfFor i = .ok l.snapshot.config := by
  have hsnap := (truncateUncommitted_snapshot ht).1
  unfold truncateUncommitted at ht
  split at ht
  · cases ht
  dsimp only at ht
  split at ht
  · split at ht
    · cases ht
      refine ⟨rfl, rfl, rfl, fun i hi hlt hle => ?_⟩
      unfold lastConfFor
      simp only
      rw [if_neg (by omega), if_neg (by omega), if_neg (by omega), if_pos trivial]
    · cases ht
  · cases ht
    omega

end Log

/-! ### Three configuration entries and a conflict -/

/-- A log with three configuration entries above its snapshot, the last one then replaced by an entry of a
newer leader; returns `last_conf_for(1)`, the configuration in force at `1`, and `get_prev_configuration()`. -/
def truncatedConfigRun : Option (Except RaftError Configuration × Configuration × Option Configuration) :=
  let c : Nat → Configuration := fun k => { current := [⟨k, true⟩] }
  let e : Nat → LogEntry := fun i => ⟨1, i, .configuration (c i)⟩
  match Log.mk' { config := c 0 } [] 100 with
  | .error _ => none
  | .ok l =>
    match (((l.emplaceBack (e 1)).emplaceBack (e 2)).emplaceBack (e 3)).maybeAppend [⟨2, 3, .dummy⟩] with
    | .error _ => none
    | .ok (l, _) => some (l.lastConfFor 1, l.confInForce 1, l.getPrevConfiguration)

/-- After the truncation, `last_conf_for(1)` and `get_prev_configuration()` answer the snapshot's
configuration `c 0` though the entry at `1` holds `c 1`. -/
theorem truncatedConfigRun_forgets :
    truncatedConfigRun =
      some (.ok { current := [⟨0, true⟩] }, { current := [⟨1, true⟩] }, some { current := [⟨0, true⟩] }) := by
  decide

end Scylla.Raft
