import Mathlib
import Scylla.Types.ComparableBytes

/-!
# Tombstones, row markers and atomic cells

The pieces a row of a mutation is made of (`mutation/tombstone.hh`, `mutation/atomic_cell.hh`,
`mutation/mutation_partition.hh`):

* `tombstone` is ordered by timestamp, then deletion time, and `apply` keeps the larger one;
* `compare_row_marker_for_merge` and `compare_atomic_cell_for_merge` run one ordering algorithm,
  the marker having no value to break a tie: both are `compareForMerge` on what the algorithm
  reads of them (`MergeView`);
* the row tombstone holds a regular and a shadowable tombstone; after every merge the shadowable
  one falls back to the regular one when a newer live marker shadows it;
* `row::compact_and_expire` treats the cell of every atomic column, counter or not, alike, reading
  only its timestamp, liveness, expiry and deletion time (`compactAtomic`).

Timestamps, durations and time points are the source's 64-bit integers.
-/

namespace Scylla

/-- api::missing_timestamp -/
def missingTimestamp : Int64 := Int64.minValue

/-- api::max_timestamp -/
def maxTimestamp : Int64 := Int64.maxValue

/-! ## Tombstones -/

/-- A deletion: the write timestamps it covers and the local time it was made. -/
structure Tombstone where
  timestamp : Int64
  deletionTime : Int64
  deriving DecidableEq, Repr

namespace Tombstone

/-- tombstone(): no deletion. -/
def empty : Tombstone := ⟨missingTimestamp, 0⟩

/-- The defaulted three-way comparison compares the timestamp, then the deletion time. -/
def key (t : Tombstone) : Int ×ₗ Int := toLex (t.timestamp.toInt, t.deletionTime.toInt)

theorem key_injective : Function.Injective key := by
  rintro ⟨t₁, d₁⟩ ⟨t₂, d₂⟩ h
  simp only [key, toLex_inj, Prod.mk.injEq, Int64.toInt_inj] at h
  rw [h.1, h.2]

instance : LinearOrder Tombstone := LinearOrder.lift' key key_injective

theorem lt_iff {t u : Tombstone} :
    t < u ↔ t.timestamp < u.timestamp ∨ t.timestamp = u.timestamp ∧ t.deletionTime < u.deletionTime := by
  change key t < key u ↔ _
  rw [key, key, Prod.Lex.toLex_lt_toLex, Int64.lt_iff_toInt_lt, Int64.lt_iff_toInt_lt, Int64.toInt_inj]

theorem timestamp_le_of_le {t u : Tombstone} (h : t ≤ u) : t.timestamp ≤ u.timestamp := by
  rw [Int64.le_iff_toInt_le]
  rcases h.lt_or_eq with h | rfl
  · rcases lt_iff.1 h with h | ⟨h, -⟩
    · exact (Int64.lt_iff_toInt_lt.1 h).le
    · exact (Int64.toInt_inj.2 h).le
  · exact le_rfl

theorem lt_of_timestamp_lt {t u : Tombstone} (h : t.timestamp < u.timestamp) : t < u :=
  lt_iff.2 (.inl h)

/-- tombstone::apply: take the other tombstone when it is larger. -/
def apply (t u : Tombstone) : Tombstone := if t < u then u else t

@[simp] theorem apply_eq_max (t u : Tombstone) : t.apply u = max t u := by
  unfold apply
  by_cases h : t < u
  · rw [if_pos h, max_eq_right h.le]
  · rw [if_neg h, max_eq_left (not_lt.1 h)]

end Tombstone

theorem Int64.toUInt64_inj {a b : Int64} : a.toUInt64 = b.toUInt64 ↔ a = b :=
  ⟨fun h => by rw [← Int64.toInt64_toUInt64 a, h, Int64.toInt64_toUInt64], fun h => h ▸ rfl⟩

theorem Int64.toInt_max (a b : Int64) : (max a b).toInt = max a.toInt b.toInt := by
  change (if a ≤ b then b else a).toInt = _
  split_ifs with h
  · rw [max_eq_right (Int64.le_iff_toInt_le.1 h)]
  · rw [max_eq_left (Int64.le_iff_toInt_le.2 |>.mt h |> not_le.1).le]

theorem Int64.max_comm' (a b : Int64) : max a b = max b a :=
  Int64.toInt_inj.1 (by rw [Int64.toInt_max, Int64.toInt_max, max_comm])

theorem Int64.max_assoc' (a b c : Int64) : max (max a b) c = max a (max b c) :=
  Int64.toInt_inj.1 (by simp only [Int64.toInt_max, max_assoc])

theorem Int64.max_self' (a : Int64) : max a a = a := Int64.toInt_inj.1 (by rw [Int64.toInt_max, max_self])

/-- can_gc_fn never_gc: nothing is purgeable. -/
def neverGc (_ : Tombstone) (_ : Bool) : Bool := false

/-! ## The merge order of markers and cells -/

/-- What the reconciliation order reads of a row marker or an atomic cell. -/
structure MergeView where
  timestamp : Int64
  isLive : Bool
  isExpiring : Bool
  expiry : Int64
  ttl : Int64
  deletionTime : Int64
  value : List UInt8

/-- The reconciliation order of compare_atomic_cell_for_merge and compare_row_marker_for_merge.
For two deleted versions the marker first tests the deletion times for equality; the unsigned
comparison below is then equal as well, so one body serves both. -/
def compareForMerge (l r : MergeView) : Ordering :=
  -- The largest write timestamp wins.
  if l.timestamp ≠ r.timestamp then compare l.timestamp r.timestamp
  -- A deletion wins against a live version of the same timestamp.
  else if l.isLive ≠ r.isLive then (if l.isLive then .lt else .gt)
  else if l.isLive then
    -- An expiring version wins against one without a ttl (CASSANDRA-14592).
    if l.isExpiring ≠ r.isExpiring then (if l.isExpiring then .gt else .lt)
    else if l.isExpiring then
      -- The latest expiry wins, then the later write, which has the smaller ttl.
      if l.expiry ≠ r.expiry then compare l.expiry r.expiry
      else if l.ttl ≠ r.ttl then compare r.ttl l.ttl
      else compareUnsigned l.value r.value
    else compareUnsigned l.value r.value
  -- Origin compares the big-endian serialized deletion times, that is, unsigned.
  else compare l.deletionTime.toUInt64 r.deletionTime.toUInt64

/-- The order compareForMerge decides, as a lexicographic list of integers. -/
def MergeView.key (v : MergeView) : List Int :=
  v.timestamp.toInt ::
    if v.isLive then
      0 :: ((if v.isExpiring then [1, v.expiry.toInt, -v.ttl.toInt] else [0, 0, 0]) ++
        v.value.map fun b => (b.toNat : Int))
    else [1, (v.deletionTime.toUInt64.toNat : Int)]

/-! ## Row markers -/

/-- row_marker: the row's creation timestamp with the ttl and expiry of an expiring marker;
a deleted marker has the ttl dead and its deletion time as expiry. -/
structure RowMarker where
  timestamp : Int64 := missingTimestamp
  ttl : Int64 := 0
  expiry : Int64 := 0
  deriving DecidableEq, Repr

namespace RowMarker

/-- row_marker::no_ttl -/
def noTtl : Int64 := 0

/-- row_marker::dead -/
def dead : Int64 := -1

/-- row_marker(tombstone): a deleted marker. -/
def ofTombstone (t : Tombstone) : RowMarker := ⟨t.timestamp, dead, t.deletionTime⟩

def isMissing (m : RowMarker) : Bool := m.timestamp == missingTimestamp

def isLive (m : RowMarker) : Bool := !m.isMissing && m.ttl != dead

def isExpiring (m : RowMarker) : Bool := m.ttl != noTtl

def deletionTime (m : RowMarker) : Int64 := if m.ttl == dead then m.expiry else m.expiry - m.ttl

/-- row_marker::is_live(tombstone, now): live, not expired at now and newer than the tombstone. -/
def isLiveAt (m : RowMarker) (t : Tombstone) (now : Int64) : Bool :=
  if m.isMissing || m.ttl == dead then false
  else if m.ttl != noTtl && decide (m.expiry ≤ now) then false
  else decide (t.timestamp < m.timestamp)

/-- A marker has no value to break a tie. -/
def mergeView (m : RowMarker) : MergeView :=
  ⟨m.timestamp, m.isLive, m.isExpiring, m.expiry, m.ttl, m.deletionTime, []⟩

end RowMarker

def compareRowMarkerForMerge (l r : RowMarker) : Ordering :=
  compareForMerge l.mergeView r.mergeView

namespace RowMarker

/-- row_marker::apply: take the other marker when it wins the reconciliation. -/
def apply (m rm : RowMarker) : RowMarker := if compareRowMarkerForMerge m rm = .lt then rm else m

/-- row_marker::operator==, consistent with feed_hash: the ttl and expiry of a missing marker
and the expiry of a marker without ttl are not compared. -/
def beq (m o : RowMarker) : Bool :=
  m.timestamp == o.timestamp && (m.isMissing || (m.ttl == o.ttl && (m.ttl == noTtl || m.expiry == o.expiry)))

/-- What row_marker::compact_and_expire leaves of a marker, whether it stays live, and the
marker it hands to the garbage collector. -/
structure MarkerCompaction where
  marker : RowMarker
  isLive : Bool
  collected : Option RowMarker

/-- row_marker::compact_and_expire: drop a marker the tombstone covers, turn an expired marker
into a deleted one and purge a deleted one that may be collected. -/
def compactAndExpire (m : RowMarker) (tomb : Tombstone) (now : Int64)
    (canGc : Tombstone → Bool → Bool) (gcBefore : Int64) : MarkerCompaction :=
  if m.isMissing then ⟨m, false, none⟩
  else if m.timestamp ≤ tomb.timestamp then ⟨{ m with timestamp := missingTimestamp }, false, none⟩
  else
    let m := if noTtl < m.ttl ∧ m.expiry ≤ now then { m with expiry := m.expiry - m.ttl, ttl := dead } else m
    -- The marker itself is not shadowable.
    if m.ttl = dead ∧ m.expiry < gcBefore ∧ canGc ⟨m.timestamp, m.expiry⟩ false = true
      then ⟨{ m with timestamp := missingTimestamp }, false, some m⟩
    else ⟨m, !m.isMissing && m.ttl != dead, none⟩

end RowMarker

/-! ## Atomic cells -/

/-- An atomic cell of a regular, non-counter column (atomic_cell): live, live with a ttl, or a
deletion with its local deletion time. -/
inductive AtomicCell where
  | live (timestamp : Int64) (value : List UInt8)
  | liveWithTtl (timestamp : Int64) (value : List UInt8) (expiry ttl : Int64)
  | dead (timestamp deletionTime : Int64)
  deriving DecidableEq, Repr

namespace AtomicCell

def timestamp : AtomicCell → Int64
  | live ts _ | liveWithTtl ts _ _ _ | dead ts _ => ts

def isLive : AtomicCell → Bool
  | dead .. => false
  | _ => true

def isLiveAndHasTtl : AtomicCell → Bool
  | liveWithTtl .. => true
  | _ => false

/-- Read only when isLiveAndHasTtl. -/
def expiry : AtomicCell → Int64
  | liveWithTtl _ _ e _ => e
  | _ => 0

/-- Read only when isLiveAndHasTtl. -/
def ttl : AtomicCell → Int64
  | liveWithTtl _ _ _ t => t
  | _ => 0

/-- Read only when isLive. -/
def value : AtomicCell → List UInt8
  | live _ v | liveWithTtl _ v _ _ => v
  | dead .. => []

/-- The stored deletion time of a deletion, expiry - ttl for a live cell. -/
def deletionTime : AtomicCell → Int64
  | dead _ d => d
  | c => c.expiry - c.ttl

def hasExpired (c : AtomicCell) (now : Int64) : Bool := c.isLiveAndHasTtl && decide (c.expiry ≤ now)

/-- is_covered_by for a cell of a non-counter column. -/
def isCoveredBy (c : AtomicCell) (t : Tombstone) : Bool := decide (c.timestamp ≤ t.timestamp)

/-- is_live(tombstone, now, is_counter) for a cell of a non-counter column. -/
def isLiveAt (c : AtomicCell) (t : Tombstone) (now : Int64) : Bool :=
  c.isLive && !c.isCoveredBy t && !c.hasExpired now

def mergeView (c : AtomicCell) : MergeView :=
  ⟨c.timestamp, c.isLive, c.isLiveAndHasTtl, c.expiry, c.ttl, c.deletionTime, c.value⟩

@[simp] theorem timestamp_dead (ts d : Int64) : (dead ts d).timestamp = ts := rfl

@[simp] theorem deletionTime_dead (ts d : Int64) : (dead ts d).deletionTime = d := rfl

@[simp] theorem isLive_dead (ts d : Int64) : (dead ts d).isLive = false := rfl

@[simp] theorem hasExpired_dead (ts d now : Int64) : (dead ts d).hasExpired now = false := rfl

/-- A deletion is the deletion of its own timestamp and deletion time. -/
theorem dead_eq_of_isLive_eq_false {c : AtomicCell} (h : c.isLive = false) :
    dead c.timestamp c.deletionTime = c := by
  cases c with
  | dead ts d => rfl
  | _ => simp [isLive] at h

end AtomicCell

def compareAtomicCellForMerge (l r : AtomicCell) : Ordering :=
  compareForMerge l.mergeView r.mergeView

/-! ## Row tombstones -/

/-- shadowable_tombstone -/
structure ShadowableTombstone where
  tomb : Tombstone := Tombstone.empty
  deriving DecidableEq, Repr

namespace ShadowableTombstone

/-- A newer live marker shadows the tombstone: the row was written again after it. -/
def isShadowedBy (t : ShadowableTombstone) (marker : RowMarker) : Bool :=
  marker.isLive && decide (t.tomb.timestamp < marker.timestamp)

def maybeShadow (t : ShadowableTombstone) (regular : Tombstone) (marker : RowMarker) :
    ShadowableTombstone :=
  if t.isShadowedBy marker then ⟨regular⟩ else t

def apply (t : ShadowableTombstone) (u : Tombstone) : ShadowableTombstone := ⟨t.tomb.apply u⟩

end ShadowableTombstone

/-- row_tombstone: a regular tombstone and a shadowable one, the shadowable one always at least
the regular one. -/
structure RowTombstone where
  regular : Tombstone := Tombstone.empty
  shadowable : ShadowableTombstone := {}
  deriving DecidableEq, Repr

namespace RowTombstone

/-- The tombstone in effect. -/
def tomb (t : RowTombstone) : Tombstone := t.shadowable.tomb

def maxDeletionTime (t : RowTombstone) : Int64 :=
  if t.regular.deletionTime < t.shadowable.tomb.deletionTime then t.shadowable.tomb.deletionTime
  else t.regular.deletionTime

def isShadowable (t : RowTombstone) : Bool := decide (t.regular < t.shadowable.tomb)

def maybeShadow (t : RowTombstone) (marker : RowMarker) : RowTombstone :=
  { t with shadowable := t.shadowable.maybeShadow t.regular marker }

/-- row_tombstone::apply(tombstone) -/
def applyTombstone (t : RowTombstone) (regular : Tombstone) : RowTombstone :=
  ⟨t.regular.apply regular, t.shadowable.apply regular⟩

/-- row_tombstone::apply(shadowable_tombstone, row_marker) -/
def applyShadowable (t : RowTombstone) (s : ShadowableTombstone) (marker : RowMarker) :
    RowTombstone :=
  { t with shadowable := (t.shadowable.apply s.tomb).maybeShadow t.regular marker }

/-- row_tombstone::apply(row_tombstone, row_marker): the shadowing is decided against the merged
regular tombstone and the merged marker. -/
def apply (t u : RowTombstone) (marker : RowMarker) : RowTombstone :=
  let regular := t.regular.apply u.regular
  ⟨regular, (t.shadowable.apply u.shadowable.tomb).maybeShadow regular marker⟩

/-- row_tombstone::operator== compares the shadowable tombstones only. -/
def beq (t u : RowTombstone) : Bool := t.shadowable == u.shadowable

end RowTombstone

/-! ## Compacting the cell of an atomic column -/

/-- What row::compact_and_expire does with one cell: the cell that stays, whether it counts as live,
and the cell it hands to the garbage collector. -/
structure CellCompaction (C : Type) where
  kept : Option C
  isLive : Bool
  collected : Option C

def CellCompaction.map {C D : Type} (f : C → D) (r : CellCompaction C) : CellCompaction D :=
  ⟨r.kept.map f, r.isLive, r.collected.map f⟩

/-- What the compaction reads of the cell of an atomic column: its timestamp, whether it is live,
whether it has expired at the query time, and its deletion time. -/
structure AtomicView where
  timestamp : Int64
  isLive : Bool
  hasExpired : Bool
  deletionTime : Int64

/-- atomic_cell_view::is_covered_by: the cell of a counter column is covered by every tombstone. -/
def AtomicView.isCoveredBy (v : AtomicView) (t : Tombstone) (isCounter : Bool) : Bool :=
  decide (v.timestamp ≤ t.timestamp) || (isCounter && t.timestamp != missingTimestamp)

/-- The branch of row::compact_and_expire for an atomic column: remove a covered cell, turn an
expired one into the deletion `dead` that make_dead builds, and purge deletions that may go. -/
def compactAtomic {C : Type} (isCounter : Bool) (v : AtomicView) (cell dead : C) (tomb : RowTombstone)
    (canGc : Tombstone → Bool → Bool) (gcBefore : Int64) : CellCompaction C :=
  -- Only row tombstones can be shadowable, cell tombstones are not.
  let canEraseCell := decide (v.deletionTime < gcBefore) && canGc ⟨v.timestamp, v.deletionTime⟩ false
  if v.isCoveredBy tomb.regular isCounter then ⟨none, false, none⟩
  else if v.isCoveredBy tomb.shadowable.tomb isCounter then ⟨none, false, none⟩
  else if v.hasExpired then
    if canEraseCell then ⟨none, false, some dead⟩ else ⟨some dead, false, none⟩
  else if !v.isLive then
    if canEraseCell then ⟨none, false, some dead⟩ else ⟨some cell, false, none⟩
  else ⟨some cell, true, none⟩

namespace AtomicCell

def view (c : AtomicCell) (now : Int64) : AtomicView := ⟨c.timestamp, c.isLive, c.hasExpired now, c.deletionTime⟩

/-- The compaction of the cell of a regular, non-counter column. -/
def compactAndExpire (c : AtomicCell) (tomb : RowTombstone) (queryTime : Int64)
    (canGc : Tombstone → Bool → Bool) (gcBefore : Int64) : CellCompaction AtomicCell :=
  compactAtomic false (c.view queryTime) c (dead c.timestamp c.deletionTime) tomb canGc gcBefore

end AtomicCell

end Scylla
