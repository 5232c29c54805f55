import Scylla.Mutation.Row

/-!
# The sstable compactor on a clustering row

`compact_mutation_state<compact_for_sstables::yes>` (`mutation/mutation_compactor.hh`) compacts a
partition's fragments for an sstable compaction.  A clustering row is compacted under the
tombstone in effect from above (the partition tombstone and the active range tombstone), at the
compaction time, and what it purges goes to a garbage collector whose rows feed a second consumer.

Purging a tombstone, a deleted marker or a deleted cell needs its deletion time before the grace
period's end (`gc_before`) and `can_gc`: no data in other sources that the deletion may shadow,
which `max_purgeable` bounds by a timestamp (`compaction/compaction_garbage_collector.hh`).
-/

namespace Scylla

/-- api::min_timestamp -/
def minTimestamp : Int64 := Int64.minValue + 1

/-- max_purgeable: deletions older than the timestamp may be purged, and so may those that had
expired before the expiry threshold. -/
structure MaxPurgeable where
  timestamp : Int64 := missingTimestamp
  expiryThreshold : Option Int64 := none
  deriving DecidableEq, Repr

namespace MaxPurgeable

/-- max_purgeable::can_purge: a max_purgeable without a timestamp does not restrict purging. -/
def canPurge (mp : MaxPurgeable) (t : Tombstone) : Bool :=
  mp.timestamp == missingTimestamp ||
    (decide (t.deletionTime < mp.expiryThreshold.getD Int64.minValue) || decide (t.timestamp < mp.timestamp))

/-- can_never_purge -/
def never : MaxPurgeable := ⟨minTimestamp, none⟩

end MaxPurgeable

/-- What compact_mutation_state holds when a clustering row arrives: the compaction time, the end
of the grace period, the max purgeable bounds for regular and shadowable deletions, the partition
tombstone and the active range tombstone. -/
structure CompactionState where
  queryTime : Int64
  gcBefore : Int64
  maxPurgeableRegular : MaxPurgeable
  maxPurgeableShadowable : MaxPurgeable
  partitionTombstone : Tombstone := Tombstone.empty
  effectiveTombstone : Tombstone := Tombstone.empty
  deriving DecidableEq, Repr

namespace CompactionState

/-- can_gc for sstable compaction: no absent tombstone is purged, others as max_purgeable says. -/
def canGc (st : CompactionState) (t : Tombstone) (isShadowable : Bool) : Bool :=
  t.timestamp != missingTimestamp &&
    (if isShadowable then st.maxPurgeableShadowable else st.maxPurgeableRegular).canPurge t

/-- can_purge_tombstone: past the grace period and collectable.  The source tests the two in
either order, depending on whether the grace period is cheap to get; the result is the same. -/
def canPurgeTombstone (st : CompactionState) (t : Tombstone) (isShadowable : Bool)
    (deletionTime : Int64) : Bool :=
  decide (deletionTime < st.gcBefore) && st.canGc t isShadowable

def canPurgeRowTombstone (st : CompactionState) (t : RowTombstone) : Bool :=
  st.canPurgeTombstone t.tomb t.isShadowable t.maxDeletionTime

/-- The tombstone in effect from above. -/
def currentTombstone (st : CompactionState) : Tombstone := max st.partitionTombstone st.effectiveTombstone

/-- The same compaction with can_never_purge. -/
def withoutPurging (st : CompactionState) : CompactionState :=
  { st with maxPurgeableRegular := .never, maxPurgeableShadowable := .never }

end CompactionState

/-! ## Compacting a clustering row -/

namespace CompactionState

variable {n : Nat} (st : CompactionState)

/-- The row tombstone the marker and the cells are compacted under: the row's own, with the
tombstone from above applied. -/
def rowTombstone (cr : DeletableRow n) : RowTombstone := cr.deletedAt.applyTombstone st.currentTombstone

/-- The tombstone from above covers the row tombstone. -/
def dropsRowTombstone (cr : DeletableRow n) : Bool := decide (cr.deletedAt.tomb ≤ st.currentTombstone)

def purgesRowTombstone (cr : DeletableRow n) : Bool :=
  !st.dropsRowTombstone cr && st.canPurgeRowTombstone cr.deletedAt

def compactMarker (cr : DeletableRow n) : RowMarker.MarkerCompaction :=
  cr.marker.compactAndExpire (st.rowTombstone cr).tomb st.queryTime st.canGc st.gcBefore

/-- The cells are compacted against the marker the marker's compaction left. -/
def compactCells (s : Schema) (cr : DeletableRow n) : Row.RowCompaction n :=
  cr.cells.compactAndExpire s .regularColumn (st.rowTombstone cr) st.queryTime st.canGc st.gcBefore
    (st.compactMarker cr).marker

/-- The row for the regular consumer, before an empty row is dropped. -/
def compacted (s : Schema) (cr : DeletableRow n) : DeletableRow n :=
  ⟨if st.dropsRowTombstone cr || st.purgesRowTombstone cr then {} else cr.deletedAt,
    (st.compactMarker cr).marker, (st.compactCells s cr).row⟩

/-- The row the garbage collector assembles from what was purged. -/
def garbage (s : Schema) (cr : DeletableRow n) : DeletableRow n :=
  ⟨if st.purgesRowTombstone cr then cr.deletedAt else {}, (st.compactMarker cr).collected.getD {},
    (st.compactCells s cr).collected⟩

@[simp] theorem compacted_deletedAt (s : Schema) (cr : DeletableRow n) :
    (st.compacted s cr).deletedAt =
      if st.dropsRowTombstone cr || st.purgesRowTombstone cr then {} else cr.deletedAt := rfl

@[simp] theorem compacted_marker (s : Schema) (cr : DeletableRow n) :
    (st.compacted s cr).marker = (st.compactMarker cr).marker := rfl

@[simp] theorem compacted_cells (s : Schema) (cr : DeletableRow n) :
    (st.compacted s cr).cells = (st.compactCells s cr).row := rfl

@[simp] theorem garbage_deletedAt (s : Schema) (cr : DeletableRow n) :
    (st.garbage s cr).deletedAt = if st.purgesRowTombstone cr then cr.deletedAt else {} := rfl

@[simp] theorem garbage_marker (s : Schema) (cr : DeletableRow n) :
    (st.garbage s cr).marker = (st.compactMarker cr).collected.getD {} := rfl

@[simp] theorem garbage_cells (s : Schema) (cr : DeletableRow n) :
    (st.garbage s cr).cells = (st.compactCells s cr).collected := rfl

end CompactionState

/-- What consume(clustering_row) emits: the row for the regular consumer, the purged data the
garbage collector passes to the second consumer, and whether the row is live. -/
structure CompactedRow (n : Nat) where
  row : Option (DeletableRow n)
  garbage : Option (DeletableRow n)
  isLive : Bool

/-- compact_mutation_state::consume(clustering_row) with its garbage collector.  An empty row
goes to neither consumer. -/
def consumeClusteringRow {n : Nat} (st : CompactionState) (s : Schema) (cr : DeletableRow n) :
    CompactedRow n :=
  let out := st.compacted s cr
  let garbage := st.garbage s cr
  ⟨if out.isEmpty then none else some out, if garbage.isEmpty then none else some garbage,
    (st.compactMarker cr).isLive || (st.compactCells s cr).isLive⟩

end Scylla
