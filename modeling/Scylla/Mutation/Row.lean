import Mathlib
import Scylla.Mutation.Collection
import Scylla.Mutation.Counters

/-!
# Clustering rows and their cells

The state of one clustering row of a mutation (`deletable_row` in `mutation/mutation_partition.hh`): its row
tombstone, its row marker and its regular cells, with the merge `deletable_row::apply_monotonically`, the equality
`deletable_row::equal` and the compaction `deletable_row::compact_and_expire`.

A cell (`atomic_cell_or_collection`) is read as its column's definition says: an atomic cell, the cell of a
counter column, or a collection (`Cell`).  The row's merge and compaction dispatch on it as
`apply_monotonically(const column_definition&, ...)` and `row::compact_and_expire` dispatch on the column.  The
keys of a collection are its serialized keys, ordered as a blob's bytes.

Timestamps, durations and time points are the source's 64-bit integers.
-/

namespace Scylla

/-! ## Cells -/

/-- A key of a collection cell: its serialized bytes, compared unsigned. -/
structure CollectionKey where
  bytes : List UInt8
  deriving DecidableEq, Repr

namespace CollectionKey

def key (k : CollectionKey) : List Nat := k.bytes.map UInt8.toNat

theorem key_injective : Function.Injective key := by
  rintro ⟨b⟩ ⟨b'⟩ h
  simp only [key] at h
  rw [List.map_injective_iff.2 (fun _ _ h => UInt8.toNat_inj.1 h) h]

instance : LinearOrder CollectionKey := LinearOrder.lift' key key_injective

end CollectionKey

/-- The cell of one column, read as the column's definition reads it. -/
inductive Cell where
  | atomic (c : AtomicCell)
  | counter (c : CounterCell CounterId)
  | collection (m : CollectionMutation CollectionKey)
  deriving DecidableEq

/-- column_kind: the row a column belongs to. -/
inductive ColumnKind where
  | staticColumn
  | regularColumn
  deriving DecidableEq, Repr

namespace Cell

/-- apply_monotonically(const column_definition&, cell_and_hash& dst, atomic_cell_or_collection& src): the atomic
cell that wins the reconciliation, counter_cell_view::apply, or the merge of two collections.  Cells of different
kinds never meet in one column. -/
def applyMonotonically : Cell → Cell → Cell
  | atomic c, atomic c' => atomic (MaxMerge.mergeBy compareAtomicCellForMerge c c')
  | counter c, counter c' => counter (c.applied c')
  | collection m, collection m' => collection (m.merge m')
  | c, _ => c

/-- The branch of row::compact_and_expire for one column.  An empty collection is erased from the row, and the
garbage collector drops an empty one. -/
def compactAndExpire (c : Cell) (tomb : RowTombstone) (queryTime : Int64) (canGc : Tombstone → Bool → Bool)
    (gcBefore : Int64) : CellCompaction Cell :=
  match c with
  | atomic c => (c.compactAndExpire tomb queryTime canGc gcBefore).map atomic
  | counter c => (c.compactAndExpire tomb canGc gcBefore).map counter
  | collection m =>
    let r := m.compactAndExpire tomb queryTime canGc gcBefore
    ⟨if r.survivors.isEmpty then none else some (collection r.survivors), r.isLive,
      if r.losers.isEmpty then none else some (collection r.losers)⟩

end Cell

/-! ## Rows -/

/-- What the compaction of a row reads of the schema. -/
structure Schema where
  isView : Bool
  hasBaseNonPkColumnsInViewPk : Bool
  hasComputedColumnDependingOnBaseNonPrimaryKey : Bool
  deriving DecidableEq, Repr

/-- dead_marker_shadows_row: in such a view the view's row marker decides whether a clustering row is live. -/
def deadMarkerShadowsRow (s : Schema) (kind : ColumnKind) (marker : RowMarker) : Bool :=
  s.isView && (s.hasBaseNonPkColumnsInViewPk || s.hasComputedColumnDependingOnBaseNonPrimaryKey) &&
    !marker.isLive && kind == .regularColumn

/-- row: at most one cell for each of the schema's n columns of one kind. -/
structure Row (n : Nat) where
  cell : Fin n → Option Cell

namespace Row

variable {n : Nat}

def empty : Row n := ⟨fun _ => none⟩

/-- row::apply_monotonically: each cell of the other row goes in a free column or is merged with the cell there. -/
def applyMonotonically (r other : Row n) : Row n :=
  ⟨fun i => Option.merge Cell.applyMonotonically (r.cell i) (other.cell i)⟩

/-- row::equal for rows of one schema. -/
def equal (r other : Row n) : Bool := decide (∀ i, r.cell i = other.cell i)

def isEmpty (r : Row n) : Bool := decide (∀ i, r.cell i = none)

/-- What row::compact_and_expire leaves of the cells, whether a live cell stays, and the cells
it hands to the garbage collector. -/
structure RowCompaction (n : Nat) where
  row : Row n
  isLive : Bool
  collected : Row n

/-- row::compact_and_expire: remove the cells the row tombstone covers, expire cells and purge deletions. -/
def compactAndExpire (r : Row n) (s : Schema) (kind : ColumnKind) (tomb : RowTombstone) (queryTime : Int64)
    (canGc : Tombstone → Bool → Bool) (gcBefore : Int64) (marker : RowMarker) : RowCompaction n :=
  let tomb := if deadMarkerShadowsRow s kind marker
    then tomb.applyShadowable ⟨⟨maxTimestamp, Int64.maxValue⟩⟩ {} else tomb
  let compacted := fun c : Cell => c.compactAndExpire tomb queryTime canGc gcBefore
  ⟨⟨fun i => (r.cell i).bind fun c => (compacted c).kept⟩,
    decide (∃ i, (r.cell i).any fun c => (compacted c).isLive),
    ⟨fun i => (r.cell i).bind fun c => (compacted c).collected⟩⟩

end Row

/-- deletable_row: the row tombstone, the row marker and the regular cells of a clustering row. -/
structure DeletableRow (n : Nat) where
  deletedAt : RowTombstone := {}
  marker : RowMarker := {}
  cells : Row n := Row.empty

namespace DeletableRow

variable {n : Nat}

def maybeShadow (r : DeletableRow n) : DeletableRow n :=
  { r with deletedAt := r.deletedAt.maybeShadow r.marker }

/-- deletable_row::apply(tombstone) -/
def applyTombstone (r : DeletableRow n) (t : Tombstone) : DeletableRow n :=
  maybeShadow { r with deletedAt := r.deletedAt.applyTombstone t }

def removeTombstone (r : DeletableRow n) : DeletableRow n := { r with deletedAt := {} }

/-- deletable_row::apply_monotonically: the cells, then the marker, then the row tombstone,
which is shadowed by the merged marker. -/
def applyMonotonically (r src : DeletableRow n) : DeletableRow n :=
  let cells := r.cells.applyMonotonically src.cells
  let marker := r.marker.apply src.marker
  ⟨r.deletedAt.apply src.deletedAt marker, marker, cells⟩

@[simp] theorem applyMonotonically_marker (r src : DeletableRow n) :
    (r.applyMonotonically src).marker = r.marker.apply src.marker := rfl

@[simp] theorem applyMonotonically_deletedAt (r src : DeletableRow n) :
    (r.applyMonotonically src).deletedAt = r.deletedAt.apply src.deletedAt (r.marker.apply src.marker) := rfl

@[simp] theorem applyMonotonically_cells (r src : DeletableRow n) :
    (r.applyMonotonically src).cells = r.cells.applyMonotonically src.cells := rfl

/-- deletable_row::empty -/
def isEmpty (r : DeletableRow n) : Bool :=
  r.deletedAt.tomb.timestamp == missingTimestamp && r.marker.isMissing && r.cells.isEmpty

/-- deletable_row::equal for rows of one schema. -/
def equal (r other : DeletableRow n) : Bool :=
  r.deletedAt.beq other.deletedAt && r.marker.beq other.marker && r.cells.equal other.cells

/-- deletable_row::compact_and_expire: apply the tombstone from above, compact the marker and
then the cells against the result, and drop a row tombstone that the tombstone from above
covers or that may be purged; also whether the row stays live. -/
def compactAndExpire (r : DeletableRow n) (s : Schema) (tomb : Tombstone) (queryTime : Int64)
    (canGc : Tombstone → Bool → Bool) (gcBefore : Int64) : DeletableRow n × Bool :=
  let shouldPurgeRowTombstone := fun t : RowTombstone =>
    decide (t.maxDeletionTime < gcBefore) && canGc t.tomb t.isShadowable
  let r := r.applyTombstone tomb
  -- No garbage collector is passed here.
  let marker := r.marker.compactAndExpire r.deletedAt.tomb queryTime canGc gcBefore
  let cells := r.cells.compactAndExpire s .regularColumn r.deletedAt queryTime canGc gcBefore marker.marker
  let deletedAt := if decide (r.deletedAt.tomb ≤ tomb) || shouldPurgeRowTombstone r.deletedAt
    then {} else r.deletedAt
  (⟨deletedAt, marker.marker, cells.row⟩, marker.isLive || cells.isLive)

/-- rows_entry::compact: compaction under the tombstone from above with no ttl expiration and
no garbage collection. -/
def compact (r : DeletableRow n) (s : Schema) (t : Tombstone) : DeletableRow n :=
  (r.compactAndExpire s t Int64.minValue neverGc Int64.minValue).1

end DeletableRow

end Scylla
