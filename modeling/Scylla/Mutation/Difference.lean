import Scylla.Mutation.Purge

/-!
# The difference of two rows

`deletable_row::difference` keeps what one version of a clustering row has that another lacks:
the row tombstone if it is newer, the marker if it wins the reconciliation, and each cell that the
other version has not or that wins against the other's cell (`row::difference`, which reads a
counter cell with `counter_cell_view::difference` and a collection with the difference of
collection mutations).  Read repair and view updates merge such a difference into the older
version in place of the whole newer one.

`DeletableRow.difference_drops_regular_tombstone`: the difference can lose the regular tombstone,
since row_tombstone's comparison looks at the shadowable tombstones only.
-/

namespace Scylla

open MaxMerge

/-! ## Cells -/

namespace CounterCell

variable {ι : Type} [LinearOrder ι]

/-- counter_cell_view::difference: a deletion on either side is settled as the reconciliation
settles it; of two cells of shards, the shards of `a` newer than `b`'s shard of their id, or
a live cell of `a`'s newer timestamp with no shards.  Counter updates, which the source asserts
away, fall in the first branch. -/
def difference (a b : CounterCell ι) : Option (CounterCell ι) :=
  match a, b with
  | shards ta la, shards tb lb =>
    let diff := la.filter fun x => match KeyedList.lookup CounterShard.id lb x.id with
      | none => true
      | some y => decide (y.logicalClock < x.logicalClock)
    if !diff.isEmpty then some (shards (max ta tb) diff)
    else if tb < ta then some (shards ta [])
    else none
  | a, b => if b.isLive || (!a.isLive && b.deadLt a) then some a else none

end CounterCell

namespace Cell

/-- The branch of row::difference for one column whose cell both rows have. -/
def difference : Cell → Cell → Option Cell
  | atomic c, atomic c' => if compareAtomicCellForMerge c c' = .gt then some (atomic c) else none
  | counter c, counter c' => (c.difference c').map counter
  | collection m, collection m' =>
    let d := m.difference m'
    if d.isEmpty then none else some (collection d)
  | c, _ => some c

end Cell

namespace Row

variable {n : Nat}

/-- row::difference: a cell stays when the other row has no cell in its column, and otherwise
what the difference of the two cells leaves. -/
def difference (r other : Row n) : Row n :=
  ⟨fun i => match r.cell i, other.cell i with
    | none, _ => none
    | some c, none => some c
    | some c, some c' => c.difference c'⟩

end Row

/-! ## Clustering rows -/

namespace DeletableRow

variable {n : Nat}

/-- deletable_row::apply(row_tombstone) -/
def applyRowTombstone (r : DeletableRow n) (t : RowTombstone) : DeletableRow n :=
  { r with deletedAt := r.deletedAt.apply t r.marker }

/-- deletable_row::apply(const row_marker&) -/
def applyMarker (r : DeletableRow n) (rm : RowMarker) : DeletableRow n :=
  maybeShadow { r with marker := r.marker.apply rm }

/-- deletable_row::difference: the row tombstone when it is newer, as row_tombstone's comparison
decides it from the shadowable tombstones alone; the marker when it wins; and the difference of
the cells. -/
def difference (r other : DeletableRow n) : DeletableRow n :=
  let dr : DeletableRow n := {}
  let dr := if other.deletedAt.shadowable.tomb < r.deletedAt.shadowable.tomb
    then dr.applyRowTombstone r.deletedAt else dr
  let dr := if compareRowMarkerForMerge r.marker other.marker = .gt then dr.applyMarker r.marker else dr
  { dr with cells := r.cells.difference other.cells }

/-- The older version carries only a shadowable tombstone at 5; the newer one a regular
tombstone at 3 and a live marker at 10.  The difference drops the tombstone at 3, which the
shadowable one covers, but the merge lets the marker shadow that one: the merge of the whole row
keeps the tombstone at 3 in force, the merge of the difference no tombstone at all. -/
theorem difference_drops_regular_tombstone :
    let a : DeletableRow 0 := { deletedAt := { shadowable := ⟨⟨5, 0⟩⟩ } }
    let b : DeletableRow 0 := { deletedAt := ⟨⟨3, 0⟩, ⟨⟨3, 0⟩⟩⟩, marker := { timestamp := 10 } }
    let s : Schema := ⟨false, false, false⟩
    a.Stored ∧ b.Stored ∧ (a.compact s Tombstone.empty).equal a = true ∧
      (b.compact s Tombstone.empty).equal b = true ∧
      (a.applyMonotonically b).deletedAt.tomb = ⟨3, 0⟩ ∧
      (a.applyMonotonically (b.difference a)).deletedAt.tomb = Tombstone.empty ∧
      (a.applyMonotonically (b.difference a)).equal (a.applyMonotonically b) = false := by
  decide

end DeletableRow

end Scylla
