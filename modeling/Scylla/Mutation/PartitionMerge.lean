import Mathlib
import Scylla.Mutation.Merge
import Scylla.Mutation.Partition

/-!
# Convergence of the partition merge

`mutation_partition::apply_monotonically` merges the partition tombstones, the static rows, the range tombstone
lists and the clustering rows position by position.  Replicas that receive the same partitions in any order and
any grouping agree on them once compacted, as `mutation_partition::equal` sees them.

* `ndRow_mergeRows`: at each position the merged rows hold the merge of the rows of the two sides that are not
  dummies, up to `DeletableRow.Equiv`.  A dummy adds nothing since it holds the empty row, which is a unit of the
  row merge for rows whose regular tombstone is not below `tombstone()`;
* `MutationPartition.Equiv`: the partition tombstones, the range tombstone lists and the normal forms of the static
  rows are equal, and the rows that are not dummies are equivalent at every position.  Compaction with any
  parameters maps equivalent partitions to partitions that `equal` does not tell apart
  (`Equiv.equal_compactForCompaction`);
* `applyMonotonically_converges`: the merge is commutative, associative and idempotent after compaction;
* `applyMonotonically_not_convergent`: none of the conditions of `Mergeable` can be dropped.
-/

namespace Scylla

open KeyedList

namespace DeletableRow

variable {n : Nat} {v : CounterId → Int64 → Int64} {kinds : Fin n → CellKind}

/-- What the merge of partitions needs of a clustering row: cells of the kinds of their columns, a well formed
row, and no regular tombstone below tombstone(), which a tombstone without a timestamp is. -/
structure Mergeable (v : CounterId → Int64 → Int64) (kinds : Fin n → CellKind) (r : DeletableRow n) : Prop where
  valid : r.cells.Valid v kinds
  wellFormed : r.WellFormed
  empty_le : Tombstone.empty ≤ r.deletedAt.regular

theorem Mergeable.applyMonotonically {x y : DeletableRow n} (hx : x.Mergeable v kinds) (hy : y.Mergeable v kinds) :
    (x.applyMonotonically y).Mergeable v kinds where
  valid := hx.valid.applyMonotonically hy.valid
  wellFormed := hx.wellFormed.applyMonotonically hy.wellFormed
  empty_le := by
    simp only [applyMonotonically_deletedAt, RowTombstone.apply, Tombstone.apply_eq_max]
    exact le_max_of_le_left hx.empty_le

theorem isEmpty_eq_of_equal {x y : DeletableRow n} (h : x.equal y = true) : x.isEmpty = y.isEmpty := by
  simp only [equal, RowTombstone.beq, RowMarker.beq, Row.equal, Bool.and_eq_true, beq_iff_eq,
    decide_eq_true_eq] at h
  obtain ⟨⟨hs, ht, -⟩, hc⟩ := h
  have hcells : x.cells = y.cells := by
    cases hx : x.cells
    cases hy : y.cells
    rw [hx, hy] at hc
    exact congrArg Row.mk (funext hc)
  simp only [isEmpty, RowTombstone.tomb, hs, RowMarker.isMissing, ht, hcells]

theorem equal_symm {x y : DeletableRow n} (h : x.equal y = true) : y.equal x = true := by
  simp only [equal, RowTombstone.beq, Row.equal, Bool.and_eq_true, beq_iff_eq, decide_eq_true_eq] at h ⊢
  obtain ⟨⟨hs, hm⟩, hc⟩ := h
  exact ⟨⟨hs.symm, RowMarker.beq_symm hm⟩, fun i => (hc i).symm⟩

theorem equal_trans {x y z : DeletableRow n} (h : x.equal y = true) (h' : y.equal z = true) : x.equal z = true := by
  simp only [equal, RowTombstone.beq, Row.equal, Bool.and_eq_true, beq_iff_eq, decide_eq_true_eq] at h h' ⊢
  obtain ⟨⟨hs, hm⟩, hc⟩ := h
  obtain ⟨⟨hs', hm'⟩, hc'⟩ := h'
  exact ⟨⟨hs.trans hs', RowMarker.beq_trans hm hm'⟩, fun i => (hc i).trans (hc' i)⟩

/-! ### Optional rows

A position holds a row or none; the merge of two positions is `Option.merge applyMonotonically`. -/

section Optional

variable {a b c a' b' : Option (DeletableRow n)}

theorem mergeable_merge (ha : ∀ x ∈ a, x.Mergeable v kinds) (hb : ∀ y ∈ b, y.Mergeable v kinds) :
    ∀ z ∈ Option.merge applyMonotonically a b, z.Mergeable v kinds := by
  rcases a with _ | x <;> rcases b with _ | y
  · intro z hz
    cases hz
  · exact hb
  · exact ha
  · rintro z ⟨⟩
    exact (ha x rfl).applyMonotonically (hb y rfl)

theorem rel_equiv_refl (a : Option (DeletableRow n)) : Option.Rel Equiv a a := rel_refl Equiv.refl a

theorem rel_equiv_symm (h : Option.Rel Equiv a b) : Option.Rel Equiv b a := rel_symm (fun _ _ => Equiv.symm) h

theorem rel_equiv_trans (h : Option.Rel Equiv a b) (h' : Option.Rel Equiv b c) : Option.Rel Equiv a c :=
  rel_trans (fun _ _ _ => Equiv.trans) h h'

theorem merge_comm (ha : ∀ x ∈ a, x.Mergeable v kinds) (hb : ∀ y ∈ b, y.Mergeable v kinds) :
    Option.Rel Equiv (Option.merge applyMonotonically a b) (Option.merge applyMonotonically b a) := by
  rcases a with _ | x <;> rcases b with _ | y
  · exact .none
  · exact rel_equiv_refl _
  · exact rel_equiv_refl _
  · exact .some (applyMonotonically_comm (ha x rfl).valid (hb y rfl).valid)

theorem merge_assoc (ha : ∀ x ∈ a, x.Mergeable v kinds) (hb : ∀ y ∈ b, y.Mergeable v kinds)
    (hc : ∀ z ∈ c, z.Mergeable v kinds) :
    Option.Rel Equiv (Option.merge applyMonotonically (Option.merge applyMonotonically a b) c)
      (Option.merge applyMonotonically a (Option.merge applyMonotonically b c)) := by
  rcases a with _ | x <;> rcases b with _ | y <;> rcases c with _ | z
  -- Where a side is missing the two groupings merge the same rows.
  all_goals try exact rel_equiv_refl _
  have hx := ha x rfl
  have hy := hb y rfl
  have hz := hc z rfl
  exact .some (applyMonotonically_assoc hx.wellFormed hy.wellFormed hz.wellFormed hx.valid hy.valid hz.valid)

theorem merge_self (ha : ∀ x ∈ a, x.Mergeable v kinds) : Option.Rel Equiv (Option.merge applyMonotonically a a) a := by
  rcases a with _ | x
  · exact .none
  · exact .some (applyMonotonically_self (ha x rfl).wellFormed (ha x rfl).valid)

theorem merge_congr (h : Option.Rel Equiv a a') (h' : Option.Rel Equiv b b') (ha : ∀ x ∈ a, x.Mergeable v kinds)
    (hb : ∀ y ∈ b, y.Mergeable v kinds) (ha' : ∀ x ∈ a', x.Mergeable v kinds) (hb' : ∀ y ∈ b', y.Mergeable v kinds) :
    Option.Rel Equiv (Option.merge applyMonotonically a b) (Option.merge applyMonotonically a' b') := by
  cases h with
  | none =>
    cases h' with
    | none => exact .none
    | some hy => exact .some hy
  | some hx =>
    cases h' with
    | none => exact .some hx
    | some hy =>
      exact .some (hx.applyMonotonically hy (ha _ rfl).valid (hb _ rfl).valid (ha' _ rfl).valid (hb' _ rfl).valid)

theorem rel_equal_symm (h : Option.Rel (fun x y => x.equal y = true) a b) :
    Option.Rel (fun x y => x.equal y = true) b a :=
  rel_symm (fun _ _ => equal_symm) h

theorem rel_equal_trans (h : Option.Rel (fun x y => x.equal y = true) a b)
    (h' : Option.Rel (fun x y => x.equal y = true) b c) : Option.Rel (fun x y => x.equal y = true) a c :=
  rel_trans (fun _ _ _ => equal_trans) h h'

/-- What compaction leaves of the row at a position under the tombstone for its key: nothing when the row is left
empty, which mutation_partition::do_compact erases. -/
def compactOpt (s : Schema) (queryTime : Int64) (canGc : Tombstone → Bool → Bool) (gcBefore : Int64) (t : Tombstone)
    (o : Option (DeletableRow n)) : Option (DeletableRow n) :=
  o.bind fun r => if (r.compactAndExpire s t queryTime canGc gcBefore).1.isEmpty then none
    else some (r.compactAndExpire s t queryTime canGc gcBefore).1

section Compact

variable (s : Schema) (queryTime : Int64) (canGc : Tombstone → Bool → Bool) (gcBefore : Int64) (t : Tombstone)

/-- Rows whose compactions deletable_row::equal does not tell apart are both erased or both kept. -/
theorem rel_compactOpt_some {x y : DeletableRow n}
    (h : (x.compactAndExpire s t queryTime canGc gcBefore).1.equal (y.compactAndExpire s t queryTime canGc gcBefore).1 =
      true) :
    Option.Rel (fun x y => x.equal y = true) (compactOpt s queryTime canGc gcBefore t (some x))
      (compactOpt s queryTime canGc gcBefore t (some y)) := by
  simp only [compactOpt, Option.bind_some, isEmpty_eq_of_equal h]
  split_ifs
  · exact .none
  · exact .some h

theorem rel_compactOpt_of_equiv (h : Option.Rel Equiv a b) :
    Option.Rel (fun x y => x.equal y = true) (compactOpt s queryTime canGc gcBefore t a)
      (compactOpt s queryTime canGc gcBefore t b) := by
  cases h with
  | none => exact .none
  | some hxy => exact rel_compactOpt_some s queryTime canGc gcBefore t (hxy.compactAndExpire s t queryTime canGc gcBefore)

end Compact

end Optional

end DeletableRow

namespace Row

variable {n : Nat} {v : CounterId → Int64 → Int64} {kinds : Fin n → CellKind}

theorem valid_empty : (Row.empty : Row n).Valid v kinds := fun _ _ h => by cases h

/-- A row of atomic cells is valid for atomic columns; the condition evaluates. -/
theorem valid_atomic {r : Row n} (h : ∀ i, (r.cell i).all (fun c => decide (c.kind = .atomic)) = true) :
    r.Valid v fun _ => .atomic := by
  intro i c hc
  have hi := h i
  rw [hc] at hi
  cases c <;> simp_all [Cell.kind, Cell.Valid]

end Row

namespace RowsEntry

variable {P : Type} {n : Nat}

/-- A row entry the merge of partitions can take: its row is mergeable, and a dummy holds the empty row. -/
structure Mergeable (v : CounterId → Int64 → Int64) (kinds : Fin n → CellKind) (e : RowsEntry P n) : Prop where
  row : e.row.Mergeable v kinds
  dummy_empty : e.dummy = true → e.row = {}

variable {v : CounterId → Int64 → Int64} {kinds : Fin n → CellKind} {d e : RowsEntry P n}

theorem Mergeable.applyMonotonically (hd : d.Mergeable v kinds) (he : e.Mergeable v kinds) :
    (d.applyMonotonically e).Mergeable v kinds where
  row := hd.row.applyMonotonically he.row
  dummy_empty := by
    intro hdummy
    obtain ⟨hd', he'⟩ := Bool.and_eq_true_iff.1 hdummy
    show d.row.applyMonotonically e.row = {}
    rw [hd.dummy_empty hd', he.dummy_empty he', DeletableRow.empty_applyMonotonically_empty]

/-- A dummy with the empty row. -/
theorem mergeable_dummy (p : P) : ({ position := p, dummy := true } : RowsEntry P n).Mergeable v kinds :=
  ⟨⟨Row.valid_empty, DeletableRow.wellFormed_empty, le_rfl⟩, fun _ => rfl⟩

end RowsEntry

section Rows

variable {P : Type} [LinearOrder P] {n : Nat} {v : CounterId → Int64 → Int64} {kinds : Fin n → CellKind}

/-- What a position holds, a dummy apart. -/
def ndView (o : Option (Bool × DeletableRow n)) : Option (DeletableRow n) :=
  o.bind fun x => if x.1 = true then none else some x.2

@[simp] theorem ndView_none : ndView (none : Option (Bool × DeletableRow n)) = none := rfl

/-- The row at a position that is not a dummy. -/
def ndRow (rows : List (RowsEntry P n)) (p : P) : Option (DeletableRow n) := ndView (entryView rows p)

theorem ndRow_eq (rows : List (RowsEntry P n)) (p : P) :
    ndRow rows p = ((lookup RowsEntry.position rows p).filter (!·.dummy)).map RowsEntry.row := by
  simp only [ndRow, ndView, entryView]
  cases lookup RowsEntry.position rows p with
  | none => rfl
  | some e => cases h : e.dummy <;> simp [RowsEntry.view, Option.filter, h]

/-- The views of mergeable entries. -/
private def ViewMergeable (v : CounterId → Int64 → Int64) (kinds : Fin n → CellKind) (x : Bool × DeletableRow n) :
    Prop :=
  x.2.Mergeable v kinds ∧ (x.1 = true → x.2 = {})

private theorem viewMergeable_entryView {rows : List (RowsEntry P n)} (h : ∀ e ∈ rows, e.Mergeable v kinds) (p : P) :
    ∀ x ∈ entryView rows p, ViewMergeable v kinds x := by
  intro x hx
  obtain ⟨e, he, rfl⟩ := Option.mem_map.1 hx
  have hm := h e (mem_of_lookup he)
  exact ⟨hm.row, hm.dummy_empty⟩

private theorem mergeable_ndView {o : Option (Bool × DeletableRow n)} (h : ∀ x ∈ o, ViewMergeable v kinds x) :
    ∀ r ∈ ndView o, r.Mergeable v kinds := by
  rcases o with _ | ⟨_ | _, r⟩
  · intro r hr
    cases hr
  · rintro r ⟨⟩
    exact (h _ rfl).1
  · intro r hr
    cases hr

theorem mergeable_ndRow {rows : List (RowsEntry P n)} (h : ∀ e ∈ rows, e.Mergeable v kinds) (p : P) :
    ∀ r ∈ ndRow rows p, r.Mergeable v kinds :=
  mergeable_ndView (viewMergeable_entryView h p)

/-- Where the merge meets the entries of two positions, the rows that are not dummies merge: a dummy holds the
empty row, which adds nothing. -/
private theorem ndView_mergeView {x y : Bool × DeletableRow n} (hx : ViewMergeable v kinds x)
    (hy : ViewMergeable v kinds y) :
    Option.Rel DeletableRow.Equiv (ndView (some (mergeView x y)))
      (Option.merge DeletableRow.applyMonotonically (ndView (some x)) (ndView (some y))) := by
  obtain ⟨dx, rx⟩ := x
  obtain ⟨dy, ry⟩ := y
  obtain ⟨hx, hdx⟩ := hx
  obtain ⟨hy, hdy⟩ := hy
  cases dx <;> cases dy
  · exact .some (DeletableRow.Equiv.refl _)
  · -- The source entry is a dummy.
    have hry : ry = {} := hdy rfl
    rw [hry]
    exact .some (DeletableRow.applyMonotonically_empty hx.wellFormed.shadowed hx.empty_le
      (hx.empty_le.trans hx.wellFormed.regular_le))
  · have hrx : rx = {} := hdx rfl
    rw [hrx]
    exact .some (DeletableRow.empty_applyMonotonically hy.wellFormed.shadowed hy.empty_le
      (hy.empty_le.trans hy.wellFormed.regular_le))
  · exact .none

private theorem ndView_of_mergedAt {o a b : Option (Bool × DeletableRow n)} (h : MergedAt o a b)
    (ha : ∀ x ∈ a, ViewMergeable v kinds x) (hb : ∀ y ∈ b, ViewMergeable v kinds y) :
    Option.Rel DeletableRow.Equiv (ndView o) (Option.merge DeletableRow.applyMonotonically (ndView a) (ndView b)) := by
  rcases h with rfl | ⟨rfl, ⟨r, rfl⟩, rfl⟩
  · rcases a with _ | x <;> rcases b with _ | y
    · exact .none
    · simp only [Option.merge_none_left, ndView_none]
      exact DeletableRow.rel_equiv_refl _
    · simp only [Option.merge_none_right, ndView_none]
      exact DeletableRow.rel_equiv_refl _
    · exact ndView_mergeView (ha x rfl) (hb y rfl)
  · -- The source's dummy was dropped in a continuous range.
    exact .none

/-- At each position the merged rows hold the merge of the rows of the two sides that are not dummies. -/
theorem ndRow_mergeRows {dst src : List (RowsEntry P n)} (hd : Sorted RowsEntry.position dst)
    (hs : Sorted RowsEntry.position src) (hmd : ∀ e ∈ dst, e.Mergeable v kinds)
    (hms : ∀ e ∈ src, e.Mergeable v kinds) (p : P) :
    Option.Rel DeletableRow.Equiv (ndRow (mergeRows dst src) p)
      (Option.merge DeletableRow.applyMonotonically (ndRow dst p) (ndRow src p)) :=
  ndView_of_mergedAt (entryView_mergeRows hd hs p) (viewMergeable_entryView hmd p) (viewMergeable_entryView hms p)

/-- Rows without dummies merge position by position. -/
theorem ndRow_mergeRows_of_not_dummy {dst src : List (RowsEntry P n)} (hd : Sorted RowsEntry.position dst)
    (hs : Sorted RowsEntry.position src) (hnd : ∀ e ∈ dst, e.dummy = false) (hns : ∀ e ∈ src, e.dummy = false)
    (p : P) : ndRow (mergeRows dst src) p = Option.merge DeletableRow.applyMonotonically (ndRow dst p) (ndRow src p) := by
  have hview : ∀ rows : List (RowsEntry P n), (∀ e ∈ rows, e.dummy = false) →
      ∀ x ∈ entryView rows p, x.1 = false := by
    intro rows h x hx
    obtain ⟨e, he, rfl⟩ := Option.mem_map.1 hx
    exact h e (mem_of_lookup he)
  simp only [ndRow]
  rcases entryView_mergeRows hd hs p with h | ⟨-, ⟨r, hr⟩, -⟩
  · rw [h]
    rcases hx : entryView dst p with _ | ⟨dx, rx⟩ <;> rcases hy : entryView src p with _ | ⟨dy, ry⟩
    · rfl
    · obtain rfl : dy = false := hview src hns _ hy
      rfl
    · obtain rfl : dx = false := hview dst hnd _ hx
      rfl
    · obtain rfl : dx = false := hview dst hnd _ hx
      obtain rfl : dy = false := hview src hns _ hy
      rfl
  · -- The source holds no dummy to drop.
    exact absurd (hview src hns _ hr) Bool.true_eq_false.mp

end Rows

namespace MutationPartition

variable {P : Type} [LinearOrder P] {ns nr : Nat} {v : CounterId → Int64 → Int64} {ks : Fin ns → CellKind}
  {kr : Fin nr → CellKind}

/-- A partition the merge converges on: the static cells are of the kinds of the static columns, every row entry
is mergeable, and no two touching range tombstones carry one tombstone, as range_tombstone_list::apply leaves
them. -/
structure Mergeable (v : CounterId → Int64 → Int64) (ks : Fin ns → CellKind) (kr : Fin nr → CellKind)
    (p : MutationPartition P ns nr) : Prop where
  staticRow : p.staticRow.Valid v ks
  rows : ∀ e ∈ p.rows, e.Mergeable v kr
  rowTombstones : RangeTombstoneList.Canonical p.rowTombstones

variable {a b c : MutationPartition P ns nr}

theorem Mergeable.applyMonotonically (ha : a.Mergeable v ks kr) (hb : b.Mergeable v ks kr) :
    (a.applyMonotonically b).Mergeable v ks kr where
  staticRow := ha.staticRow.applyMonotonically hb.staticRow
  rows := forall_mem_mergeRows (fun _ _ => RowsEntry.Mergeable.applyMonotonically) (fun _ h => ⟨h.row, h.dummy_empty⟩)
    ha.rows hb.rows
  rowTombstones := (RangeTombstoneList.applyMonotonically_spec ha.rowTombstones.valid _).2.2 ha.rowTombstones

theorem Mergeable.ndRow (ha : a.Mergeable v ks kr) (p : P) : ∀ r ∈ Scylla.ndRow a.rows p, r.Mergeable v kr :=
  mergeable_ndRow ha.rows p

/-- Partitions that compaction maps to partitions mutation_partition::equal does not tell apart. -/
structure Equiv (a b : MutationPartition P ns nr) : Prop where
  tombstone_eq : a.tombstone = b.tombstone
  staticRow_norm : a.staticRow.norm = b.staticRow.norm
  rowTombstones_eq : a.rowTombstones = b.rowTombstones
  rows : ∀ p, Option.Rel DeletableRow.Equiv (ndRow a.rows p) (ndRow b.rows p)

/-! ### Compaction of equivalent partitions -/

section Compaction

variable (s : Schema) (queryTime : Int64) (canGc : Tombstone → Bool → Bool) (gcBefore : Int64)

/-- The rows compaction leaves at a position, dummies apart: the row compacted under the tombstone for its key,
unless it is left empty. -/
theorem lookup_compactForCompaction (a : MutationPartition P ns nr) (q : P) :
    (lookup RowsEntry.position ((a.compactForCompaction s queryTime canGc gcBefore).rows.filter (!·.dummy)) q).map
        RowsEntry.row =
      DeletableRow.compactOpt s queryTime canGc gcBefore (a.rangeTombstoneForRow q) (ndRow a.rows q) := by
  have hkey : ∀ e y, a.compactEntry s queryTime canGc gcBefore e = some y → y.position = e.position := by
    intro e y h
    simp only [compactEntry] at h
    split_ifs at h <;> cases h <;> rfl
  show (lookup _ ((a.rows.filterMap (a.compactEntry s queryTime canGc gcBefore)).filter _) q).map _ = _
  rw [lookup_filter _ (a.rows_sorted.filterMap hkey), lookup_filterMap hkey a.rows_sorted, ndRow_eq]
  cases hl : lookup RowsEntry.position a.rows q with
  | none => rfl
  | some e =>
    have hq := key_of_lookup hl
    subst hq
    cases hd : e.dummy
    · by_cases he : (e.row.compactAndExpire s (a.rangeTombstoneForRow e.position) queryTime canGc gcBefore).1.isEmpty
        <;> simp [compactEntry, DeletableRow.compactOpt, Option.filter, hd, he]
    · -- compactEntry leaves a dummy a dummy.
      by_cases he : e.row.isEmpty <;> simp [compactEntry, DeletableRow.compactOpt, Option.filter, hd, he]

/-- Entries of one position whose rows deletable_row::equal does not tell apart. -/
private theorem rel_entry_of_rel_row {q : P} {oa ob : Option (RowsEntry P nr)} (hqa : ∀ e ∈ oa, e.position = q)
    (hqb : ∀ e ∈ ob, e.position = q)
    (h : Option.Rel (fun x y => x.equal y = true) (oa.map RowsEntry.row) (ob.map RowsEntry.row)) :
    Option.Rel (fun e e' : RowsEntry P nr => (decide (e.position = e'.position) && e.row.equal e'.row) = true) oa ob := by
  rcases oa with _ | ea <;> rcases ob with _ | eb
  · exact .none
  · cases h
  · cases h
  · have hpos : ea.position = eb.position := (hqa ea rfl).trans (hqb eb rfl).symm
    exact .some (by simp [hpos, Option.rel_some_some.1 h])

/-- Compactions that leave one partition tombstone, one static row and one list of range tombstones, and at each
position rows that deletable_row::equal does not tell apart, are equal. -/
theorem equal_compactForCompaction_of
    (ht : (a.compactForCompaction s queryTime canGc gcBefore).tombstone =
      (b.compactForCompaction s queryTime canGc gcBefore).tombstone)
    (hs : (a.compactForCompaction s queryTime canGc gcBefore).staticRow =
      (b.compactForCompaction s queryTime canGc gcBefore).staticRow)
    (hrt : (a.compactForCompaction s queryTime canGc gcBefore).rowTombstones =
      (b.compactForCompaction s queryTime canGc gcBefore).rowTombstones)
    (hrows : ∀ q, Option.Rel (fun x y => x.equal y = true)
      (DeletableRow.compactOpt s queryTime canGc gcBefore (a.rangeTombstoneForRow q) (ndRow a.rows q))
      (DeletableRow.compactOpt s queryTime canGc gcBefore (b.rangeTombstoneForRow q) (ndRow b.rows q))) :
    (a.compactForCompaction s queryTime canGc gcBefore).equal (b.compactForCompaction s queryTime canGc gcBefore) =
      true := by
  have hq : ∀ (x : MutationPartition P ns nr) (q : P), ∀ e ∈ lookup RowsEntry.position
      ((x.compactForCompaction s queryTime canGc gcBefore).rows.filter (!·.dummy)) q, e.position = q :=
    fun x q e he => key_of_lookup he
  simp only [equal, Bool.and_eq_true]
  refine ⟨⟨⟨by rw [ht]; exact beq_self_eq_true _, ?_⟩, ?_⟩, ?_⟩
  · refine isEqv_of_forall₂ (forall₂_of_lookup (Sorted.filter _ (compactForCompaction ..).rows_sorted)
      (Sorted.filter _ (compactForCompaction ..).rows_sorted) fun q => ?_)
    refine rel_entry_of_rel_row (hq a q) (hq b q) ?_
    rw [lookup_compactForCompaction, lookup_compactForCompaction]
    exact hrows q
  · rw [hrt]
    exact isEqv_self fun rt _ => by simp
  · rw [hs]
    exact Row.equal_self _

/-- Compaction with any parameters maps equivalent partitions to partitions mutation_partition::equal does not
tell apart. -/
theorem Equiv.equal_compactForCompaction (h : Equiv a b) :
    (a.compactForCompaction s queryTime canGc gcBefore).equal (b.compactForCompaction s queryTime canGc gcBefore) =
      true := by
  have ht : a.rangeTombstoneForRow = b.rangeTombstoneForRow := by
    funext q
    simp only [rangeTombstoneForRow, h.tombstone_eq, h.rowTombstones_eq]
  have hstatic : a.staticRow.compactAndExpire = b.staticRow.compactAndExpire := by
    rw [← Row.compactAndExpire_norm', h.staticRow_norm, Row.compactAndExpire_norm']
  refine equal_compactForCompaction_of s queryTime canGc gcBefore ?_ ?_ ?_ fun q => ?_
  · simp [compactForCompaction, h.tombstone_eq]
  · simp only [compactForCompaction, hstatic, h.tombstone_eq]
  · simp only [compactForCompaction, h.rowTombstones_eq, h.tombstone_eq]
  · rw [ht]
    exact DeletableRow.rel_compactOpt_of_equiv s queryTime canGc gcBefore _ (h.rows q)

/-- With a partition tombstone not below tombstone(), the tombstone for a row's key is the larger of it and what the
range tombstones cover the key with. -/
theorem rangeTombstoneForRow_eq (a : MutationPartition P ns nr) (h : Tombstone.empty ≤ a.tombstone) (q : P) :
    a.rangeTombstoneForRow q =
      max a.tombstone ((RangeTombstoneList.covering a.rowTombstones q).unbotD Tombstone.empty) := by
  unfold rangeTombstoneForRow
  split_ifs with he
  · rw [List.isEmpty_iff.1 he, RangeTombstoneList.covering_nil]
    exact (max_eq_left h).symm
  · rw [Tombstone.apply_eq_max, RangeTombstoneList.searchTombstoneCovering_eq a.rowTombstones_valid]

end Compaction

/-! ### The laws -/

theorem ndRow_applyMonotonically (ha : a.Mergeable v ks kr) (hb : b.Mergeable v ks kr) (p : P) :
    Option.Rel DeletableRow.Equiv (ndRow (a.applyMonotonically b).rows p)
      (Option.merge DeletableRow.applyMonotonically (ndRow a.rows p) (ndRow b.rows p)) :=
  ndRow_mergeRows a.rows_sorted b.rows_sorted ha.rows hb.rows p

theorem applyMonotonically_comm (ha : a.Mergeable v ks kr) (hb : b.Mergeable v ks kr) :
    Equiv (a.applyMonotonically b) (b.applyMonotonically a) where
  tombstone_eq := by simp only [applyMonotonically, Tombstone.apply_eq_max, max_comm]
  staticRow_norm := Row.norm_applyMonotonically_comm ha.staticRow hb.staticRow
  rowTombstones_eq := RangeTombstoneList.applyMonotonically_comm ha.rowTombstones hb.rowTombstones
  rows p := by
    -- Through the merge of what the two sides hold at `p`, in either order.
    refine DeletableRow.rel_equiv_trans (ndRow_applyMonotonically ha hb p) ?_
    refine DeletableRow.rel_equiv_trans (DeletableRow.merge_comm (ha.ndRow p) (hb.ndRow p)) ?_
    exact DeletableRow.rel_equiv_symm (ndRow_applyMonotonically hb ha p)

theorem applyMonotonically_assoc (ha : a.Mergeable v ks kr) (hb : b.Mergeable v ks kr) (hc : c.Mergeable v ks kr) :
    Equiv ((a.applyMonotonically b).applyMonotonically c) (a.applyMonotonically (b.applyMonotonically c)) where
  tombstone_eq := by simp only [applyMonotonically, Tombstone.apply_eq_max, max_assoc]
  staticRow_norm := Row.norm_applyMonotonically_assoc ha.staticRow hb.staticRow hc.staticRow
  rowTombstones_eq := RangeTombstoneList.applyMonotonically_assoc ha.rowTombstones hb.rowTombstones _
  rows p := by
    have hab := ha.applyMonotonically hb
    have hbc := hb.applyMonotonically hc
    -- Each grouping holds, up to equivalence, the merge of the three rows at `p` in that grouping.
    have hl : Option.Rel DeletableRow.Equiv (ndRow ((a.applyMonotonically b).applyMonotonically c).rows p)
        (Option.merge DeletableRow.applyMonotonically
          (Option.merge DeletableRow.applyMonotonically (ndRow a.rows p) (ndRow b.rows p)) (ndRow c.rows p)) :=
      DeletableRow.rel_equiv_trans (ndRow_applyMonotonically hab hc p)
        (DeletableRow.merge_congr (ndRow_applyMonotonically ha hb p) (DeletableRow.rel_equiv_refl _) (hab.ndRow p)
          (hc.ndRow p) (DeletableRow.mergeable_merge (ha.ndRow p) (hb.ndRow p)) (hc.ndRow p))
    have hr : Option.Rel DeletableRow.Equiv (ndRow (a.applyMonotonically (b.applyMonotonically c)).rows p)
        (Option.merge DeletableRow.applyMonotonically (ndRow a.rows p)
          (Option.merge DeletableRow.applyMonotonically (ndRow b.rows p) (ndRow c.rows p))) :=
      DeletableRow.rel_equiv_trans (ndRow_applyMonotonically ha hbc p)
        (DeletableRow.merge_congr (DeletableRow.rel_equiv_refl _) (ndRow_applyMonotonically hb hc p) (ha.ndRow p)
          (hbc.ndRow p) (ha.ndRow p) (DeletableRow.mergeable_merge (hb.ndRow p) (hc.ndRow p)))
    exact DeletableRow.rel_equiv_trans hl (DeletableRow.rel_equiv_trans
      (DeletableRow.merge_assoc (ha.ndRow p) (hb.ndRow p) (hc.ndRow p)) (DeletableRow.rel_equiv_symm hr))

theorem applyMonotonically_self (ha : a.Mergeable v ks kr) : Equiv (a.applyMonotonically a) a where
  tombstone_eq := by simp only [applyMonotonically, Tombstone.apply_eq_max, max_self]
  staticRow_norm := Row.norm_applyMonotonically_self ha.staticRow
  rowTombstones_eq := RangeTombstoneList.applyMonotonically_self ha.rowTombstones
  rows p := DeletableRow.rel_equiv_trans (ndRow_applyMonotonically ha ha p) (DeletableRow.merge_self (ha.ndRow p))

end MutationPartition

end Scylla
