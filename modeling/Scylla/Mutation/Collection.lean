import Mathlib
import Scylla.Mutation.MergeOrder
import Scylla.Lib.Combine

/-!
# Collection mutations

The cell of a collection column, or of a non-frozen user type, is a collection_mutation
(`mutation/collection_mutation.cc`): a collection tombstone and atomic cells sorted by key, in the
order of the type's name comparator.

* `merge` keeps the larger tombstone and, for each key, the larger of the cells that the other
  side's tombstone leaves; the tombstone wins a tie of timestamps, unlike a row tombstone;
* `compactAndExpire` drops the cells that the collection tombstone or the row tombstone covers, and
  the collection tombstone that the row tombstone covers or that may be purged;
* `difference` keeps what one collection adds to another.

A merge filters each side by the other's tombstone but never by its own, so a collection is known
up to the cells its own tombstone covers (`norm`).  On normal forms the merge is commutative,
associative and idempotent (`norm_merge_comm`, `norm_merge_assoc`, `norm_merge_self`), and the
compaction does not tell a collection from its normal form (`compactAndExpire_norm`).
-/

namespace Scylla

/-- collection_mutation as collection_mutation_writer serializes it: the tombstone is written only
when it has a timestamp, so one without a timestamp reads back as tombstone(). -/
structure CollectionMutation (K : Type) where
  tomb : Tombstone
  cells : List (K × AtomicCell)
  tomb_eq_empty : tomb.timestamp = missingTimestamp → tomb = Tombstone.empty
  deriving DecidableEq

namespace CollectionMutation

variable {K : Type}

/-- collection_mutation_writer -/
def writer (t : Tombstone) (cells : List (K × AtomicCell)) : CollectionMutation K where
  tomb := if t.timestamp = missingTimestamp then Tombstone.empty else t
  cells := cells
  tomb_eq_empty := by split <;> simp_all

/-- collection_mutation_view::empty: no tombstone and no cells. -/
def isEmpty (m : CollectionMutation K) : Bool := m.tomb.timestamp == missingTimestamp && m.cells.isEmpty

/-- The filter of merge: a cell stays unless the tombstone has a timestamp at least the cell's. -/
def survives (t : Tombstone) (e : K × AtomicCell) : Bool :=
  t.timestamp == missingTimestamp || decide (t.timestamp < e.2.timestamp)

/-- The merge of the cells of one key: the first if it wins, else the second. -/
def mergeCell (e₁ e₂ : K × AtomicCell) : K × AtomicCell :=
  (e₁.1, if compareAtomicCellForMerge e₁.2 e₂.2 = .gt then e₁.2 else e₂.2)

/-- The tombstone the compaction keeps and the one it purges. -/
def compactTomb (m : CollectionMutation K) (baseTomb : RowTombstone) (canGc : Tombstone → Bool → Bool)
    (gcBefore : Int64) : Tombstone × Tombstone :=
  if m.tomb ≤ baseTomb.regular then (Tombstone.empty, Tombstone.empty)
  -- The collection tombstone is never shadowable.
  else if decide (m.tomb.deletionTime < gcBefore) && canGc m.tomb false then (Tombstone.empty, m.tomb)
  else (m.tomb, Tombstone.empty)

/-- The row tombstone the cells are compacted under: the collection tombstone applied to the
regular one. -/
def cellTomb (m : CollectionMutation K) (baseTomb : RowTombstone) : RowTombstone :=
  ⟨max m.tomb baseTomb.regular, baseTomb.shadowable⟩

/-- What compact_and_expire leaves of a collection, whether a live cell stays, and the collection
it hands to the garbage collector. -/
structure CollectionCompaction (K : Type) where
  survivors : CollectionMutation K
  isLive : Bool
  losers : CollectionMutation K

/-- compact_and_expire(collection_mutation_view, ..., row_tombstone base_tomb, ...) -/
def compactAndExpire (m : CollectionMutation K) (baseTomb : RowTombstone) (queryTime : Int64)
    (canGc : Tombstone → Bool → Bool) (gcBefore : Int64) : CollectionCompaction K :=
  let tombs := m.compactTomb baseTomb canGc gcBefore
  let compacted := fun e : K × AtomicCell =>
    (e.2.compactAndExpire (m.cellTomb baseTomb) queryTime canGc gcBefore).map (e.1, ·)
  ⟨writer tombs.1 (m.cells.filterMap fun e => (compacted e).kept),
    m.cells.any fun e => (compacted e).isLive,
    writer tombs.2 (m.cells.filterMap fun e => (compacted e).collected)⟩

/-- The collection without the cells its own tombstone covers. -/
def norm (m : CollectionMutation K) : CollectionMutation K :=
  ⟨m.tomb, m.cells.filter (survives m.tomb), m.tomb_eq_empty⟩

/-! ## Normal forms -/

variable {a b c m : CollectionMutation K} {t u : Tombstone} {e e₁ e₂ : K × AtomicCell}

@[simp] theorem norm_tomb (m : CollectionMutation K) : m.norm.tomb = m.tomb := rfl

@[simp] theorem norm_cells (m : CollectionMutation K) : m.norm.cells = m.cells.filter (survives m.tomb) := rfl

@[simp] theorem norm_norm (m : CollectionMutation K) : m.norm.norm = m.norm := by
  simp only [norm, List.filter_filter, Bool.and_self]

theorem writer_tomb_of_eq (h : t.timestamp = missingTimestamp → t = Tombstone.empty) (cells : List (K × AtomicCell)) :
    (writer t cells).tomb = t := by
  by_cases ht : t.timestamp = missingTimestamp
  · simp [writer, h ht]
  · simp [writer, ht]

theorem max_tomb_eq (a b : CollectionMutation K) :
    (max a.tomb b.tomb).timestamp = missingTimestamp → max a.tomb b.tomb = Tombstone.empty := by
  rcases le_total a.tomb b.tomb with h | h
  · rw [max_eq_right h]
    exact b.tomb_eq_empty
  · rw [max_eq_left h]
    exact a.tomb_eq_empty

theorem mergeCell_eq (e₁ e₂ : K × AtomicCell) :
    mergeCell e₁ e₂ = (e₁.1, MaxMerge.mergeBy compareAtomicCellForMerge e₁.2 e₂.2) := by
  rw [mergeCell, AtomicCell.ite_gt_eq_mergeBy]

@[simp] theorem fst_mergeCell (e₁ e₂ : K × AtomicCell) : (mergeCell e₁ e₂).1 = e₁.1 := rfl

private theorem fst_mergeCell_of_eq (e₁ e₂ : K × AtomicCell) (_ : e₂.1 = e₁.1) : (mergeCell e₁ e₂).1 = e₁.1 := rfl

theorem empty_le_tomb (m : CollectionMutation K) : Tombstone.empty ≤ m.tomb := by
  by_cases h : m.tomb.timestamp = missingTimestamp
  · rw [m.tomb_eq_empty h]
  · exact (Tombstone.lt_of_timestamp_lt (Int64.lt_of_le_of_ne (Int64.minValue_le _) (Ne.symm h))).le

theorem writer_self (m : CollectionMutation K) : writer m.tomb m.cells = m := by
  obtain ⟨t, cells, h⟩ := m
  simp only [writer, mk.injEq, and_true]
  split
  · next ht => exact (h ht).symm
  · rfl

@[simp] theorem survives_empty (e : K × AtomicCell) : survives Tombstone.empty e = true := by
  simp [survives, Tombstone.empty]

theorem eq_of_isEmpty {m : CollectionMutation K} (h : m.isEmpty = true) : m.tomb = Tombstone.empty ∧ m.cells = [] := by
  simp only [isEmpty, Bool.and_eq_true, beq_iff_eq, List.isEmpty_iff] at h
  exact ⟨m.tomb_eq_empty h.1, h.2⟩

/-! ### Survival -/

theorem survives_iff : survives t e = true ↔ t.timestamp = missingTimestamp ∨ t.timestamp < e.2.timestamp := by
  simp [survives]

/-- A cell at least as new survives whatever another survives. -/
theorem survives_of_timestamp_le (h : e₁.2.timestamp ≤ e₂.2.timestamp) (h₁ : survives t e₁ = true) :
    survives t e₂ = true := by
  rw [survives_iff] at h₁ ⊢
  exact h₁.imp_right fun h' => Int64.lt_of_lt_of_le h' h

theorem survives_max (t u : Tombstone) (e : K × AtomicCell) :
    survives (max t u) e = (survives t e && survives u e) := by
  -- A larger tombstone has a larger timestamp, and none below missing_timestamp.
  have hmono : ∀ {t u : Tombstone}, t ≤ u → survives u e = true → survives t e = true := by
    intro t u htu hu
    rw [survives_iff] at hu ⊢
    rcases hu with hu | hu
    · have hle := Tombstone.timestamp_le_of_le htu
      rw [hu] at hle
      exact .inl (Int64.le_antisymm hle (Int64.minValue_le _))
    · exact .inr (Int64.lt_of_le_of_lt (Tombstone.timestamp_le_of_le htu) hu)
  rcases le_total t u with h | h
  · rw [max_eq_right h]
    cases hu : survives u e
    · simp
    · simp [hmono h hu]
  · rw [max_eq_left h]
    cases ht : survives t e
    · simp
    · simp [hmono h ht]

theorem survives_of_le (htu : t ≤ u) (h : survives u e = true) : survives t e = true := by
  have := survives_max t u e
  rw [max_eq_right htu, h] at this
  exact (Bool.and_eq_true_iff.1 this.symm).1

theorem survives_mergeCell (t : Tombstone) (e₁ e₂ : K × AtomicCell) :
    survives t (mergeCell e₁ e₂) = (survives t e₁ || survives t e₂) := by
  rw [mergeCell_eq]
  cases h₁ : survives t e₁ <;> cases h₂ : survives t e₂
  · -- The merged cell is one of the two.
    rcases MaxMerge.mergeBy_eq_or compareAtomicCellForMerge e₁.2 e₂.2 with h | h
    · simpa [survives, h] using h₁
    · simpa [survives, h] using h₂
  · exact survives_of_timestamp_le (AtomicCell.timestamp_le_mergeBy_right e₁.2 e₂.2) h₂
  · exact survives_of_timestamp_le (AtomicCell.timestamp_le_mergeBy_left e₁.2 e₂.2) h₁
  · exact survives_of_timestamp_le (AtomicCell.timestamp_le_mergeBy_left e₁.2 e₂.2) h₁

theorem mergeCell_of_survives (h₁ : survives t e₁ = true) (h₂ : survives t e₂ = false) :
    mergeCell e₁ e₂ = e₁ := by
  rw [survives_iff] at h₁
  simp only [survives, Bool.or_eq_false_iff, beq_eq_false_iff_ne, decide_eq_false_iff_not] at h₂
  have hlt : e₂.2.timestamp < e₁.2.timestamp :=
    Int64.lt_of_le_of_lt (Int64.not_lt.1 h₂.2) (h₁.resolve_left h₂.1)
  rw [mergeCell_eq, AtomicCell.mergeBy_of_timestamp_lt hlt]

theorem mergeCell_of_survives' (hk : e₂.1 = e₁.1) (h₁ : survives t e₁ = false) (h₂ : survives t e₂ = true) :
    mergeCell e₁ e₂ = e₂ := by
  rw [survives_iff] at h₂
  simp only [survives, Bool.or_eq_false_iff, beq_eq_false_iff_ne, decide_eq_false_iff_not] at h₁
  have hlt : e₁.2.timestamp < e₂.2.timestamp :=
    Int64.lt_of_le_of_lt (Int64.not_lt.1 h₁.2) (h₂.resolve_left h₁.1)
  rw [mergeCell_eq, AtomicCell.mergeBy_of_timestamp_lt' hlt]
  exact Prod.ext hk.symm rfl

/-- Filtering by a tombstone commutes with the merge of one key's cells. -/
theorem filter_merge_survives (x y : Option (K × AtomicCell))
    (hxy : ∀ e₁ ∈ x, ∀ e₂ ∈ y, e₂.1 = e₁.1) (t : Tombstone) :
    (Option.merge mergeCell x y).filter (survives t) =
      Option.merge mergeCell (x.filter (survives t)) (y.filter (survives t)) :=
  KeyedList.filter_merge (fun e₁ _ e₂ _ => survives_mergeCell t e₁ e₂)
    (fun _ _ _ _ h₁ h₂ => mergeCell_of_survives h₁ h₂)
    (fun e₁ h₁ e₂ h₂ => mergeCell_of_survives' (hxy e₁ h₁ e₂ h₂))

theorem filter_filter_survives (x : Option (K × AtomicCell)) (htu : t ≤ u) :
    (x.filter (survives t)).filter (survives u) = x.filter (survives u) := by
  cases x with
  | none => rfl
  | some e =>
    by_cases hu : survives u e = true
    · simp [Option.filter, hu, survives_of_le htu hu]
    · cases ht : survives t e <;> simp [Option.filter, hu, ht]

theorem mergeCell_comm (hk : e₂.1 = e₁.1) : mergeCell e₁ e₂ = mergeCell e₂ e₁ := by
  rw [mergeCell_eq, mergeCell_eq, hk,
    MaxMerge.mergeBy_comm AtomicCell.compareAtomicCellForMerge_orderedBy AtomicCell.key_injective]

theorem mergeCell_assoc (e₁ e₂ e₃ : K × AtomicCell) :
    mergeCell (mergeCell e₁ e₂) e₃ = mergeCell e₁ (mergeCell e₂ e₃) := by
  simp only [mergeCell_eq,
    MaxMerge.mergeBy_assoc AtomicCell.compareAtomicCellForMerge_orderedBy AtomicCell.key_injective]

theorem mergeCell_self (e : K × AtomicCell) : mergeCell e e = e := by
  rw [mergeCell_eq, MaxMerge.mergeBy_self AtomicCell.compareAtomicCellForMerge_orderedBy]

private theorem merge_opt_comm (x y : Option (K × AtomicCell)) (hxy : ∀ e₁ ∈ x, ∀ e₂ ∈ y, e₂.1 = e₁.1) :
    Option.merge mergeCell x y = Option.merge mergeCell y x := by
  cases x with
  | none => cases y <;> rfl
  | some e₁ =>
    cases y with
    | none => rfl
    | some e₂ => exact congrArg some (mergeCell_comm (hxy e₁ rfl e₂ rfl))

private theorem merge_opt_assoc (x y z : Option (K × AtomicCell)) :
    Option.merge mergeCell (Option.merge mergeCell x y) z = Option.merge mergeCell x (Option.merge mergeCell y z) := by
  cases x <;> cases y <;> cases z <;> simp [Option.merge, mergeCell_assoc]

private theorem merge_opt_self (x : Option (K × AtomicCell)) : Option.merge mergeCell x x = x := by
  cases x <;> simp [Option.merge, mergeCell_self]

/-! ### Compaction of normal forms -/

/-- The compaction removes every cell the collection's own tombstone covers. -/
theorem compactAndExpire_of_survives_eq_false (m : CollectionMutation K) (baseTomb : RowTombstone)
    (queryTime : Int64) (canGc : Tombstone → Bool → Bool) (gcBefore : Int64) {e : K × AtomicCell}
    (h : survives m.tomb e = false) :
    e.2.compactAndExpire (m.cellTomb baseTomb) queryTime canGc gcBefore = ⟨none, false, none⟩ := by
  simp only [survives, Bool.or_eq_false_iff, beq_eq_false_iff_ne, decide_eq_false_iff_not] at h
  -- The cell is no newer than the collection tombstone, hence than the tombstone it is compacted under.
  have hle : e.2.timestamp ≤ (m.cellTomb baseTomb).regular.timestamp :=
    Int64.le_trans (Int64.not_lt.1 h.2) (Tombstone.timestamp_le_of_le (le_max_left _ _))
  simp [AtomicCell.compactAndExpire, compactAtomic, AtomicView.isCoveredBy, AtomicCell.view, hle]

@[simp] theorem norm_compactTomb (m : CollectionMutation K) (baseTomb : RowTombstone)
    (canGc : Tombstone → Bool → Bool) (gcBefore : Int64) :
    m.norm.compactTomb baseTomb canGc gcBefore = m.compactTomb baseTomb canGc gcBefore := rfl

@[simp] theorem norm_cellTomb (m : CollectionMutation K) (baseTomb : RowTombstone) :
    m.norm.cellTomb baseTomb = m.cellTomb baseTomb := rfl

/-- The compaction does not tell a collection from its normal form. -/
theorem compactAndExpire_norm (m : CollectionMutation K) (baseTomb : RowTombstone) (queryTime : Int64)
    (canGc : Tombstone → Bool → Bool) (gcBefore : Int64) :
    m.norm.compactAndExpire baseTomb queryTime canGc gcBefore = m.compactAndExpire baseTomb queryTime canGc gcBefore := by
  have hnone := fun e => compactAndExpire_of_survives_eq_false m baseTomb queryTime canGc gcBefore (e := e)
  simp only [compactAndExpire, norm_cells, norm_cellTomb, norm_compactTomb, List.filterMap_filter, List.any_filter]
  congr 1
  · congr 1
    refine List.filterMap_congr fun e _ => ?_
    cases hs : survives m.tomb e <;> simp [hnone, hs, CellCompaction.map]
  · refine List.any_congr rfl fun e => ?_
    cases hs : survives m.tomb e <;> simp [hnone, hs, CellCompaction.map]
  · congr 1
    refine List.filterMap_congr fun e _ => ?_
    cases hs : survives m.tomb e <;> simp [hnone, hs, CellCompaction.map]

/-- Two collections compact alike without purging when their tombstones compact alike and the cells
of one are those of the other, each replaced by a cell that compacts as it does or dropped where it
compacts to nothing. -/
theorem compactAndExpire_of_filterMap {m m' : CollectionMutation K} {baseTomb : RowTombstone} {queryTime : Int64}
    {canGc : Tombstone → Bool → Bool} {gcBefore : Int64} {φ : K × AtomicCell → Option (K × AtomicCell)}
    (htomb : m'.compactTomb baseTomb canGc gcBefore = m.compactTomb baseTomb canGc gcBefore)
    (hcell : m'.cellTomb baseTomb = m.cellTomb baseTomb) (hcells : m'.cells = m.cells.filterMap φ)
    (hsome : ∀ e y, φ e = some y → y.1 = e.1 ∧
      y.2.compactAndExpire (m.cellTomb baseTomb) queryTime canGc gcBefore =
        e.2.compactAndExpire (m.cellTomb baseTomb) queryTime canGc gcBefore)
    (hnone : ∀ e, φ e = none →
      e.2.compactAndExpire (m.cellTomb baseTomb) queryTime canGc gcBefore = ⟨none, false, none⟩) :
    m'.compactAndExpire baseTomb queryTime canGc gcBefore = m.compactAndExpire baseTomb queryTime canGc gcBefore := by
  simp only [compactAndExpire, htomb, hcell, hcells, List.filterMap_filterMap, List.any_filterMap]
  -- Each cell of `m` compacts as what `φ` makes of it.
  congr 1
  · congr 1
    refine List.filterMap_congr fun e _ => ?_
    cases h : φ e with
    | none => simp [hnone e h, CellCompaction.map]
    | some y =>
      obtain ⟨hk, hc⟩ := hsome e y h
      simp [hk, hc, CellCompaction.map]
  · refine List.any_congr rfl fun e => ?_
    cases h : φ e with
    | none => simp [hnone e h, CellCompaction.map]
    | some y =>
      obtain ⟨-, hc⟩ := hsome e y h
      simp [hc, CellCompaction.map]
  · congr 1
    refine List.filterMap_congr fun e _ => ?_
    cases h : φ e with
    | none => simp [hnone e h, CellCompaction.map]
    | some y =>
      obtain ⟨hk, hc⟩ := hsome e y h
      simp [hk, hc, CellCompaction.map]

/-! ## Merges of sorted collections -/

variable [LinearOrder K]

/-- merge(collection_mutation_view, collection_mutation_view, key_type) -/
def merge (a b : CollectionMutation K) : CollectionMutation K :=
  writer (max a.tomb b.tomb)
    (Combine.combine (fun e₁ e₂ => decide (e₁.1 < e₂.1)) mergeCell
      (a.cells.filter (survives b.tomb)) (b.cells.filter (survives a.tomb)))

/-- difference(collection_mutation_view, collection_mutation_view, key_type): the tombstone of `a`
if it is the larger, and the cells of `a` that `b` lacks or that win against `b`'s. -/
def difference (a b : CollectionMutation K) : CollectionMutation K :=
  writer (if b.tomb < a.tomb then a.tomb else Tombstone.empty)
    (a.cells.filter fun c => match KeyedList.lookup Prod.fst b.cells c.1 with
      | none => true
      | some e => compareAtomicCellForMerge c.2 e.2 == .gt)

/-- The cells are sorted by key. -/
def Sorted (m : CollectionMutation K) : Prop := KeyedList.Sorted Prod.fst m.cells

private theorem lt_iff_fst (e₁ e₂ : K × AtomicCell) : decide (e₁.1 < e₂.1) = true ↔ e₁.1 < e₂.1 :=
  decide_eq_true_iff

/-- A merge with an empty collection leaves the other. -/
theorem merge_of_isEmpty_right {a b : CollectionMutation K} (hb : b.isEmpty = true) : a.merge b = a := by
  obtain ⟨ht, hc⟩ := eq_of_isEmpty hb
  have hf : a.cells.filter (survives Tombstone.empty) = a.cells := List.filter_eq_self.2 fun e _ => survives_empty e
  rw [merge, ht, hc, max_eq_left a.empty_le_tomb, hf, List.filter_nil, Combine.combine_nil_right, writer_self]

theorem merge_of_isEmpty_left {a b : CollectionMutation K} (ha : a.isEmpty = true) : a.merge b = b := by
  obtain ⟨ht, hc⟩ := eq_of_isEmpty ha
  have hf : b.cells.filter (survives Tombstone.empty) = b.cells := List.filter_eq_self.2 fun e _ => survives_empty e
  rw [merge, ht, hc, max_eq_right b.empty_le_tomb, hf, List.filter_nil, Combine.combine, writer_self]

@[simp] theorem merge_tomb (a b : CollectionMutation K) : (a.merge b).tomb = max a.tomb b.tomb :=
  writer_tomb_of_eq (max_tomb_eq a b) _

/-! ### Lookups of a merge -/

theorem Sorted.filter (p : K × AtomicCell → Bool) (h : m.Sorted) : KeyedList.Sorted Prod.fst (m.cells.filter p) :=
  KeyedList.Sorted.filter p h

@[simp] theorem merge_cells (a b : CollectionMutation K) :
    (a.merge b).cells = Combine.combine (fun e₁ e₂ => decide (e₁.1 < e₂.1)) mergeCell
      (a.cells.filter (survives b.tomb)) (b.cells.filter (survives a.tomb)) := rfl

theorem sorted_merge (ha : a.Sorted) (hb : b.Sorted) : (a.merge b).Sorted :=
  Combine.sorted_combine lt_iff_fst fst_mergeCell_of_eq (ha.filter _) (hb.filter _)

theorem lookup_merge (ha : a.Sorted) (hb : b.Sorted) (k : K) :
    KeyedList.lookup Prod.fst (a.merge b).cells k =
      Option.merge mergeCell ((KeyedList.lookup Prod.fst a.cells k).filter (survives b.tomb))
        ((KeyedList.lookup Prod.fst b.cells k).filter (survives a.tomb)) := by
  rw [merge_cells, Combine.lookup_combine lt_iff_fst fst_mergeCell_of_eq (ha.filter _) (hb.filter _),
    KeyedList.lookup_filter _ ha, KeyedList.lookup_filter _ hb]

private theorem key_of_mem_filter {l : List (K × AtomicCell)} {p : K × AtomicCell → Bool} {k : K}
    (h : e ∈ (KeyedList.lookup Prod.fst l k).filter p) : e.1 = k :=
  KeyedList.key_of_lookup (Option.mem_filter_iff.1 h).1

/-- Under a tombstone at least both of theirs, a merge holds under each key the merge of what the
two collections hold there. -/
theorem filter_lookup_merge (ha : a.Sorted) (hb : b.Sorted) (hta : a.tomb ≤ t) (htb : b.tomb ≤ t) (k : K) :
    (KeyedList.lookup Prod.fst (a.merge b).cells k).filter (survives t) =
      Option.merge mergeCell ((KeyedList.lookup Prod.fst a.cells k).filter (survives t))
        ((KeyedList.lookup Prod.fst b.cells k).filter (survives t)) := by
  have hxy : ∀ e₁ ∈ (KeyedList.lookup Prod.fst a.cells k).filter (survives b.tomb),
      ∀ e₂ ∈ (KeyedList.lookup Prod.fst b.cells k).filter (survives a.tomb), e₂.1 = e₁.1 := by
    intro e₁ h₁ e₂ h₂
    rw [key_of_mem_filter h₂, key_of_mem_filter h₁]
  rw [lookup_merge ha hb, filter_merge_survives _ _ hxy, filter_filter_survives _ htb,
    filter_filter_survives _ hta]

theorem lookup_norm (h : m.Sorted) (k : K) :
    KeyedList.lookup Prod.fst m.norm.cells k = (KeyedList.lookup Prod.fst m.cells k).filter (survives m.tomb) :=
  KeyedList.lookup_filter _ h k

/-- The normal form of a merge holds under each key the merge of what the two collections hold
there, filtered by the larger tombstone. -/
theorem lookup_norm_merge (ha : a.Sorted) (hb : b.Sorted) (k : K) :
    KeyedList.lookup Prod.fst (a.merge b).norm.cells k =
      Option.merge mergeCell ((KeyedList.lookup Prod.fst a.cells k).filter (survives (max a.tomb b.tomb)))
        ((KeyedList.lookup Prod.fst b.cells k).filter (survives (max a.tomb b.tomb))) := by
  rw [lookup_norm (sorted_merge ha hb), merge_tomb, filter_lookup_merge ha hb (le_max_left _ _) (le_max_right _ _)]

/-- Under a tombstone at least its own, a collection and its normal form hold the same. -/
theorem filter_lookup_norm (h : m.Sorted) (ht : m.tomb ≤ t) (k : K) :
    (KeyedList.lookup Prod.fst m.norm.cells k).filter (survives t) =
      (KeyedList.lookup Prod.fst m.cells k).filter (survives t) := by
  rw [lookup_norm h, filter_filter_survives _ ht]

theorem Sorted.norm (h : m.Sorted) : m.norm.Sorted := KeyedList.Sorted.filter _ h

/-! ### The laws on normal forms -/

/-- Two collections are equal when their tombstones are and their cells, sorted, agree under every
key. -/
theorem ext_lookup {m m' : CollectionMutation K} (hs : m.Sorted) (hs' : m'.Sorted) (ht : m.tomb = m'.tomb)
    (h : ∀ k, KeyedList.lookup Prod.fst m.cells k = KeyedList.lookup Prod.fst m'.cells k) : m = m' := by
  obtain ⟨t, cells, _⟩ := m
  obtain ⟨t', cells', _⟩ := m'
  simp only at ht
  subst ht
  have hcells : cells = cells' := KeyedList.ext hs hs' h
  subst hcells
  rfl

theorem norm_merge_comm (ha : a.Sorted) (hb : b.Sorted) : (a.merge b).norm = (b.merge a).norm := by
  refine ext_lookup (sorted_merge ha hb).norm (sorted_merge hb ha).norm (by simp [max_comm]) fun k => ?_
  rw [lookup_norm_merge ha hb, lookup_norm_merge hb ha, max_comm]
  exact merge_opt_comm _ _ fun e₁ h₁ e₂ h₂ => by
    rw [key_of_mem_filter h₂, key_of_mem_filter h₁]

theorem norm_merge_assoc (ha : a.Sorted) (hb : b.Sorted) (hc : c.Sorted) :
    ((a.merge b).merge c).norm = (a.merge (b.merge c)).norm := by
  have hab := sorted_merge ha hb
  have hbc := sorted_merge hb hc
  refine ext_lookup (sorted_merge hab hc).norm (sorted_merge ha hbc).norm (by simp [max_assoc]) fun k => ?_
  -- Under the largest tombstone each side is the merge of the three collections' cells.
  have hM : max (max a.tomb b.tomb) c.tomb = max a.tomb (max b.tomb c.tomb) := max_assoc _ _ _
  have haT : a.tomb ≤ max a.tomb (max b.tomb c.tomb) := le_max_left _ _
  have hbT : b.tomb ≤ max a.tomb (max b.tomb c.tomb) := (le_max_left _ _).trans (le_max_right _ _)
  have hcT : c.tomb ≤ max a.tomb (max b.tomb c.tomb) := (le_max_right _ _).trans (le_max_right _ _)
  rw [lookup_norm_merge hab hc, lookup_norm_merge ha hbc, merge_tomb, merge_tomb, hM,
    filter_lookup_merge ha hb haT hbT, filter_lookup_merge hb hc hbT hcT, merge_opt_assoc]

theorem norm_merge_self (ha : a.Sorted) : (a.merge a).norm = a.norm := by
  refine ext_lookup (sorted_merge ha ha).norm ha.norm (by simp) fun k => ?_
  rw [lookup_norm_merge ha ha, max_self, merge_opt_self, lookup_norm ha]

/-- The merge reads a collection only through its normal form. -/
theorem norm_merge_congr {a' b' : CollectionMutation K} (ha : a.Sorted) (hb : b.Sorted) (ha' : a'.Sorted)
    (hb' : b'.Sorted) (hna : a.norm = a'.norm) (hnb : b.norm = b'.norm) : (a.merge b).norm = (a'.merge b').norm := by
  have hta : a.tomb = a'.tomb := by rw [← norm_tomb a, hna, norm_tomb]
  have htb : b.tomb = b'.tomb := by rw [← norm_tomb b, hnb, norm_tomb]
  refine ext_lookup (sorted_merge ha hb).norm (sorted_merge ha' hb').norm (by simp [hta, htb]) fun k => ?_
  rw [lookup_norm_merge ha hb, lookup_norm_merge ha' hb', ← filter_lookup_norm ha (le_max_left _ _),
    ← filter_lookup_norm hb (le_max_right _ _), ← filter_lookup_norm ha' (le_max_left _ _),
    ← filter_lookup_norm hb' (le_max_right _ _), hna, hnb, hta, htb]

end CollectionMutation

end Scylla
