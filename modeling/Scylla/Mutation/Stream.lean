import Mathlib
import Scylla.Mutation.PartitionMerge

/-!
# Fragment streams of a partition

Readers, the compactor and the sstable writer pass a partition around as a stream of fragments
(`mutation_fragment_v2`): partition_start with the partition tombstone, the static row if there is one, the
clustering rows and range tombstone changes in position order, and partition_end.  A range tombstone change opens
its tombstone from its position up to the next change.  `mutation_rebuilder_v2` turns a stream back into a
mutation: each row is applied to the row at its key, and `range_tombstone_assembler` turns two consecutive changes
into the range tombstone between them, which goes into the partition's range tombstone list.

* `PartitionStream.Valid`: positions increase, and the last change closes the range tombstones;
* `lookup_rebuildRows`: the rebuilt partition holds each row of the stream at its position;
* `covering_rebuildRangeTombstones`: the rebuilt range tombstone list covers each position with the tombstone open
  there, when that is a tombstone at all.
-/

namespace Scylla

open KeyedList

/-- tombstone::operator bool: a tombstone with a timestamp. -/
def Tombstone.isSet (t : Tombstone) : Bool := t.timestamp != missingTimestamp

/-- What a tombstone open at a position covers it with: itself, if it is a tombstone at all. -/
def Tombstone.covering (t : Tombstone) : WithBot Tombstone := if t.isSet then t else ⊥

namespace Tombstone

@[simp] theorem isSet_empty : Tombstone.empty.isSet = false := rfl

@[simp] theorem covering_empty : Tombstone.empty.covering = ⊥ := rfl

theorem isSet_eq_false_iff {t : Tombstone} : t.isSet = false ↔ t.timestamp = missingTimestamp := by
  simp [isSet]

theorem covering_eq_bot_iff {t : Tombstone} : t.covering = ⊥ ↔ t.isSet = false := by
  unfold covering
  cases t.isSet <;> simp

theorem unbotD_covering (t : Tombstone) :
    t.covering.unbotD Tombstone.empty = if t.isSet then t else Tombstone.empty := by
  unfold covering
  split <;> rfl

/-- A tombstone that is tombstone() unless it carries a timestamp is not below tombstone(). -/
theorem empty_le_of_proper {t : Tombstone} (h : t.timestamp = missingTimestamp → t = Tombstone.empty) :
    Tombstone.empty ≤ t := by
  by_cases ht : t.timestamp = missingTimestamp
  · rw [h ht]
  · exact (lt_of_timestamp_lt (Int64.lt_of_le_of_ne (Int64.minValue_le _) (Ne.symm ht))).le

end Tombstone

/-- A clustering fragment: a clustering row, or a range tombstone change that opens its tombstone at its
position. -/
inductive ClusteringFragment (P : Type) (n : Nat) where
  | clusteringRow (position : P) (row : DeletableRow n)
  | rangeTombstoneChange (position : P) (tomb : Tombstone)

namespace ClusteringFragment

variable {P : Type} {n : Nat}

def position : ClusteringFragment P n → P
  | clusteringRow p _ => p
  | rangeTombstoneChange p _ => p

/-- The tombstone open after the fragment, `t` being open before it. -/
def openAfter (t : Tombstone) : ClusteringFragment P n → Tombstone
  | clusteringRow _ _ => t
  | rangeTombstoneChange _ u => u

end ClusteringFragment

section Open

variable {P : Type} {n : Nat}

/-- The tombstone the last range tombstone change opened, or `t` when there is none. -/
def openTombstone (t : Tombstone) (F : List (ClusteringFragment P n)) : Tombstone :=
  F.foldl (fun t f => f.openAfter t) t

@[simp] theorem openTombstone_nil (t : Tombstone) : openTombstone t ([] : List (ClusteringFragment P n)) = t := rfl

@[simp] theorem openTombstone_cons (t : Tombstone) (f : ClusteringFragment P n) (F : List (ClusteringFragment P n)) :
    openTombstone t (f :: F) = openTombstone (f.openAfter t) F := rfl

theorem openTombstone_append (t : Tombstone) (F G : List (ClusteringFragment P n)) :
    openTombstone t (F ++ G) = openTombstone (openTombstone t F) G := by
  simp only [openTombstone, List.foldl_append]

/-- What is open is what was open or the tombstone of a change. -/
theorem openTombstone_mem (t : Tombstone) (F : List (ClusteringFragment P n)) :
    openTombstone t F = t ∨ ∃ p, ClusteringFragment.rangeTombstoneChange p (openTombstone t F) ∈ F := by
  induction F generalizing t with
  | nil => exact .inl rfl
  | cons f F ih =>
    rw [openTombstone_cons]
    rcases ih (f.openAfter t) with h | ⟨p, hp⟩
    · cases f with
      | clusteringRow p cr => exact .inl h
      | rangeTombstoneChange p u => exact .inr ⟨p, by rw [h]; exact List.mem_cons_self⟩
    · exact .inr ⟨p, List.mem_cons_of_mem _ hp⟩

variable [LinearOrder P]

/-- The tombstone open at a position. -/
def openAt (F : List (ClusteringFragment P n)) (q : P) : Tombstone :=
  openTombstone Tombstone.empty (F.filter fun f => decide (f.position ≤ q))

/-- Before a position that every fragment comes after, nothing but what was open is open. -/
theorem openTombstone_filter_of_lt {F : List (ClusteringFragment P n)} {q : P} (t : Tombstone)
    (h : ∀ f ∈ F, q < f.position) : openTombstone t (F.filter fun f => decide (f.position ≤ q)) = t := by
  rw [List.filter_eq_nil_iff.2 fun f hf => by simpa using h f hf]
  rfl

theorem openAt_append_of_lt {L G : List (ClusteringFragment P n)} {q : P} (h : ∀ f ∈ G, q < f.position) :
    openAt (L ++ G) q = openAt L q := by
  have hG : G.filter (fun f => decide (f.position ≤ q)) = [] :=
    List.filter_eq_nil_iff.2 fun f hf => by simpa using h f hf
  rw [openAt, List.filter_append, hG, List.append_nil]
  rfl

/-- Past every fragment, the tombstone the last change opened is open. -/
theorem openAt_of_le {L : List (ClusteringFragment P n)} {q : P} (h : ∀ f ∈ L, f.position ≤ q) :
    openAt L q = openTombstone Tombstone.empty L := by
  rw [openAt, List.filter_eq_self.2 fun f hf => by simpa using h f hf]

/-- The row of a clustering row fragment at a position. -/
def rowAt (F : List (ClusteringFragment P n)) (q : P) : Option (DeletableRow n) :=
  F.findSome? fun f => match f with
    | .clusteringRow p cr => if p = q then some cr else none
    | .rangeTombstoneChange _ _ => none

theorem rowAt_append (L G : List (ClusteringFragment P n)) (q : P) : rowAt (L ++ G) q = (rowAt L q).or (rowAt G q) :=
  List.findSome?_append

theorem rowAt_eq_none {L : List (ClusteringFragment P n)} {q : P} (h : ∀ f ∈ L, f.position ≠ q) :
    rowAt L q = none := by
  simp only [rowAt, List.findSome?_eq_none_iff]
  intro f hf
  cases f with
  | clusteringRow p cr =>
    have hpq : p ≠ q := h _ hf
    simp [hpq]
  | rangeTombstoneChange p t => rfl

theorem mem_of_rowAt_eq_some {L : List (ClusteringFragment P n)} {q : P} {cr : DeletableRow n}
    (h : rowAt L q = some cr) : ClusteringFragment.clusteringRow q cr ∈ L := by
  obtain ⟨f, hf, hfq⟩ := List.exists_of_findSome?_eq_some h
  cases f with
  | clusteringRow p cr' =>
    simp only [Option.ite_none_right_eq_some, Option.some.injEq] at hfq
    obtain ⟨rfl, rfl⟩ := hfq
    exact hf
  | rangeTombstoneChange p t => cases hfq

end Open

/-- One partition of a fragment stream between partition_start and partition_end: the partition tombstone, the
static row if the stream has one, and the clustering fragments. -/
structure PartitionStream (P : Type) (ns nr : Nat) where
  tombstone : Tombstone
  staticRow : Option (Row ns)
  fragments : List (ClusteringFragment P nr)

namespace PartitionStream

variable {P : Type} [LinearOrder P] {ns nr : Nat}

/-- What mutation_fragment_stream_validator and range_tombstone_assembler accept: positions increase, and no range
tombstone is open at the end of the partition. -/
structure Valid (s : PartitionStream P ns nr) : Prop where
  sorted : Sorted ClusteringFragment.position s.fragments
  closed : (openTombstone Tombstone.empty s.fragments).isSet = false

end PartitionStream

/-! ## Rebuilding the mutation -/

namespace DeletableRow

variable {n : Nat}

/-- What mutation_rebuilder::consume(clustering_row) applies to the row at the key: the row tombstone, the marker,
which may shadow the row tombstone, and the cells. -/
def applyRow (dr cr : DeletableRow n) : DeletableRow n :=
  let dr : DeletableRow n := { dr with deletedAt := dr.deletedAt.apply cr.deletedAt dr.marker }
  let dr := ({ dr with marker := dr.marker.apply cr.marker } : DeletableRow n).maybeShadow
  { dr with cells := dr.cells.applyMonotonically cr.cells }

/-- Applied to an empty row, the rebuilder's apply is the merge: the empty row's marker shadows nothing. -/
theorem empty_applyRow (cr : DeletableRow n) : ({} : DeletableRow n).applyRow cr = ({} : DeletableRow n).applyMonotonically cr := by
  have hno : ∀ r, (({} : ShadowableTombstone).apply cr.deletedAt.shadowable.tomb).maybeShadow r ({} : RowMarker) =
      ({} : ShadowableTombstone).apply cr.deletedAt.shadowable.tomb := fun r => by
    simp [ShadowableTombstone.maybeShadow, ShadowableTombstone.isShadowedBy, RowMarker.isLive, RowMarker.isMissing]
  simp only [applyRow, applyMonotonically, maybeShadow, RowTombstone.apply, RowTombstone.maybeShadow, hno]

end DeletableRow

section Rebuild

variable {P : Type} [LinearOrder P] {n : Nat}

/-- mutation_partition::clustered_row followed by the rebuilder's apply: the row at the key, or a new entry put in
its place. -/
def clusteredRow : List (RowsEntry P n) → P → DeletableRow n → List (RowsEntry P n)
  | [], p, cr => [{ position := p, row := ({} : DeletableRow n).applyRow cr }]
  | e :: rows, p, cr =>
    if e.position = p then { e with row := e.row.applyRow cr } :: rows
    else if p < e.position then { position := p, row := ({} : DeletableRow n).applyRow cr } :: e :: rows
    else e :: clusteredRow rows p cr

/-- mutation_rebuilder_v2::consume for one clustering fragment, on the rows. -/
def consumeRow (rows : List (RowsEntry P n)) : ClusteringFragment P n → List (RowsEntry P n)
  | .clusteringRow p cr => clusteredRow rows p cr
  | .rangeTombstoneChange _ _ => rows

def rebuildRows (F : List (ClusteringFragment P n)) : List (RowsEntry P n) := F.foldl consumeRow []

/-- range_tombstone_assembler::consume: the range the previous change opened, if it carried a tombstone and is not
empty, ends at `p`. -/
def closeRange (prev : Option (P × Tombstone)) (p : P) : List (RangeTombstone P Tombstone) :=
  match prev with
  | some (p₀, t₀) => if t₀.isSet && decide (p₀ < p) then [⟨p₀, p, t₀⟩] else []
  | none => []

/-- The range tombstones range_tombstone_assembler hands the rebuilder, `prev` being the last change it saw. -/
def assemble (prev : Option (P × Tombstone)) : List (ClusteringFragment P n) → List (RangeTombstone P Tombstone)
  | [] => []
  | .clusteringRow _ _ :: F => assemble prev F
  | .rangeTombstoneChange p t :: F => closeRange prev p ++ assemble (some (p, t)) F

/-- The rebuilder applies each assembled range tombstone to the partition's list. -/
def rebuildRangeTombstones (F : List (ClusteringFragment P n)) : List (RangeTombstone P Tombstone) :=
  (assemble none F).foldl (fun l rt => RangeTombstoneList.apply l rt.startPos rt.endPos rt.tomb) []

/-! ### The rows -/

theorem lookup_clusteredRow {rows : List (RowsEntry P n)} (hs : Sorted RowsEntry.position rows) (p q : P)
    (cr : DeletableRow n) :
    lookup RowsEntry.position (clusteredRow rows p cr) q =
      if p = q then
        some ((lookup RowsEntry.position rows p).elim { position := p, row := ({} : DeletableRow n).applyRow cr }
          fun e => { e with row := e.row.applyRow cr })
      else lookup RowsEntry.position rows q := by
  induction rows with
  | nil => by_cases hpq : p = q <;> simp [clusteredRow, lookup_cons, hpq]
  | cons e rows ih =>
    rw [sorted_cons] at hs
    simp only [clusteredRow]
    by_cases hep : e.position = p
    · -- The row at `p` is applied in place.
      subst hep
      by_cases hpq : e.position = q <;> simp [lookup_cons, hpq]
    · rw [if_neg hep]
      by_cases hlt : p < e.position
      · -- The new entry goes before `e`; `rows` comes after `e` and so holds nothing at `p`.
        rw [if_pos hlt]
        have hnone : lookup RowsEntry.position rows p = none :=
          lookup_eq_none.2 fun b hb => (hlt.trans (hs.1 b hb)).ne'
        by_cases hpq : p = q
        · subst hpq
          simp [lookup_cons, hep, hnone]
        · simp [lookup_cons, hpq]
      · rw [if_neg hlt]
        by_cases heq : e.position = q
        · have hpq : p ≠ q := heq ▸ Ne.symm hep
          simp [lookup_cons, heq, hpq]
        · simp [lookup_cons, heq, hep, ih hs.2]

theorem sorted_clusteredRow {rows : List (RowsEntry P n)} (hs : Sorted RowsEntry.position rows) (p : P)
    (cr : DeletableRow n) : Sorted RowsEntry.position (clusteredRow rows p cr) := by
  induction rows with
  | nil => exact sorted_cons.2 ⟨by simp, sorted_nil⟩
  | cons e rows ih =>
    have hs' := sorted_cons.1 hs
    simp only [clusteredRow]
    split_ifs with hep hlt
    · exact sorted_cons.2 ⟨hs'.1, hs'.2⟩
    · refine sorted_cons.2 ⟨fun x hx => ?_, hs⟩
      rcases List.mem_cons.1 hx with rfl | hx
      · exact hlt
      · exact hlt.trans (hs'.1 x hx)
    · -- Every entry of the rest is after `e`, and so is the new one.
      have hep' : e.position < p := lt_of_le_of_ne (not_lt.1 hlt) hep
      refine sorted_cons.2 ⟨fun x hx => ?_, ih hs'.2⟩
      have hx' := mem_of_lookup (lookup_of_mem (ih hs'.2) hx)
      by_cases hxp : x.position = p
      · exact hxp ▸ hep'
      · have hl := lookup_of_mem (ih hs'.2) hx
        rw [lookup_clusteredRow hs'.2, if_neg (Ne.symm hxp)] at hl
        exact hs'.1 x (mem_of_lookup hl)

theorem sorted_rebuildRows (F : List (ClusteringFragment P n)) : Sorted RowsEntry.position (rebuildRows F) := by
  suffices h : ∀ rows : List (RowsEntry P n), Sorted RowsEntry.position rows →
      Sorted RowsEntry.position (F.foldl consumeRow rows) from h [] sorted_nil
  induction F with
  | nil => exact fun _ h => h
  | cons f F ih =>
    intro rows hs
    cases f with
    | clusteringRow p cr => exact ih _ (sorted_clusteredRow hs p cr)
    | rangeTombstoneChange p t => exact ih _ hs

/-- The rebuilt partition holds the row of each position, applied to an empty row, when positions increase. -/
theorem lookup_rebuildRows {F : List (ClusteringFragment P n)} (hF : Sorted ClusteringFragment.position F) (q : P) :
    (lookup RowsEntry.position (rebuildRows F) q).map RowsEntry.view =
      (rowAt F q).map fun cr => (false, ({} : DeletableRow n).applyRow cr) := by
  -- The rows built so far hold nothing at the positions still to come.
  suffices h : ∀ rows : List (RowsEntry P n), Sorted RowsEntry.position rows → (∀ e ∈ rows, e.dummy = false) →
      (∀ e ∈ rows, ∀ f ∈ F, e.position < f.position) →
      (lookup RowsEntry.position (F.foldl consumeRow rows) q).map RowsEntry.view =
        ((lookup RowsEntry.position rows q).map RowsEntry.view).or
          ((rowAt F q).map fun cr => (false, ({} : DeletableRow n).applyRow cr)) by
    simpa [rebuildRows] using h [] sorted_nil (by simp) (by simp)
  induction F with
  | nil =>
    intro rows _ _ _
    simp [rowAt]
  | cons f F ih =>
    intro rows hs hd hlt
    obtain ⟨hf, hF'⟩ := sorted_cons.1 hF
    have hlt' : ∀ e ∈ rows, ∀ g ∈ F, e.position < g.position := fun e he g hg => hlt e he g (List.mem_cons_of_mem _ hg)
    cases f with
    | rangeTombstoneChange p t =>
      rw [List.foldl_cons, consumeRow, ih hF' rows hs hd hlt']
      rfl
    | clusteringRow p cr =>
      have hnone : lookup RowsEntry.position rows p = none :=
        lookup_eq_none.2 fun e he => (hlt e he _ List.mem_cons_self).ne
      have hrows' := sorted_clusteredRow hs p cr
      rw [List.foldl_cons, consumeRow, ih hF' _ hrows' ?_ ?_, lookup_clusteredRow hs, hnone]
      · by_cases hpq : p = q
        · subst hpq
          have hrest : rowAt F p = none := by
            simp only [rowAt, List.findSome?_eq_none_iff]
            intro g hg
            cases g with
            | clusteringRow p' cr' =>
              have hp' : p < p' := hf _ hg
              simp [hp'.ne']
            | rangeTombstoneChange _ _ => rfl
          simp [rowAt, hnone, RowsEntry.view, Option.elim]
        · simp [rowAt, hpq]
      · intro e he
        by_cases hep : e.position = p
        · have hl := lookup_of_mem hrows' he
          rw [lookup_clusteredRow hs, hep, if_pos rfl, hnone] at hl
          rw [← Option.some_inj.1 hl]
          rfl
        · have hl := lookup_of_mem hrows' he
          rw [lookup_clusteredRow hs, if_neg (Ne.symm hep)] at hl
          exact hd e (mem_of_lookup hl)
      · intro e he g hg
        by_cases hep : e.position = p
        · exact hep ▸ hf g hg
        · have hl := lookup_of_mem hrows' he
          rw [lookup_clusteredRow hs, if_neg (Ne.symm hep)] at hl
          exact hlt' e (mem_of_lookup hl) g hg

theorem ndRow_rebuildRows {F : List (ClusteringFragment P n)} (hF : Sorted ClusteringFragment.position F) (q : P) :
    ndRow (rebuildRows F) q = (rowAt F q).map ({} : DeletableRow n).applyRow := by
  simp only [ndRow, entryView, lookup_rebuildRows hF q]
  cases rowAt F q <;> rfl

theorem dummy_of_mem_rebuildRows {F : List (ClusteringFragment P n)} (hF : Sorted ClusteringFragment.position F)
    {e : RowsEntry P n} (he : e ∈ rebuildRows F) : e.dummy = false := by
  have h := lookup_rebuildRows hF e.position
  rw [lookup_of_mem (sorted_rebuildRows F) he] at h
  cases hr : rowAt F e.position with
  | none => rw [hr] at h; cases h
  | some cr =>
    rw [hr] at h
    simp only [Option.map_some, Option.some.injEq, RowsEntry.view, Prod.mk.injEq] at h
    exact h.1

/-! ### The range tombstones -/

theorem rebuildRangeTombstones_eq (F : List (ClusteringFragment P n)) :
    rebuildRangeTombstones F = RangeTombstoneList.applyMonotonically [] (assemble none F) := rfl

theorem canonical_rebuildRangeTombstones (F : List (ClusteringFragment P n)) :
    RangeTombstoneList.Canonical (rebuildRangeTombstones F) :=
  (RangeTombstoneList.applyMonotonically_spec RangeTombstoneList.valid_nil _).2.2 RangeTombstoneList.canonical_nil

/-- The ranges start at or after a position that the last change seen and every fragment to come are at or
after. -/
theorem le_startPos_of_mem_assemble {b : P} {prev : Option (P × Tombstone)} {F : List (ClusteringFragment P n)}
    (hprev : ∀ x ∈ prev, b ≤ x.1) (hF : ∀ f ∈ F, b ≤ f.position) : ∀ rt ∈ assemble prev F, b ≤ rt.startPos := by
  induction F generalizing prev with
  | nil => intro rt hrt; cases hrt
  | cons f F ih =>
    have hF' : ∀ g ∈ F, b ≤ g.position := fun g hg => hF g (List.mem_cons_of_mem _ hg)
    cases f with
    | clusteringRow p cr => exact ih hprev hF'
    | rangeTombstoneChange p t =>
      intro rt hrt
      rcases List.mem_append.1 hrt with hrt | hrt
      · -- The closed range starts where the previous change was.
        rcases prev with _ | ⟨p₀, t₀⟩
        · cases hrt
        · simp only [closeRange] at hrt
          split_ifs at hrt
          · rw [List.mem_singleton.1 hrt]
            exact hprev _ rfl
          · cases hrt
      · exact ih (fun x hx => by cases hx; exact hF _ List.mem_cons_self) hF' rt hrt

/-- After the change at `p₀` that opened `t₀`, the assembled ranges cover each position with the tombstone open
there, when nothing stays open at the end. -/
theorem covering_assemble_some {F : List (ClusteringFragment P n)} (hF : Sorted ClusteringFragment.position F) :
    ∀ {p₀ : P} {t₀ : Tombstone}, (∀ f ∈ F, p₀ < f.position) → (openTombstone t₀ F).isSet = false →
      ∀ q, p₀ ≤ q → RangeTombstoneList.covering (assemble (some (p₀, t₀)) F) q =
        (openTombstone t₀ (F.filter fun f => decide (f.position ≤ q))).covering := by
  induction F with
  | nil =>
    intro p₀ t₀ _ hclosed q _
    rw [openTombstone_nil] at hclosed
    simp [assemble, Tombstone.covering, hclosed]
  | cons f F ih =>
    intro p₀ t₀ hlt hclosed q hq
    obtain ⟨hf, hF'⟩ := sorted_cons.1 hF
    have hlt' : ∀ g ∈ F, p₀ < g.position := fun g hg => hlt g (List.mem_cons_of_mem _ hg)
    cases f with
    | clusteringRow p cr =>
      have hclosed' : (openTombstone t₀ F).isSet = false := hclosed
      rw [assemble, ih hF' hlt' hclosed' q hq]
      by_cases hpq : p ≤ q <;> simp [hpq, ClusteringFragment.position, ClusteringFragment.openAfter]
    | rangeTombstoneChange p t =>
      have hf' : ∀ g ∈ F, p < g.position := hf
      have hclosed' : (openTombstone t F).isSet = false := hclosed
      have hp₀ : p₀ < p := hlt _ List.mem_cons_self
      rw [assemble, RangeTombstoneList.covering_append, Pi.sup_apply]
      by_cases hpq : p ≤ q
      · -- Past the change, the range it closes covers nothing, and the rest covers as the tombstone it opened.
        have hclose : RangeTombstoneList.covering (closeRange (some (p₀, t₀)) p) q = ⊥ :=
          RangeTombstoneList.covering_eq_bot_of_endPos_le fun rt hrt => by
            simp only [closeRange] at hrt
            split_ifs at hrt
            · rw [List.mem_singleton.1 hrt]
              exact hpq
            · cases hrt
        rw [hclose, bot_sup_eq, ih hF' hf' hclosed' q hpq]
        simp [hpq, ClusteringFragment.position, ClusteringFragment.openAfter]
      · -- Before the change, only the range it closes can cover `q`, with what was open.
        have hrest : RangeTombstoneList.covering (assemble (some (p, t)) F) q = ⊥ :=
          RangeTombstoneList.covering_eq_bot fun rt hrt =>
            lt_of_lt_of_le (not_le.1 hpq) (le_startPos_of_mem_assemble (b := p) (fun x hx => by cases hx; exact le_rfl)
              (fun g hg => (hf' g hg).le) rt hrt)
        have hopen : openTombstone t₀ ((ClusteringFragment.rangeTombstoneChange p t :: F).filter
            fun f => decide (f.position ≤ q)) = t₀ :=
          openTombstone_filter_of_lt t₀ fun g hg => by
            rcases List.mem_cons.1 hg with rfl | hg
            · exact not_le.1 hpq
            · exact lt_trans (not_le.1 hpq) (hf' g hg)
        rw [hrest, sup_bot_eq, hopen]
        by_cases hset : t₀.isSet <;>
          simp [closeRange, hset, hp₀, Tombstone.covering, hq, not_le.1 hpq]

/-- Up to the first change nothing is assembled; from it on, what it opened. -/
theorem covering_assemble_none {F : List (ClusteringFragment P n)} (hF : Sorted ClusteringFragment.position F)
    (hclosed : (openTombstone Tombstone.empty F).isSet = false) (q : P) :
    RangeTombstoneList.covering (assemble none F) q = (openAt F q).covering := by
  induction F with
  | nil => rfl
  | cons f F ih =>
    obtain ⟨hf, hF'⟩ := sorted_cons.1 hF
    cases f with
    | clusteringRow p cr =>
      have hclosed' : (openTombstone Tombstone.empty F).isSet = false := hclosed
      rw [assemble, ih hF' hclosed']
      by_cases hpq : p ≤ q <;> simp [openAt, hpq, ClusteringFragment.position, ClusteringFragment.openAfter]
    | rangeTombstoneChange p t =>
      have hf' : ∀ g ∈ F, p < g.position := hf
      have hclosed' : (openTombstone t F).isSet = false := hclosed
      rw [assemble, closeRange, List.nil_append]
      by_cases hpq : p ≤ q
      · rw [covering_assemble_some hF' hf' hclosed' q hpq]
        simp [openAt, hpq, ClusteringFragment.position, ClusteringFragment.openAfter]
      · have hrest : RangeTombstoneList.covering (assemble (some (p, t)) F) q = ⊥ :=
          RangeTombstoneList.covering_eq_bot fun rt hrt =>
            lt_of_lt_of_le (not_le.1 hpq) (le_startPos_of_mem_assemble (b := p) (fun x hx => by cases hx; exact le_rfl)
              (fun g hg => (hf' g hg).le) rt hrt)
        have hopen : openAt (ClusteringFragment.rangeTombstoneChange p t :: F) q = Tombstone.empty :=
          openTombstone_filter_of_lt _ fun g hg => by
            rcases List.mem_cons.1 hg with rfl | hg
            · exact not_le.1 hpq
            · exact lt_trans (not_le.1 hpq) (hf' g hg)
        rw [hrest, hopen, Tombstone.covering_empty]

/-- The rebuilt range tombstone list covers each position with the tombstone open there, for a valid stream. -/
theorem covering_rebuildRangeTombstones {F : List (ClusteringFragment P n)} (hF : Sorted ClusteringFragment.position F)
    (hclosed : (openTombstone Tombstone.empty F).isSet = false) (q : P) :
    RangeTombstoneList.covering (rebuildRangeTombstones F) q = (openAt F q).covering := by
  rw [rebuildRangeTombstones_eq,
    (RangeTombstoneList.applyMonotonically_spec RangeTombstoneList.valid_nil (assemble none F)).2.1,
    RangeTombstoneList.covering_nil, bot_sup_eq, covering_assemble_none hF hclosed]

end Rebuild

namespace PartitionStream

variable {P : Type} [LinearOrder P] {ns nr : Nat}

/-- mutation_rebuilder_v2 on one partition: the partition tombstone and the static row applied to those of a new
partition, then the rows and the assembled range tombstones. -/
def rebuild (s : PartitionStream P ns nr) : MutationPartition P ns nr where
  tombstone := Tombstone.empty.apply s.tombstone
  staticRow := match s.staticRow with
    | some r => Row.empty.applyMonotonically r
    | none => Row.empty
  staticRowContinuous := true
  rows := rebuildRows s.fragments
  rowTombstones := rebuildRangeTombstones s.fragments
  rows_sorted := sorted_rebuildRows s.fragments
  rowTombstones_valid := (canonical_rebuildRangeTombstones s.fragments).valid

/-- The mutation of a partition the stream may lack: the rebuilt partition, or an empty one. -/
def rebuildOpt (o : Option (PartitionStream P ns nr)) : MutationPartition P ns nr :=
  (o.getD ⟨Tombstone.empty, none, []⟩).rebuild

end PartitionStream

end Scylla
