import Scylla.Mutation.Row
import Scylla.Mutation.MergeOrder

/-!
# Convergence of the row merge

`deletable_row::apply_monotonically` merges the cells, the marker and the row tombstone of two
versions of a clustering row.  The cells and the marker are last-write-wins registers under the
reconciliation order (`compareForMerge_orderedBy`: the order is a lexicographic key), and the
regular and shadowable tombstones are maxima.  What is not a plain maximum is the shadowing: after
the merge the shadowable tombstone falls back to the regular one when the merged marker is live
and newer.

* `applyMonotonically_eq` writes the merge as the componentwise merge `join` followed by the
  shadowing `maybeShadow`;
* `maybeShadow_join_maybeShadow` is the step that makes the merge associative: shadowing the
  inputs first changes nothing, provided every marker that is not live is no newer than its own
  row tombstone (`Covered`);
* `applyMonotonically_assoc` and `applyMonotonically_comm` give the laws up to a tie between
  markers (`Equiv`), which `deletable_row::equal` does not see, before or after compaction;
* `empty_applyMonotonically`: the empty row of a dummy entry is a unit of the merge.
-/

namespace Scylla

open MaxMerge

/-! ## Cells -/

/-- The kind of a column: column_definition::is_atomic and is_counter. -/
inductive CellKind where
  | atomic
  | counter
  | collection
  deriving DecidableEq, Repr

namespace Cell

def kind : Cell → CellKind
  | atomic _ => .atomic
  | counter _ => .counter
  | collection _ => .collection

/-- What the merge laws need of a cell: a counter cell as `CounterCell.Valid` says, a collection sorted by key. -/
def Valid (v : CounterId → Int64 → Int64) : Cell → Prop
  | atomic _ => True
  | counter c => c.Valid v
  | collection m => m.Sorted

/-- A collection without the cells its own tombstone covers; other cells as they are. -/
def norm : Cell → Cell
  | collection m => collection m.norm
  | c => c

variable {v : CounterId → Int64 → Int64} {c c' c'' : Cell}

@[simp] theorem kind_applyMonotonically (c c' : Cell) : (c.applyMonotonically c').kind = c.kind := by
  cases c <;> cases c' <;> rfl

theorem Valid.applyMonotonically (hc : c.Valid v) (hc' : c'.Valid v) : (c.applyMonotonically c').Valid v := by
  cases c with
  | atomic a => cases c' <;> trivial
  | counter a =>
    cases c' with
    | counter a' => exact CounterCell.Valid.applied hc hc'
    | _ => exact hc
  | collection m =>
    cases c' with
    | collection m' => exact CollectionMutation.sorted_merge hc hc'
    | _ => exact hc

theorem norm_applyMonotonically_comm (hk : c.kind = c'.kind) (hc : c.Valid v) (hc' : c'.Valid v) :
    (c.applyMonotonically c').norm = (c'.applyMonotonically c).norm := by
  cases c <;> cases c' <;> cases hk
  · simp only [applyMonotonically,
      mergeBy_comm AtomicCell.compareAtomicCellForMerge_orderedBy AtomicCell.key_injective]
  · rw [applyMonotonically, applyMonotonically, CounterCell.applied_comm hc hc']
  · simp only [applyMonotonically, norm, CollectionMutation.norm_merge_comm hc hc']

theorem norm_applyMonotonically_assoc (hk : c.kind = c'.kind) (hk' : c'.kind = c''.kind) (hc : c.Valid v)
    (hc' : c'.Valid v) (hc'' : c''.Valid v) :
    ((c.applyMonotonically c').applyMonotonically c'').norm = (c.applyMonotonically (c'.applyMonotonically c'')).norm := by
  cases c <;> cases c' <;> cases hk <;> cases c'' <;> cases hk'
  · simp only [applyMonotonically,
      mergeBy_assoc AtomicCell.compareAtomicCellForMerge_orderedBy AtomicCell.key_injective]
  · rw [applyMonotonically, applyMonotonically, applyMonotonically, applyMonotonically,
      CounterCell.applied_assoc hc hc' hc'']
  · simp only [applyMonotonically, norm, CollectionMutation.norm_merge_assoc hc hc' hc'']

theorem norm_applyMonotonically_self (hc : c.Valid v) : (c.applyMonotonically c).norm = c.norm := by
  cases c with
  | atomic a =>
    change (atomic (mergeBy compareAtomicCellForMerge a a)).norm = (atomic a).norm
    rw [mergeBy_self AtomicCell.compareAtomicCellForMerge_orderedBy]
  | counter a => rw [applyMonotonically, CounterCell.applied_self hc]
  | collection m => simp only [applyMonotonically, norm, CollectionMutation.norm_merge_self hc]

theorem norm_norm (c : Cell) : c.norm.norm = c.norm := by
  cases c <;> simp only [norm, CollectionMutation.norm_norm]

theorem Valid.norm (hc : c.Valid v) : c.norm.Valid v := by
  cases c with
  | collection m => exact CollectionMutation.Sorted.norm hc
  | _ => exact hc

/-- The merge reads a cell only through its normal form. -/
theorem norm_applyMonotonically_norm (hc : c.Valid v) (hc' : c'.Valid v) :
    (c.applyMonotonically c').norm = (c.norm.applyMonotonically c'.norm).norm := by
  cases c <;> cases c' <;> simp only [applyMonotonically, norm, CollectionMutation.norm_norm]
  rename_i m m'
  exact congrArg collection (CollectionMutation.norm_merge_congr hc hc' hc.norm hc'.norm
    (CollectionMutation.norm_norm m).symm (CollectionMutation.norm_norm m').symm)

theorem norm_applyMonotonically_congr {d d' : Cell} (hc : c.Valid v) (hc' : c'.Valid v) (hd : d.Valid v)
    (hd' : d'.Valid v) (h : c.norm = d.norm) (h' : c'.norm = d'.norm) :
    (c.applyMonotonically c').norm = (d.applyMonotonically d').norm := by
  rw [norm_applyMonotonically_norm hc hc', norm_applyMonotonically_norm hd hd', h, h']

/-- The compaction does not tell a cell from its normal form. -/
theorem compactAndExpire_norm (c : Cell) (tomb : RowTombstone) (queryTime : Int64) (canGc : Tombstone → Bool → Bool)
    (gcBefore : Int64) :
    c.norm.compactAndExpire tomb queryTime canGc gcBefore = c.compactAndExpire tomb queryTime canGc gcBefore := by
  cases c with
  | collection m => simp only [norm, compactAndExpire, CollectionMutation.compactAndExpire_norm]
  | _ => rfl

end Cell

namespace Row

variable {n : Nat} {v : CounterId → Int64 → Int64} {kinds : Fin n → CellKind} {r r' r'' : Row n}

/-- Each column holds valid cells of the kind its definition gives. -/
def Valid (v : CounterId → Int64 → Int64) (kinds : Fin n → CellKind) (r : Row n) : Prop :=
  ∀ i c, r.cell i = some c → c.kind = kinds i ∧ c.Valid v

def norm (r : Row n) : Row n := ⟨fun i => (r.cell i).map Cell.norm⟩

theorem Valid.applyMonotonically (hr : r.Valid v kinds) (hr' : r'.Valid v kinds) :
    (r.applyMonotonically r').Valid v kinds := by
  intro i c hc
  simp only [Row.applyMonotonically] at hc
  cases hx : r.cell i <;> cases hy : r'.cell i <;> simp only [hx, hy, Option.merge, reduceCtorEq,
    Option.some.injEq] at hc
  · exact hr' i c (hy ▸ hc ▸ rfl)
  · exact hr i c (hx ▸ hc ▸ rfl)
  · subst hc
    obtain ⟨hk, hv⟩ := hr i _ hx
    exact ⟨(Cell.kind_applyMonotonically _ _).trans hk, hv.applyMonotonically (hr' i _ hy).2⟩

theorem norm_applyMonotonically_comm (hr : r.Valid v kinds) (hr' : r'.Valid v kinds) :
    (r.applyMonotonically r').norm = (r'.applyMonotonically r).norm := by
  simp only [norm, applyMonotonically, Row.mk.injEq]
  funext i
  cases hx : r.cell i <;> cases hy : r'.cell i <;> simp only [Option.merge, Option.map_some, Option.map_none]
  obtain ⟨hk, hv⟩ := hr i _ hx
  obtain ⟨hk', hv'⟩ := hr' i _ hy
  rw [Cell.norm_applyMonotonically_comm (hk.trans hk'.symm) hv hv']

theorem norm_applyMonotonically_assoc (hr : r.Valid v kinds) (hr' : r'.Valid v kinds) (hr'' : r''.Valid v kinds) :
    ((r.applyMonotonically r').applyMonotonically r'').norm = (r.applyMonotonically (r'.applyMonotonically r'')).norm := by
  simp only [norm, applyMonotonically, Row.mk.injEq]
  funext i
  cases hx : r.cell i <;> cases hy : r'.cell i <;> cases hz : r''.cell i <;>
    simp only [Option.merge, Option.map_some, Option.map_none]
  obtain ⟨hk, hv⟩ := hr i _ hx
  obtain ⟨hk', hv'⟩ := hr' i _ hy
  obtain ⟨hk'', hv''⟩ := hr'' i _ hz
  rw [Cell.norm_applyMonotonically_assoc (hk.trans hk'.symm) (hk'.trans hk''.symm) hv hv' hv'']

theorem norm_applyMonotonically_congr {s s' : Row n} (hr : r.Valid v kinds) (hr' : r'.Valid v kinds)
    (hs : s.Valid v kinds) (hs' : s'.Valid v kinds) (h : r.norm = s.norm) (h' : r'.norm = s'.norm) :
    (r.applyMonotonically r').norm = (s.applyMonotonically s').norm := by
  simp only [norm, applyMonotonically, Row.mk.injEq] at h h' ⊢
  funext i
  have e := congrFun h i
  have e' := congrFun h' i
  cases hx : r.cell i <;> cases hy : s.cell i <;> cases hx' : r'.cell i <;> cases hy' : s'.cell i <;>
    simp only [hx, hy, hx', hy', Option.map_some, Option.map_none, reduceCtorEq, Option.some.injEq,
      Option.merge] at e e' ⊢
  · exact e'
  · exact e
  · exact Cell.norm_applyMonotonically_congr (hr i _ hx).2 (hr' i _ hx').2 (hs i _ hy).2 (hs' i _ hy').2 e e'

theorem norm_applyMonotonically_self (hr : r.Valid v kinds) : (r.applyMonotonically r).norm = r.norm := by
  simp only [norm, applyMonotonically, Row.mk.injEq]
  funext i
  cases hx : r.cell i <;> simp only [Option.merge, Option.map_some, Option.map_none]
  rw [Cell.norm_applyMonotonically_self (hr i _ hx).2]

@[simp] theorem empty_applyMonotonically (r : Row n) : (empty : Row n).applyMonotonically r = r := by
  simp only [applyMonotonically, empty]
  congr 1
  funext i
  cases r.cell i <;> rfl

@[simp] theorem applyMonotonically_empty (r : Row n) : r.applyMonotonically empty = r := by
  simp only [applyMonotonically, empty]
  congr 1
  funext i
  cases r.cell i <;> rfl

theorem equal_self (r : Row n) : r.equal r = true := by
  simp [equal]

/-- The compaction of the cells reads the marker only for whether it is live. -/
theorem compactAndExpire_of_isLive_eq {m m' : RowMarker} (h : m.isLive = m'.isLive) (r : Row n)
    (s : Schema) (kind : ColumnKind) (tomb : RowTombstone) (queryTime : Int64) (canGc : Tombstone → Bool → Bool)
    (gcBefore : Int64) :
    r.compactAndExpire s kind tomb queryTime canGc gcBefore m =
      r.compactAndExpire s kind tomb queryTime canGc gcBefore m' := by
  rw [compactAndExpire, compactAndExpire, deadMarkerShadowsRow, deadMarkerShadowsRow, h]

/-- The compaction does not tell a row from its normal form. -/
theorem compactAndExpire_norm (r : Row n) (s : Schema) (kind : ColumnKind) (tomb : RowTombstone) (queryTime : Int64)
    (canGc : Tombstone → Bool → Bool) (gcBefore : Int64) (m : RowMarker) :
    r.norm.compactAndExpire s kind tomb queryTime canGc gcBefore m = r.compactAndExpire s kind tomb queryTime canGc gcBefore m := by
  simp only [compactAndExpire, norm, Option.bind_map, Option.any_map, Function.comp_def, Cell.compactAndExpire_norm]

theorem compactAndExpire_norm' (r : Row n) : r.norm.compactAndExpire = r.compactAndExpire := by
  funext s kind tomb queryTime canGc gcBefore m
  exact compactAndExpire_norm r s kind tomb queryTime canGc gcBefore m

end Row

/-! ## Shadowing -/

namespace ShadowableTombstone

variable {t : ShadowableTombstone} {m : RowMarker} {r : Tombstone}

theorem isShadowedBy_iff : t.isShadowedBy m = true ↔ m.isLive = true ∧ t.tomb.timestamp < m.timestamp := by
  simp [isShadowedBy]

theorem maybeShadow_of_isShadowedBy (h : t.isShadowedBy m = true) : t.maybeShadow r m = ⟨r⟩ := by
  simp [maybeShadow, h]

theorem maybeShadow_of_not_isShadowedBy (h : t.isShadowedBy m = false) : t.maybeShadow r m = t := by
  simp [maybeShadow, h]

/-- Shadowing leaves the tombstone between the regular one and itself. -/
theorem maybeShadow_tomb_le (hr : r ≤ t.tomb) : (t.maybeShadow r m).tomb ≤ t.tomb := by
  cases h : t.isShadowedBy m
  · rw [maybeShadow_of_not_isShadowedBy h]
  · rw [maybeShadow_of_isShadowedBy h]
    exact hr

theorem le_maybeShadow_tomb (hr : r ≤ t.tomb) : r ≤ (t.maybeShadow r m).tomb := by
  cases h : t.isShadowedBy m
  · rw [maybeShadow_of_not_isShadowedBy h]
    exact hr
  · rw [maybeShadow_of_isShadowedBy h]

/-- A tombstone shadowed by one marker of a merge whose result is not live is older than the
other side's tombstone, when that side covers its marker. -/
theorem lt_of_isShadowedBy_of_not_isLive {sx sy : Tombstone} {mx my m : RowMarker}
    (hsh : (⟨sx⟩ : ShadowableTombstone).isShadowedBy mx = true) (hm : m = mx ∨ m = my)
    (hle : mx.timestamp ≤ m.timestamp) (hlive : m.isLive = false)
    (hcy : my.isLive = false → my.timestamp ≤ sy.timestamp) : sx < sy := by
  obtain ⟨hlx, hts⟩ := isShadowedBy_iff.1 hsh
  have hmy : m = my := hm.resolve_left fun h => by rw [h, hlx] at hlive; cases hlive
  subst hmy
  exact Tombstone.lt_of_timestamp_lt (Int64.lt_of_lt_of_le hts (Int64.le_trans hle (hcy hlive)))

/-- The shadowing of a merge does not depend on whether the merged tombstones were shadowed by
their own markers first, when each side's shadowable tombstone is at least its regular one and
covers its marker if that is not live. -/
theorem maybeShadow_max_maybeShadow {rx sx ry sy : Tombstone} {mx my : RowMarker}
    (hx : rx ≤ sx) (hy : ry ≤ sy)
    (hcx : mx.isLive = false → mx.timestamp ≤ sx.timestamp)
    (hcy : my.isLive = false → my.timestamp ≤ sy.timestamp) :
    (⟨max ((⟨sx⟩ : ShadowableTombstone).maybeShadow rx mx).tomb
        ((⟨sy⟩ : ShadowableTombstone).maybeShadow ry my).tomb⟩ : ShadowableTombstone).maybeShadow
        (max rx ry) (mx.apply my) =
      (⟨max sx sy⟩ : ShadowableTombstone).maybeShadow (max rx ry) (mx.apply my) := by
  have hlx : ((⟨sx⟩ : ShadowableTombstone).maybeShadow rx mx).tomb ≤ sx := maybeShadow_tomb_le hx
  have hly : ((⟨sy⟩ : ShadowableTombstone).maybeShadow ry my).tomb ≤ sy := maybeShadow_tomb_le hy
  have hmx := RowMarker.timestamp_le_apply_left mx my
  have hmy := RowMarker.timestamp_le_apply_right mx my
  cases hlive : (mx.apply my).isLive
  · -- The merged marker is not live: nothing is shadowed after the merge, and a side shadowed
    -- before it lies below the other side.
    have hno : ∀ t : ShadowableTombstone, t.isShadowedBy (mx.apply my) = false := by
      simp [ShadowableTombstone.isShadowedBy, hlive]
    rw [maybeShadow_of_not_isShadowedBy (hno _), maybeShadow_of_not_isShadowedBy (hno _)]
    congr 1
    cases hshx : (⟨sx⟩ : ShadowableTombstone).isShadowedBy mx <;>
      cases hshy : (⟨sy⟩ : ShadowableTombstone).isShadowedBy my
    · simp [maybeShadow_of_not_isShadowedBy hshx, maybeShadow_of_not_isShadowedBy hshy]
    · have hlt : sy < sx := lt_of_isShadowedBy_of_not_isLive hshy
        ((RowMarker.apply_eq_or mx my).symm) hmy hlive hcx
      rw [maybeShadow_of_not_isShadowedBy hshx, max_eq_left (hly.trans hlt.le),
        max_eq_left hlt.le]
    · have hlt : sx < sy := lt_of_isShadowedBy_of_not_isLive hshx (RowMarker.apply_eq_or mx my)
        hmx hlive hcy
      rw [maybeShadow_of_not_isShadowedBy hshy, max_eq_right (hlx.trans hlt.le),
        max_eq_right hlt.le]
    · -- Both markers live, so the merged one is live.
      obtain ⟨hl, -⟩ := isShadowedBy_iff.1 hshx
      obtain ⟨hl', -⟩ := isShadowedBy_iff.1 hshy
      rcases RowMarker.apply_eq_or mx my with h | h <;> rw [h] at hlive <;> simp_all
  · by_cases hts : (max sx sy).timestamp < (mx.apply my).timestamp
    · -- The merged marker shadows the merge of either side.
      have hts' : (max ((⟨sx⟩ : ShadowableTombstone).maybeShadow rx mx).tomb
          ((⟨sy⟩ : ShadowableTombstone).maybeShadow ry my).tomb).timestamp <
            (mx.apply my).timestamp :=
        Int64.lt_of_le_of_lt (Tombstone.timestamp_le_of_le (max_le_max hlx hly)) hts
      rw [maybeShadow_of_isShadowedBy (isShadowedBy_iff.2 ⟨hlive, hts⟩),
        maybeShadow_of_isShadowedBy (isShadowedBy_iff.2 ⟨hlive, hts'⟩)]
    · -- The newer shadowable tombstone is at least as new as either marker: it was not
      -- shadowed, and it is the merge.
      have hnot : ∀ {s : Tombstone} {mm : RowMarker}, (max sx sy).timestamp ≤ s.timestamp →
          mm.timestamp ≤ (mx.apply my).timestamp → (⟨s⟩ : ShadowableTombstone).isShadowedBy mm = false := by
        intro s mm hs hmm
        cases h : (⟨s⟩ : ShadowableTombstone).isShadowedBy mm
        · rfl
        · obtain ⟨-, hlt⟩ := isShadowedBy_iff.1 h
          exact absurd (Int64.lt_of_le_of_lt hs (Int64.lt_of_lt_of_le hlt hmm)) hts
      congr 2
      rcases le_total sx sy with h | h
      · rw [max_eq_right h] at hnot ⊢
        rw [maybeShadow_of_not_isShadowedBy (hnot (Int64.le_refl _) hmy), max_eq_right (hlx.trans h)]
      · rw [max_eq_left h] at hnot ⊢
        rw [maybeShadow_of_not_isShadowedBy (hnot (Int64.le_refl _) hmx), max_eq_left (hly.trans h)]

end ShadowableTombstone

/-! ## Well-formed rows -/

namespace DeletableRow

variable {n : Nat}

/-- The merge before the shadowing: the cells and the marker merged, both tombstones maxima. -/
def join (x y : DeletableRow n) : DeletableRow n :=
  ⟨⟨max x.deletedAt.regular y.deletedAt.regular, ⟨max x.deletedAt.shadowable.tomb y.deletedAt.shadowable.tomb⟩⟩,
    x.marker.apply y.marker, x.cells.applyMonotonically y.cells⟩

theorem applyMonotonically_eq (x y : DeletableRow n) : x.applyMonotonically y = (x.join y).maybeShadow := by
  simp [applyMonotonically, join, maybeShadow, RowTombstone.apply, RowTombstone.maybeShadow,
    ShadowableTombstone.apply]

/-- What the merge relies on besides the shadowing: the shadowable tombstone is at least the
regular one, and a marker that is not live is no newer than the row tombstone.  The random
mutation generator of the tests matches every deleted marker with a row tombstone for this. -/
structure Covered (r : DeletableRow n) : Prop where
  regular_le : r.deletedAt.regular ≤ r.deletedAt.shadowable.tomb
  marker_covered : r.marker.isLive = false → r.marker.timestamp ≤ r.deletedAt.shadowable.tomb.timestamp

/-- A covered row that its own marker does not shadow, as every apply of deletable_row leaves it. -/
structure WellFormed (r : DeletableRow n) : Prop extends Covered r where
  shadowed : r.deletedAt.shadowable.isShadowedBy r.marker = true →
    r.deletedAt.shadowable.tomb = r.deletedAt.regular

/-- The row's own marker shadows its shadowable tombstone no further. -/
def Shadowed (r : DeletableRow n) : Prop :=
  r.deletedAt.shadowable.isShadowedBy r.marker = true → r.deletedAt.shadowable.tomb = r.deletedAt.regular

instance (r : DeletableRow n) : Decidable r.Covered :=
  decidable_of_iff
    (r.deletedAt.regular ≤ r.deletedAt.shadowable.tomb ∧
      (r.marker.isLive = false → r.marker.timestamp ≤ r.deletedAt.shadowable.tomb.timestamp))
    ⟨fun ⟨h₁, h₂⟩ => ⟨h₁, h₂⟩, fun h => ⟨h.regular_le, h.marker_covered⟩⟩

instance (r : DeletableRow n) : Decidable r.WellFormed :=
  decidable_of_iff
    (r.deletedAt.regular ≤ r.deletedAt.shadowable.tomb ∧
      (r.marker.isLive = false → r.marker.timestamp ≤ r.deletedAt.shadowable.tomb.timestamp) ∧
      (r.deletedAt.shadowable.isShadowedBy r.marker = true →
        r.deletedAt.shadowable.tomb = r.deletedAt.regular))
    ⟨fun ⟨h₁, h₂, h₃⟩ => ⟨⟨h₁, h₂⟩, h₃⟩, fun h => ⟨h.regular_le, h.marker_covered, h.shadowed⟩⟩

variable {x y z : DeletableRow n}

theorem Covered.join (hx : x.Covered) (hy : y.Covered) : (x.join y).Covered where
  regular_le := max_le_max hx.regular_le hy.regular_le
  marker_covered := by
    intro hlive
    -- The merged marker is one of the two, covered by its own row's tombstone.
    rcases RowMarker.apply_eq_or x.marker y.marker with h | h <;>
      simp only [DeletableRow.join, h] at hlive ⊢
    · exact Int64.le_trans (hx.marker_covered hlive) (Tombstone.timestamp_le_of_le (le_max_left _ _))
    · exact Int64.le_trans (hy.marker_covered hlive) (Tombstone.timestamp_le_of_le (le_max_right _ _))

theorem maybeShadow_eq_self (hx : x.Shadowed) : x.maybeShadow = x := by
  obtain ⟨⟨r, ⟨s⟩⟩, m, cells⟩ := x
  cases h : (⟨s⟩ : ShadowableTombstone).isShadowedBy m
  · simp [DeletableRow.maybeShadow, RowTombstone.maybeShadow,
      ShadowableTombstone.maybeShadow_of_not_isShadowedBy h]
  · have hs := hx h
    simp only at hs
    subst hs
    simp [DeletableRow.maybeShadow, RowTombstone.maybeShadow,
      ShadowableTombstone.maybeShadow_of_isShadowedBy h]

theorem WellFormed.maybeShadow_eq (hx : x.WellFormed) : x.maybeShadow = x := maybeShadow_eq_self hx.shadowed

theorem shadowed_maybeShadow (x : DeletableRow n) : x.maybeShadow.Shadowed := by
  intro hsh
  cases h : x.deletedAt.shadowable.isShadowedBy x.marker
  · simp [DeletableRow.maybeShadow, RowTombstone.maybeShadow,
      ShadowableTombstone.maybeShadow_of_not_isShadowedBy h] at hsh
    simp [h] at hsh
  · simp [DeletableRow.maybeShadow, RowTombstone.maybeShadow,
      ShadowableTombstone.maybeShadow_of_isShadowedBy h]

theorem shadowed_applyMonotonically (x y : DeletableRow n) : (x.applyMonotonically y).Shadowed := by
  rw [applyMonotonically_eq]
  exact shadowed_maybeShadow _

/-- Shadowing a covered row makes it well formed. -/
theorem Covered.maybeShadow (hx : x.Covered) : x.maybeShadow.WellFormed where
  regular_le := ShadowableTombstone.le_maybeShadow_tomb hx.regular_le
  marker_covered := by
    intro hlive
    have hlive' : x.marker.isLive = false := hlive
    have hno : x.deletedAt.shadowable.isShadowedBy x.marker = false := by
      simp [ShadowableTombstone.isShadowedBy, hlive']
    simpa [DeletableRow.maybeShadow, RowTombstone.maybeShadow,
      ShadowableTombstone.maybeShadow_of_not_isShadowedBy hno] using hx.marker_covered hlive'
  shadowed := shadowed_maybeShadow x

theorem maybeShadow_join_maybeShadow (hx : x.Covered) (hy : y.Covered) :
    (x.maybeShadow.join y.maybeShadow).maybeShadow = (x.join y).maybeShadow := by
  simp only [DeletableRow.maybeShadow, DeletableRow.join, RowTombstone.maybeShadow, mk.injEq,
    RowTombstone.mk.injEq, and_true, true_and]
  exact ShadowableTombstone.maybeShadow_max_maybeShadow hx.regular_le hy.regular_le
    hx.marker_covered hy.marker_covered

theorem WellFormed.applyMonotonically (hx : x.WellFormed) (hy : y.WellFormed) :
    (x.applyMonotonically y).WellFormed := by
  rw [applyMonotonically_eq]
  exact (hx.toCovered.join hy.toCovered).maybeShadow

/-! ## Convergence -/

/-- Rows equal up to a tie between their markers and up to the cells of a collection that its own
tombstone covers. -/
structure Equiv (x y : DeletableRow n) : Prop where
  deletedAt_eq : x.deletedAt = y.deletedAt
  key_eq : x.marker.key = y.marker.key
  cells_norm : x.cells.norm = y.cells.norm

theorem Equiv.refl (x : DeletableRow n) : Equiv x x := ⟨rfl, rfl, rfl⟩

theorem Equiv.symm (h : Equiv x y) : Equiv y x := ⟨h.deletedAt_eq.symm, h.key_eq.symm, h.cells_norm.symm⟩

theorem Equiv.trans (h : Equiv x y) (h' : Equiv y z) : Equiv x z :=
  ⟨h.deletedAt_eq.trans h'.deletedAt_eq, h.key_eq.trans h'.key_eq, h.cells_norm.trans h'.cells_norm⟩

theorem Equiv.maybeShadow (h : Equiv x y) : Equiv x.maybeShadow y.maybeShadow where
  deletedAt_eq := by
    -- The shadowing reads the marker only for whether it is live and for its timestamp.
    unfold DeletableRow.maybeShadow RowTombstone.maybeShadow ShadowableTombstone.maybeShadow
      ShadowableTombstone.isShadowedBy
    rw [h.deletedAt_eq, RowMarker.isLive_eq_of_key_eq h.key_eq,
      RowMarker.timestamp_eq_of_key_eq h.key_eq]
  key_eq := h.key_eq
  cells_norm := h.cells_norm

/-- Merges of equivalent rows with the same cells are equivalent, whatever the cells hold. -/
theorem Equiv.applyMonotonically_of_cells_eq {x' y' : DeletableRow n} (hx : Equiv x x') (hy : Equiv y y')
    (hcx : x.cells = x'.cells) (hcy : y.cells = y'.cells) :
    Equiv (x.applyMonotonically y) (x'.applyMonotonically y') := by
  rw [applyMonotonically_eq, applyMonotonically_eq]
  refine Equiv.maybeShadow ⟨?_, ?_, ?_⟩
  · simp only [join, hx.deletedAt_eq, hy.deletedAt_eq]
  · simp only [join, RowMarker.key_apply, hx.key_eq, hy.key_eq]
  · simp only [join, hcx, hcy]

section Cells

variable {v : CounterId → Int64 → Int64} {kinds : Fin n → CellKind}

theorem join_comm (hx : x.cells.Valid v kinds) (hy : y.cells.Valid v kinds) : Equiv (x.join y) (y.join x) where
  deletedAt_eq := by simp only [DeletableRow.join, max_comm]
  key_eq := key_mergeBy_comm RowMarker.compareRowMarkerForMerge_orderedBy _ _
  cells_norm := Row.norm_applyMonotonically_comm hx hy

theorem join_assoc (hx : x.cells.Valid v kinds) (hy : y.cells.Valid v kinds) (hz : z.cells.Valid v kinds) :
    Equiv ((x.join y).join z) (x.join (y.join z)) where
  deletedAt_eq := by simp only [DeletableRow.join, max_assoc]
  key_eq := key_mergeBy_assoc RowMarker.compareRowMarkerForMerge_orderedBy _ _ _
  cells_norm := Row.norm_applyMonotonically_assoc hx hy hz

theorem join_self (hx : x.cells.Valid v kinds) : Equiv (x.join x) x where
  deletedAt_eq := by simp [DeletableRow.join]
  key_eq := by simp [DeletableRow.join, RowMarker.apply_self]
  cells_norm := Row.norm_applyMonotonically_self hx

theorem applyMonotonically_comm (hx : x.cells.Valid v kinds) (hy : y.cells.Valid v kinds) :
    Equiv (x.applyMonotonically y) (y.applyMonotonically x) := by
  rw [applyMonotonically_eq, applyMonotonically_eq]
  exact (join_comm hx hy).maybeShadow

theorem applyMonotonically_assoc (hx : x.WellFormed) (hy : y.WellFormed) (hz : z.WellFormed)
    (hcx : x.cells.Valid v kinds) (hcy : y.cells.Valid v kinds) (hcz : z.cells.Valid v kinds) :
    Equiv ((x.applyMonotonically y).applyMonotonically z) (x.applyMonotonically (y.applyMonotonically z)) := by
  have hl : (x.applyMonotonically y).applyMonotonically z = ((x.join y).join z).maybeShadow := by
    rw [applyMonotonically_eq, applyMonotonically_eq, ← hz.maybeShadow_eq,
      maybeShadow_join_maybeShadow (hx.toCovered.join hy.toCovered) hz.toCovered,
      hz.maybeShadow_eq]
  have hr : x.applyMonotonically (y.applyMonotonically z) = (x.join (y.join z)).maybeShadow := by
    rw [applyMonotonically_eq, applyMonotonically_eq, ← hx.maybeShadow_eq,
      maybeShadow_join_maybeShadow hx.toCovered (hy.toCovered.join hz.toCovered),
      hx.maybeShadow_eq]
  rw [hl, hr]
  exact (join_assoc hcx hcy hcz).maybeShadow

theorem applyMonotonically_self (hx : x.WellFormed) (hcx : x.cells.Valid v kinds) :
    Equiv (x.applyMonotonically x) x := by
  have h := (join_self hcx).maybeShadow
  rwa [hx.maybeShadow_eq, ← applyMonotonically_eq] at h

theorem Equiv.applyMonotonically {x' y' : DeletableRow n} (hx : Equiv x x') (hy : Equiv y y')
    (hcx : x.cells.Valid v kinds) (hcy : y.cells.Valid v kinds) (hcx' : x'.cells.Valid v kinds)
    (hcy' : y'.cells.Valid v kinds) : Equiv (x.applyMonotonically y) (x'.applyMonotonically y') := by
  rw [applyMonotonically_eq, applyMonotonically_eq]
  refine Equiv.maybeShadow ⟨?_, ?_, Row.norm_applyMonotonically_congr hcx hcy hcx' hcy' hx.cells_norm hy.cells_norm⟩
  · simp only [join, hx.deletedAt_eq, hy.deletedAt_eq]
  · simp only [join, RowMarker.key_apply, hx.key_eq, hy.key_eq]

end Cells

/-! ### The empty row of a dummy entry -/

section Empty

variable (hx : x.Shadowed) (he : Tombstone.empty ≤ x.deletedAt.regular)
  (hes : Tombstone.empty ≤ x.deletedAt.shadowable.tomb)
include hx he hes

/-- The empty row adds nothing to a row that its marker shadows no further and whose tombstones are not below
tombstone(). -/
theorem empty_applyMonotonically : Equiv (({} : DeletableRow n).applyMonotonically x) x := by
  have h : Equiv (({} : DeletableRow n).join x) x := by
    refine ⟨?_, ?_, congrArg Row.norm (Row.empty_applyMonotonically x.cells)⟩
    · show (⟨max Tombstone.empty x.deletedAt.regular, ⟨max Tombstone.empty x.deletedAt.shadowable.tomb⟩⟩ :
        RowTombstone) = x.deletedAt
      rw [max_eq_right he, max_eq_right hes]
    · show (({} : RowMarker).apply x.marker).key = x.marker.key
      rw [RowMarker.key_apply, max_eq_right (RowMarker.key_empty_le _)]
  have h' := h.maybeShadow
  rwa [← applyMonotonically_eq, maybeShadow_eq_self hx] at h'

theorem applyMonotonically_empty : Equiv (x.applyMonotonically {}) x := by
  have h : Equiv (x.join {}) x := by
    refine ⟨?_, ?_, congrArg Row.norm (Row.applyMonotonically_empty x.cells)⟩
    · show (⟨max x.deletedAt.regular Tombstone.empty, ⟨max x.deletedAt.shadowable.tomb Tombstone.empty⟩⟩ :
        RowTombstone) = x.deletedAt
      rw [max_eq_left he, max_eq_left hes]
    · show (x.marker.apply {}).key = x.marker.key
      rw [RowMarker.key_apply, max_eq_left (RowMarker.key_empty_le _)]
  have h' := h.maybeShadow
  rwa [← applyMonotonically_eq, maybeShadow_eq_self hx] at h'

end Empty

theorem wellFormed_empty : (({} : DeletableRow n)).WellFormed where
  regular_le := le_rfl
  marker_covered := fun _ => Int64.le_refl _
  shadowed := fun _ => rfl

theorem empty_applyMonotonically_empty : ({} : DeletableRow n).applyMonotonically {} = {} := by
  have hj : ({} : DeletableRow n).join {} = {} := by
    simp only [join, max_self, RowMarker.apply_self, Row.empty_applyMonotonically]
  rw [applyMonotonically_eq, hj, wellFormed_empty.maybeShadow_eq]

theorem Equiv.applyTombstone (h : Equiv x y) (t : Tombstone) : Equiv (x.applyTombstone t) (y.applyTombstone t) :=
  Equiv.maybeShadow ⟨by rw [h.deletedAt_eq], h.key_eq, h.cells_norm⟩

/-- deletable_row::equal does not tell apart the compactions of equivalent rows. -/
theorem Equiv.compactAndExpire (h : Equiv x y) (s : Schema) (tomb : Tombstone) (queryTime : Int64)
    (canGc : Tombstone → Bool → Bool) (gcBefore : Int64) :
    (x.compactAndExpire s tomb queryTime canGc gcBefore).1.equal
      (y.compactAndExpire s tomb queryTime canGc gcBefore).1 = true := by
  have ht := h.applyTombstone tomb
  obtain ⟨hbeq, hlive⟩ := RowMarker.compactAndExpire_of_key_eq
    (x.applyTombstone tomb).deletedAt.tomb queryTime canGc gcBefore ht.key_eq
  have hcells : (x.applyTombstone tomb).cells.compactAndExpire = (y.applyTombstone tomb).cells.compactAndExpire := by
    rw [← Row.compactAndExpire_norm', ht.cells_norm, Row.compactAndExpire_norm']
  simp only [DeletableRow.compactAndExpire, DeletableRow.equal, ← ht.deletedAt_eq, ← hcells,
    Row.compactAndExpire_of_isLive_eq hlive, hbeq, RowTombstone.beq, beq_self_eq_true,
    Row.equal_self, Bool.and_self]

theorem Equiv.compact (h : Equiv x y) (s : Schema) (t : Tombstone) :
    (x.compact s t).equal (y.compact s t) = true :=
  h.compactAndExpire s t _ _ _

end DeletableRow

end Scylla
