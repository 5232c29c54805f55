import Mathlib
import Scylla.Lib.KeyedList
import Scylla.Mutation.RangeTombstoneList
import Scylla.Mutation.Row

/-!
# Mutation partitions

The state of one partition of a mutation (`mutation_partition` in `mutation/mutation_partition.hh`): the
partition tombstone, the static row, the clustering rows in their order (`rows_entry`) and the range
tombstones, with the merge `mutation_partition::apply_monotonically`, the compaction `do_compact` that
`compact_for_compaction` runs over all rows, and the equality `mutation_partition::equal`.

Positions (`position_in_partition`) are any linear order.  The merge is the one `mutation_partition::apply`
runs: not preemptible, so the stages that would compact the rows under the other partition's tombstones stop
at once, and with no cache tracker.  The row limit of compaction, `query::partition_max_rows`, is never
reached.

* `sorted_mergeRows`: merging the rows keeps them in order, so the merge is again a partition.
* `entryView_mergeRows`: what the merged rows hold at a position is the merge of what each side holds there,
  except for a dummy row of the other side that falls into a continuous range, which is dropped.
-/

namespace Scylla

open KeyedList

/-- rows_entry: a clustering row at its position, whether the range before it is continuous, and whether
the entry is a dummy, which holds no row of the table. -/
structure RowsEntry (P : Type) (n : Nat) where
  position : P
  continuous : Bool := true
  dummy : Bool := false
  row : DeletableRow n := {}

namespace RowsEntry

variable {P : Type} {n : Nat}

/-- The entries of one position meet: continuous when either is, a dummy when both are, and the rows merged
by rows_entry::apply_monotonically. -/
def applyMonotonically (d e : RowsEntry P n) : RowsEntry P n :=
  ⟨d.position, d.continuous || e.continuous, d.dummy && e.dummy, d.row.applyMonotonically e.row⟩

@[simp] theorem position_applyMonotonically (d e : RowsEntry P n) :
    (d.applyMonotonically e).position = d.position := rfl

/-- What an entry holds, continuity aside. -/
def view (e : RowsEntry P n) : Bool × DeletableRow n := (e.dummy, e.row)

end RowsEntry

section Rows

variable {P : Type} [LinearOrder P] {n : Nat}

/-- The loop of mutation_partition::apply_monotonically over the rows of `src`, with `dst` the rows from the
iterator `i` on. -/
def mergeRows : List (RowsEntry P n) → List (RowsEntry P n) → List (RowsEntry P n)
  | dst, [] => dst
  | dst, e :: src =>
    -- lower_bound: the rows before the source row stay as they are.
    let before := dst.takeWhile fun d => decide (d.position < e.position)
    match dst.dropWhile fun d => decide (d.position < e.position) with
    | [] => before ++ e :: mergeRows [] src
    | d :: rest =>
      if d.position = e.position then before ++ mergeRows (d.applyMonotonically e :: rest) src
      -- When falling into a continuous range, preserve continuity; a dummy row adds nothing there.
      else if d.continuous then
        if e.dummy then before ++ mergeRows (d :: rest) src
        else before ++ { e with continuous := true } :: mergeRows (d :: rest) src
      else before ++ e :: mergeRows (d :: rest) src

/-- What the rows hold at a position. -/
def entryView (rows : List (RowsEntry P n)) (p : P) : Option (Bool × DeletableRow n) :=
  (lookup RowsEntry.position rows p).map RowsEntry.view

/-- What two entries of one position merge into, continuity aside. -/
def mergeView (x y : Bool × DeletableRow n) : Bool × DeletableRow n := (x.1 && y.1, x.2.applyMonotonically y.2)

/-- What the merged rows hold at a position: the merge of what the two sides hold, or nothing where the
other side's dummy row was dropped. -/
def MergedAt (o a b : Option (Bool × DeletableRow n)) : Prop :=
  o = Option.merge mergeView a b ∨ a = none ∧ (∃ r, b = some (true, r)) ∧ o = none

end Rows

/-- mutation_partition: the partition tombstone, the static row and whether it is continuous, the clustering
rows ordered by position, and the range tombstones, ordered and not overlapping. -/
structure MutationPartition (P : Type) [LinearOrder P] (ns nr : Nat) where
  tombstone : Tombstone
  staticRow : Row ns
  staticRowContinuous : Bool
  rows : List (RowsEntry P nr)
  rowTombstones : List (RangeTombstone P Tombstone)
  rows_sorted : Sorted RowsEntry.position rows
  rowTombstones_valid : RangeTombstoneList.Valid rowTombstones

/-! ## Merging the rows -/

section MergeRows

variable {P : Type} [LinearOrder P] {n : Nat} {dst src : List (RowsEntry P n)}

@[simp] theorem mergeRows_nil (dst : List (RowsEntry P n)) : mergeRows dst [] = dst := rfl

/-- A property of entries that merging two entries and marking one continuous keep holds of every merged
row. -/
theorem forall_mem_mergeRows {Q : RowsEntry P n → Prop}
    (hmerge : ∀ d e, Q d → Q e → Q (d.applyMonotonically e)) (hcont : ∀ e, Q e → Q { e with continuous := true })
    (hd : ∀ d ∈ dst, Q d) (hs : ∀ e ∈ src, Q e) : ∀ x ∈ mergeRows dst src, Q x := by
  induction src generalizing dst with
  | nil => exact hd
  | cons e src ih =>
    have he := hs e List.mem_cons_self
    have hs' : ∀ e ∈ src, Q e := fun e' he' => hs e' (List.mem_cons_of_mem _ he')
    have hbefore : ∀ d ∈ dst.takeWhile fun d => decide (d.position < e.position), Q d :=
      fun d hd' => hd d ((List.takeWhile_prefix _).subset hd')
    have hafter : ∀ d ∈ dst.dropWhile fun d => decide (d.position < e.position), Q d :=
      fun d hd' => hd d ((List.dropWhile_suffix _).subset hd')
    intro x hx
    simp only [mergeRows] at hx
    split at hx
    · rcases List.mem_append.1 hx with hx | hx
      · exact hbefore x hx
      · rcases List.mem_cons.1 hx with rfl | hx
        · exact he
        · exact ih (by simp) hs' x hx
    · rename_i d rest hrest
      rw [hrest] at hafter
      have hd' := hafter d List.mem_cons_self
      have hrest' : ∀ d ∈ rest, Q d := fun d' h' => hafter d' (List.mem_cons_of_mem _ h')
      have hcons : ∀ y ∈ d :: rest, Q y := hafter
      split_ifs at hx <;> rcases List.mem_append.1 hx with hx | hx
      · exact hbefore x hx
      · refine ih ?_ hs' x hx
        rintro y hy
        rcases List.mem_cons.1 hy with rfl | hy
        · exact hmerge d e hd' he
        · exact hrest' y hy
      · exact hbefore x hx
      · exact ih hcons hs' x hx
      · exact hbefore x hx
      · rcases List.mem_cons.1 hx with rfl | hx
        · exact hcont e he
        · exact ih hcons hs' x hx
      · exact hbefore x hx
      · rcases List.mem_cons.1 hx with rfl | hx
        · exact he
        · exact ih hcons hs' x hx

/-- Every merged row stands at or after a position that every row of the two sides stands at or after. -/
theorem le_position_of_mem_mergeRows {q : P} (hd : ∀ d ∈ dst, q ≤ d.position) (hs : ∀ e ∈ src, q ≤ e.position) :
    ∀ x ∈ mergeRows dst src, q ≤ x.position :=
  forall_mem_mergeRows (Q := fun x => q ≤ x.position) (fun _ _ h _ => h) (fun _ h => h) hd hs

theorem lt_position_of_mem_mergeRows {q : P} (hd : ∀ d ∈ dst, q < d.position) (hs : ∀ e ∈ src, q < e.position) :
    ∀ x ∈ mergeRows dst src, q < x.position :=
  forall_mem_mergeRows (Q := fun x => q < x.position) (fun _ _ h _ => h) (fun _ h => h) hd hs

/-- The rows a lower bound passes over come before it, and the others at or after it. -/
private theorem takeWhile_dropWhile_bounds {q : P} (hd : Sorted RowsEntry.position dst) :
    (∀ d ∈ dst.takeWhile fun d => decide (d.position < q), d.position < q) ∧
      (∀ d ∈ dst.dropWhile fun d => decide (d.position < q), q ≤ d.position) := by
  refine ⟨fun d h => by simpa using List.mem_takeWhile_imp h, fun d h => ?_⟩
  -- The first row left is not before `q`, and the others come after it.
  cases hdrop : dst.dropWhile fun d => decide (d.position < q) with
  | nil => rw [hdrop] at h; cases h
  | cons d₀ rest =>
    have h₀ : ¬ d₀.position < q := by
      have := List.head_dropWhile_not (fun d : RowsEntry P n => decide (d.position < q)) (l := dst) (by simp [hdrop])
      simpa [hdrop] using this
    have hs : Sorted RowsEntry.position (d₀ :: rest) := by
      rw [← hdrop]
      exact hd.sublist (List.dropWhile_suffix _).sublist
    rw [hdrop] at h
    rcases List.mem_cons.1 h with rfl | h
    · exact not_lt.1 h₀
    · exact (not_lt.1 h₀).trans ((sorted_cons.1 hs).1 d h).le

/-- Merging keeps the rows in order. -/
theorem sorted_mergeRows (hd : Sorted RowsEntry.position dst) (hs : Sorted RowsEntry.position src) :
    Sorted RowsEntry.position (mergeRows dst src) := by
  induction src generalizing dst with
  | nil => exact hd
  | cons e src ih =>
    obtain ⟨hes, hs'⟩ := sorted_cons.1 hs
    obtain ⟨hlt, hge⟩ := takeWhile_dropWhile_bounds (q := e.position) hd
    have hbefore : Sorted RowsEntry.position (dst.takeWhile fun d => decide (d.position < e.position)) :=
      hd.sublist (List.takeWhile_prefix _).sublist
    have hafter : Sorted RowsEntry.position (dst.dropWhile fun d => decide (d.position < e.position)) :=
      hd.sublist (List.dropWhile_suffix _).sublist
    -- What follows the rows passed over stands at or after the source row.
    have happ : ∀ M : List (RowsEntry P n), Sorted RowsEntry.position M → (∀ x ∈ M, e.position ≤ x.position) →
        Sorted RowsEntry.position ((dst.takeWhile fun d => decide (d.position < e.position)) ++ M) :=
      fun M hM hMe => List.pairwise_append.2 ⟨hbefore, hM, fun a ha b hb => lt_of_lt_of_le (hlt a ha) (hMe b hb)⟩
    simp only [mergeRows]
    split
    · rename_i hrest
      refine happ _ (sorted_cons.2 ⟨lt_position_of_mem_mergeRows (by simp) hes, ih sorted_nil hs'⟩) ?_
      intro x hx
      rcases List.mem_cons.1 hx with rfl | hx
      · exact le_rfl
      · exact (lt_position_of_mem_mergeRows (by simp) hes x hx).le
    · rename_i d rest hrest
      rw [hrest] at hge hafter
      obtain ⟨hdr, hrs⟩ := sorted_cons.1 hafter
      have hde : e.position ≤ d.position := hge d List.mem_cons_self
      have hge' : ∀ x ∈ d :: rest, e.position ≤ x.position := hge
      split_ifs with hpos hcont hdummy
      · -- The merged entry takes the place of `d`.
        have hm : Sorted RowsEntry.position (d.applyMonotonically e :: rest) := sorted_cons.2 ⟨hdr, hrs⟩
        refine happ _ (ih hm hs') (le_position_of_mem_mergeRows ?_ fun x hx => (hes x hx).le)
        intro x hx
        rcases List.mem_cons.1 hx with rfl | hx
        · exact hde
        · exact hge' x (List.mem_cons_of_mem _ hx)
      · exact happ _ (ih hafter hs') (le_position_of_mem_mergeRows hge' fun x hx => (hes x hx).le)
      · have hlt' : e.position < d.position := lt_of_le_of_ne hde (Ne.symm hpos)
        have hgt : ∀ x ∈ d :: rest, e.position < x.position := fun x hx => by
          rcases List.mem_cons.1 hx with rfl | hx
          · exact hlt'
          · exact hlt'.trans (hdr x hx)
        refine happ _ (sorted_cons.2 ⟨lt_position_of_mem_mergeRows hgt hes, ih hafter hs'⟩) fun x hx => ?_
        rcases List.mem_cons.1 hx with rfl | hx
        · exact le_rfl
        · exact (lt_position_of_mem_mergeRows hgt hes x hx).le
      · have hlt' : e.position < d.position := lt_of_le_of_ne hde (Ne.symm hpos)
        have hgt : ∀ x ∈ d :: rest, e.position < x.position := fun x hx => by
          rcases List.mem_cons.1 hx with rfl | hx
          · exact hlt'
          · exact hlt'.trans (hdr x hx)
        refine happ _ (sorted_cons.2 ⟨lt_position_of_mem_mergeRows hgt hes, ih hafter hs'⟩) fun x hx => ?_
        rcases List.mem_cons.1 hx with rfl | hx
        · exact le_rfl
        · exact (lt_position_of_mem_mergeRows hgt hes x hx).le

/-! ### What the merged rows hold -/

theorem entryView_cons_self (x : RowsEntry P n) (l : List (RowsEntry P n)) :
    entryView (x :: l) x.position = some x.view := by
  rw [entryView, lookup_cons_of_eq rfl, Option.map_some]

theorem entryView_cons_of_ne {x : RowsEntry P n} {p : P} (h : x.position ≠ p) (l : List (RowsEntry P n)) :
    entryView (x :: l) p = entryView l p := by
  rw [entryView, entryView, lookup_cons_of_ne h]

theorem entryView_eq_none {l : List (RowsEntry P n)} {p : P} (h : ∀ x ∈ l, x.position ≠ p) :
    entryView l p = none := by
  rw [entryView, lookup_eq_none.2 h, Option.map_none]

theorem entryView_append (l₁ l₂ : List (RowsEntry P n)) (p : P) :
    entryView (l₁ ++ l₂) p = (entryView l₁ p).or (entryView l₂ p) := by
  rw [entryView, entryView, entryView, lookup_append]
  cases lookup RowsEntry.position l₁ p <;> rfl

/-- The rows a lower bound passes over hold the positions before it, on both sides of the merge. -/
private theorem mergedAt_before {q : P} {B X D S : List (RowsEntry P n)} (hsplit : B ++ D = dst)
    (hB : ∀ x ∈ B, x.position < q)
    (hX : ∀ x ∈ X, q ≤ x.position) (hD : ∀ x ∈ D, q ≤ x.position) (hS : ∀ x ∈ S, q ≤ x.position)
    (h : ∀ p, q ≤ p → MergedAt (entryView X p) (entryView D p) (entryView S p)) (p : P) :
    MergedAt (entryView (B ++ X) p) (entryView dst p) (entryView S p) := by
  rw [← hsplit, entryView_append, entryView_append]
  by_cases hp : p < q
  · -- Only the rows passed over stand there.
    have hXn := entryView_eq_none fun x hx => (lt_of_lt_of_le hp (hX x hx)).ne'
    have hDn := entryView_eq_none fun x hx => (lt_of_lt_of_le hp (hD x hx)).ne'
    have hSn := entryView_eq_none fun x hx => (lt_of_lt_of_le hp (hS x hx)).ne'
    rw [hXn, hDn, hSn]
    left
    cases entryView B p <;> rfl
  · have hBn := entryView_eq_none fun x hx => (lt_of_lt_of_le (hB x hx) (not_lt.1 hp)).ne
    rw [hBn, Option.none_or, Option.none_or]
    exact h p (not_lt.1 hp)

/-- A row of the source inserted at its position, as it is or marked continuous. -/
private theorem mergedAt_insert {e y : RowsEntry P n} {D src : List (RowsEntry P n)}
    (hpos : y.position = e.position) (hview : y.view = e.view) (hD : ∀ x ∈ D, e.position < x.position)
    (ih : ∀ p, MergedAt (entryView (mergeRows D src) p) (entryView D p) (entryView src p)) (p : P)
    (hp : e.position ≤ p) :
    MergedAt (entryView (y :: mergeRows D src) p) (entryView D p) (entryView (e :: src) p) := by
  rcases hp.lt_or_eq with hp | rfl
  · rw [entryView_cons_of_ne (hpos ▸ hp.ne), entryView_cons_of_ne hp.ne]
    exact ih p
  · rw [← hpos, entryView_cons_self, hpos, entryView_cons_self, hview, entryView_eq_none fun x hx => (hD x hx).ne']
    left
    rfl

/-- What the merged rows hold at each position. -/
theorem entryView_mergeRows (hd : Sorted RowsEntry.position dst) (hs : Sorted RowsEntry.position src) (p : P) :
    MergedAt (entryView (mergeRows dst src) p) (entryView dst p) (entryView src p) := by
  induction src generalizing dst p with
  | nil =>
    have hnil : entryView ([] : List (RowsEntry P n)) p = none := rfl
    left
    rw [mergeRows_nil, hnil]
    cases entryView dst p <;> rfl
  | cons e src ih =>
    obtain ⟨hes, hs'⟩ := sorted_cons.1 hs
    obtain ⟨hlt, hge⟩ := takeWhile_dropWhile_bounds (q := e.position) hd
    have hafter : Sorted RowsEntry.position (dst.dropWhile fun d => decide (d.position < e.position)) :=
      hd.sublist (List.dropWhile_suffix _).sublist
    have hsplit := (List.takeWhile_append_dropWhile (p := fun d => decide (d.position < e.position)) (l := dst))
    have hS : ∀ x ∈ e :: src, e.position ≤ x.position := fun x hx => by
      rcases List.mem_cons.1 hx with rfl | hx
      · exact le_rfl
      · exact (hes x hx).le
    simp only [mergeRows]
    split
    · -- The source row goes after every row of `dst`.
      rename_i hnil
      rw [hnil] at hge hsplit
      refine mergedAt_before hsplit hlt ?_ (by simp) hS
        (mergedAt_insert rfl rfl (by simp) (ih sorted_nil hs')) p
      intro x hx
      rcases List.mem_cons.1 hx with rfl | hx
      · exact le_rfl
      · exact (lt_position_of_mem_mergeRows (by simp) hes x hx).le
    · rename_i d rest hrest
      rw [hrest] at hge hafter hsplit
      obtain ⟨hdr, hrs⟩ := sorted_cons.1 hafter
      have hde : e.position ≤ d.position := hge d List.mem_cons_self
      split_ifs with hpos hcont hdummy
      · -- The source row meets `d`.
        have hm : Sorted RowsEntry.position (d.applyMonotonically e :: rest) := sorted_cons.2 ⟨hdr, hrs⟩
        have hM : ∀ x ∈ d.applyMonotonically e :: rest, e.position ≤ x.position := fun x hx => by
          rcases List.mem_cons.1 hx with rfl | hx
          · exact hde
          · exact hge x (List.mem_cons_of_mem _ hx)
        refine mergedAt_before hsplit hlt (le_position_of_mem_mergeRows hM fun x hx => (hes x hx).le) hge hS
          (fun p hp => ?_) p
        rcases hp.lt_or_eq with hp | hp
        · have hne : d.position ≠ p := hpos ▸ hp.ne
          have h := ih hm hs' p
          rw [entryView_cons_of_ne (x := d.applyMonotonically e) hne] at h
          rwa [entryView_cons_of_ne hne, entryView_cons_of_ne hp.ne]
        · -- At the source row's position stands the merged entry.
          subst hp
          have hself := entryView_cons_self (d.applyMonotonically e) rest
          rw [RowsEntry.position_applyMonotonically, hpos] at hself
          have hd' := entryView_cons_self d rest
          rw [hpos] at hd'
          have h := ih hm hs' e.position
          rw [hself, entryView_eq_none fun x hx => (hes x hx).ne'] at h
          rw [hd', entryView_cons_self]
          left
          rcases h with h | ⟨h, -⟩
          · rw [h]
            rfl
          · cases h
      · -- A dummy row falling into a continuous range is dropped.
        have hlt' : e.position < d.position := lt_of_le_of_ne hde (Ne.symm hpos)
        have hgt : ∀ x ∈ d :: rest, e.position < x.position := fun x hx => by
          rcases List.mem_cons.1 hx with rfl | hx
          · exact hlt'
          · exact hlt'.trans (hdr x hx)
        refine mergedAt_before hsplit hlt (le_position_of_mem_mergeRows hge fun x hx => (hes x hx).le) hge hS
          (fun p hp => ?_) p
        rcases hp.lt_or_eq with hp | rfl
        · rw [entryView_cons_of_ne hp.ne]
          exact ih hafter hs' p
        · have hDn := entryView_eq_none fun x hx => (hgt x hx).ne'
          have h := ih hafter hs' e.position
          rw [hDn, entryView_eq_none fun x hx => (hes x hx).ne'] at h
          have ho : entryView (mergeRows (d :: rest) src) e.position = none := by
            rcases h with h | ⟨-, -, h⟩
            · exact h
            · exact h
          right
          exact ⟨hDn, ⟨e.row, by rw [entryView_cons_self]; simp [RowsEntry.view, hdummy]⟩, ho⟩
      · have hlt' : e.position < d.position := lt_of_le_of_ne hde (Ne.symm hpos)
        have hgt : ∀ x ∈ d :: rest, e.position < x.position := fun x hx => by
          rcases List.mem_cons.1 hx with rfl | hx
          · exact hlt'
          · exact hlt'.trans (hdr x hx)
        refine mergedAt_before hsplit hlt ?_ hge hS
          (mergedAt_insert (y := { e with continuous := true }) rfl rfl hgt (ih hafter hs')) p
        intro x hx
        rcases List.mem_cons.1 hx with rfl | hx
        · exact le_rfl
        · exact (lt_position_of_mem_mergeRows hgt hes x hx).le
      · have hlt' : e.position < d.position := lt_of_le_of_ne hde (Ne.symm hpos)
        have hgt : ∀ x ∈ d :: rest, e.position < x.position := fun x hx => by
          rcases List.mem_cons.1 hx with rfl | hx
          · exact hlt'
          · exact hlt'.trans (hdr x hx)
        refine mergedAt_before hsplit hlt ?_ hge hS (mergedAt_insert rfl rfl hgt (ih hafter hs')) p
        intro x hx
        rcases List.mem_cons.1 hx with rfl | hx
        · exact le_rfl
        · exact (lt_position_of_mem_mergeRows hgt hes x hx).le

end MergeRows

namespace MutationPartition

variable {P : Type} [LinearOrder P] {ns nr : Nat}

/-- mutation_partition::apply_monotonically, not preemptible: the tombstones, the static row, the range
tombstones and the rows of `src` go into `p`. -/
def applyMonotonically (p src : MutationPartition P ns nr) : MutationPartition P ns nr where
  tombstone := p.tombstone.apply src.tombstone
  staticRow := p.staticRow.applyMonotonically src.staticRow
  staticRowContinuous := p.staticRowContinuous || src.staticRowContinuous
  rows := mergeRows p.rows src.rows
  rowTombstones := RangeTombstoneList.applyMonotonically p.rowTombstones src.rowTombstones
  rows_sorted := sorted_mergeRows p.rows_sorted src.rows_sorted
  rowTombstones_valid := (RangeTombstoneList.applyMonotonically_spec p.rowTombstones_valid _).1

/-- range_tombstone_for_row: the partition tombstone, with the range tombstone covering the key applied. -/
def rangeTombstoneForRow (p : MutationPartition P ns nr) (key : P) : Tombstone :=
  if p.rowTombstones.isEmpty then p.tombstone
  else p.tombstone.apply (WithBot.unbotD Tombstone.empty (RangeTombstoneList.searchTombstoneCovering p.rowTombstones key))

/-- The callback of trim_rows in do_compact, with the erasure of an empty entry: a row is compacted under
the tombstone for its key, a dummy is left as it is. -/
def compactEntry (p : MutationPartition P ns nr) (s : Schema) (queryTime : Int64)
    (canGc : Tombstone → Bool → Bool) (gcBefore : Int64) (e : RowsEntry P nr) : Option (RowsEntry P nr) :=
  let e := if e.dummy then e
    else { e with row := (e.row.compactAndExpire s (p.rangeTombstoneForRow e.position) queryTime canGc gcBefore).1 }
  if e.row.isEmpty then none else some e

/-- mutation_partition::do_compact over all rows, as compact_for_compaction runs it: the static row under the
partition tombstone, each row under the tombstone for its key, then the range tombstones that may be purged or
that the partition tombstone covers go, and the partition tombstone goes if it may be purged. -/
def compactForCompaction (p : MutationPartition P ns nr) (s : Schema) (queryTime : Int64)
    (canGc : Tombstone → Bool → Bool) (gcBefore : Int64) : MutationPartition P ns nr where
  tombstone := if decide (p.tombstone.deletionTime < gcBefore) && canGc p.tombstone false
    then Tombstone.empty else p.tombstone
  staticRow := (p.staticRow.compactAndExpire s .staticColumn ⟨p.tombstone, ⟨p.tombstone⟩⟩ queryTime canGc
    gcBefore {}).row
  staticRowContinuous := p.staticRowContinuous
  rows := p.rows.filterMap (p.compactEntry s queryTime canGc gcBefore)
  -- Only row tombstones can be shadowable, range tombstones aren't.
  rowTombstones := p.rowTombstones.filter fun rt =>
    !(decide (rt.tomb.deletionTime < gcBefore) && canGc rt.tomb false || decide (rt.tomb ≤ p.tombstone))
  rows_sorted := by
    refine p.rows_sorted.filterMap (fun e y h => ?_)
    simp only [compactEntry] at h
    split_ifs at h with hd he <;> cases h <;> rfl
  rowTombstones_valid := by
    refine RangeTombstoneList.valid_of_pairwise (fun rt hrt => ?_) (p.rowTombstones_valid.pairwise.filter _)
    exact p.rowTombstones_valid.startPos_lt rt (List.mem_of_mem_filter hrt)

/-- mutation_partition::equal for partitions of one schema: the partition tombstones, the rows that are not
dummies, position and row, the range tombstones and the static rows. -/
def equal (a b : MutationPartition P ns nr) : Bool :=
  a.tombstone == b.tombstone &&
    (a.rows.filter (!·.dummy)).isEqv (b.rows.filter (!·.dummy))
      (fun e e' => decide (e.position = e'.position) && e.row.equal e'.row) &&
    a.rowTombstones.isEqv b.rowTombstones
      (fun rt rt' => rt.tomb == rt'.tomb && decide (rt.startPos = rt'.startPos) && decide (rt.endPos = rt'.endPos)) &&
    a.staticRow.equal b.staticRow

end MutationPartition

end Scylla
