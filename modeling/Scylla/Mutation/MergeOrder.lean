import Mathlib
import Scylla.Mutation.Cell
import Scylla.Lib.MaxMerge

/-!
# The reconciliation order

compare_atomic_cell_for_merge and compare_row_marker_for_merge decide a strict order through a
lexicographic key (`compareForMerge_orderedBy`), so keeping the larger of two versions is a
maximum: a last-write-wins register.  On cells the key is injective (`AtomicCell.key_injective`),
so the order is total and two cells that tie are one cell; on markers it is not, and two markers
of one key are the markers row_marker's operator== identifies (`RowMarker.beq_of_key_eq`).
-/

namespace Scylla

open MaxMerge

/-! ## The reconciliation order -/

theorem compareUnsigned_orderedBy :
    OrderedBy compareUnsigned (List.map fun b : UInt8 => (b.toNat : Int)) :=
  orderedBy_compareLex (fun a b => by rw [Std.compare_eq_lt, UInt8.lt_iff_toNat_lt]; omega)
    (fun a b => by rw [Std.compare_eq_iff_eq, ← UInt8.toNat_inj]; omega)

private theorem compare_int64_eq_lt (a b : Int64) : compare a b = .lt ↔ a.toInt < b.toInt := by
  rw [Std.compare_eq_lt, Int64.lt_iff_toInt_lt]

/-- compareForMerge is the lexicographic order of MergeView.key. -/
theorem compareForMerge_orderedBy : OrderedBy compareForMerge MergeView.key := by
  rintro ⟨t₁, l₁, e₁, x₁, d₁, z₁, v₁⟩ ⟨t₂, l₂, e₂, x₂, d₂, z₂, v₂⟩
  simp only [compareForMerge, MergeView.key, List.cons_lt_cons_iff, Int64.toInt_inj]
  by_cases ht : t₁ = t₂
  · subst ht
    simp only [ne_eq, not_true_eq_false, if_false, lt_irrefl, false_or, true_and]
    -- Same timestamp: liveness, then ttl, then the value or the deletion time.
    cases l₁ <;> cases l₂ <;> simp [List.cons_lt_cons_iff]
    · rw [Std.compare_eq_lt, UInt64.lt_iff_toNat_lt]
    · cases e₁ <;> cases e₂ <;> simp [List.cons_lt_cons_iff, compareUnsigned_orderedBy _ _]
      by_cases hx : x₁ = x₂
      · subst hx
        by_cases hd : d₁ = d₂
        · simp [hd]
        · have hd' : d₁.toInt ≠ d₂.toInt := fun h => hd (Int64.toInt_inj.1 h)
          simp [hd, compare_int64_eq_lt]
          omega
      · have hx' : x₁.toInt ≠ x₂.toInt := fun h => hx (Int64.toInt_inj.1 h)
        simp [hx, compare_int64_eq_lt, hx']
  · rw [if_pos ht, compare_int64_eq_lt]
    simp [ht]

/-! The order is antisymmetric. -/

/-- One tie-break of a comparison chain swaps when its test is symmetric and each outcome swaps
where the test selects it. -/
private theorem ite_swap {p q : Prop} [Decidable p] [Decidable q] {c c' x y : Ordering} (hpq : p ↔ q)
    (hc : q → c' = c.swap) (h : ¬ q → y = x.swap) : (if p then c' else y) = (if q then c else x).swap := by
  by_cases hq : q
  · rw [if_pos (hpq.2 hq), if_pos hq, hc hq]
  · rw [if_neg (mt hpq.1 hq), if_neg hq, h hq]

theorem compareForMerge_swap (l r : MergeView) : compareForMerge r l = (compareForMerge l r).swap := by
  obtain ⟨t₁, l₁, e₁, x₁, ttl₁, d₁, v₁⟩ := l
  obtain ⟨t₂, l₂, e₂, x₂, ttl₂, d₂, v₂⟩ := r
  unfold compareForMerge compareUnsigned
  dsimp only
  refine ite_swap ne_comm (fun _ => Std.OrientedCmp.eq_swap) fun _ => ?_
  -- The same timestamp: liveness, then for two live versions whether they expire, their expiry,
  -- ttl and value, and for two deletions their deletion times.
  refine ite_swap ne_comm (fun h => by cases l₁ <;> cases l₂ <;> simp_all) fun h => ?_
  obtain rfl : l₁ = l₂ := not_not.1 h
  cases l₁
  · simp only [Bool.false_eq_true, ↓reduceIte]
    exact Std.OrientedCmp.eq_swap
  simp only [↓reduceIte]
  refine ite_swap ne_comm (fun h => by cases e₁ <;> cases e₂ <;> simp_all) fun h => ?_
  obtain rfl : e₁ = e₂ := not_not.1 h
  cases e₁
  · simp only [Bool.false_eq_true, ↓reduceIte]
    exact Std.OrientedCmp.eq_swap
  simp only [↓reduceIte]
  refine ite_swap ne_comm (fun _ => Std.OrientedCmp.eq_swap) fun _ =>
    ite_swap ne_comm (fun _ => Std.OrientedCmp.eq_swap) fun _ => ?_
  exact Std.OrientedCmp.eq_swap

instance : Std.OrientedCmp compareForMerge where
  eq_swap := compareForMerge_swap _ _

instance : Std.OrientedCmp compareAtomicCellForMerge where
  eq_swap := compareForMerge_swap _ _

instance : Std.OrientedCmp compareRowMarkerForMerge where
  eq_swap := compareForMerge_swap _ _

namespace MergeView

variable {v w : MergeView}

theorem timestamp_le_of_key_le (h : v.key ≤ w.key) : v.timestamp ≤ w.timestamp := by
  rw [Int64.le_iff_toInt_le]
  rcases h.lt_or_eq with h | h
  · rw [key, key, List.cons_lt_cons_iff] at h
    rcases h with h | ⟨h, -⟩ <;> omega
  · rw [key, key, List.cons.injEq] at h
    exact h.1.le

theorem timestamp_eq_of_key_eq (h : v.key = w.key) : v.timestamp = w.timestamp := by
  rw [key, key, List.cons.injEq] at h
  exact Int64.toInt_inj.1 h.1

theorem isLive_eq_of_key_eq (h : v.key = w.key) : v.isLive = w.isLive := by
  rw [key, key, List.cons.injEq] at h
  cases hv : v.isLive <;> cases hw : w.isLive <;> simp [hv, hw] at h ⊢

/-- The larger write timestamp wins whatever follows it. -/
theorem key_lt_of_timestamp_lt (h : v.timestamp < w.timestamp) : v.key < w.key := by
  rw [key, key, List.cons_lt_cons_iff]
  exact .inl (Int64.lt_iff_toInt_lt.1 h)

end MergeView

/-! ## Markers -/

namespace RowMarker

/-- The reconciliation key of a marker. -/
def key (m : RowMarker) : List Int := m.mergeView.key

theorem compareRowMarkerForMerge_orderedBy : OrderedBy compareRowMarkerForMerge key :=
  fun l r => compareForMerge_orderedBy l.mergeView r.mergeView

theorem apply_eq_mergeBy (m rm : RowMarker) : m.apply rm = mergeBy compareRowMarkerForMerge m rm :=
  rfl

theorem apply_eq_or (m rm : RowMarker) : m.apply rm = m ∨ m.apply rm = rm :=
  mergeBy_eq_or _ m rm

theorem apply_self (m : RowMarker) : m.apply m = m :=
  mergeBy_self compareRowMarkerForMerge_orderedBy m

theorem key_apply (m rm : RowMarker) : (m.apply rm).key = max m.key rm.key :=
  key_mergeBy compareRowMarkerForMerge_orderedBy m rm

/-- The missing marker row_marker() is the least in the reconciliation order. -/
theorem key_empty_le (m : RowMarker) : ({} : RowMarker).key ≤ m.key := by
  by_cases hm : m.timestamp = missingTimestamp
  · -- Both are deletions at the least timestamp; the empty one has deletion time 0.
    have hl : m.isLive = false := by simp [isLive, isMissing, hm]
    have he : ({} : RowMarker).isLive = false := by simp [isLive, isMissing]
    have hd : ({} : RowMarker).deletionTime = 0 := rfl
    have hle : ((({} : RowMarker).deletionTime.toUInt64.toNat : Nat) : Int) ≤
        (m.deletionTime.toUInt64.toNat : Int) := by
      have h0 : ((0 : Int64).toUInt64.toNat : Int) = 0 := rfl
      rw [hd, h0]
      exact Int.natCast_nonneg _
    simp only [key, mergeView, MergeView.key, hl, he, hm, Bool.false_eq_true, if_false]
    rcases hle.lt_or_eq with h | h
    · exact le_of_lt (List.cons_lt_cons_iff.2 (.inr ⟨rfl, List.cons_lt_cons_iff.2 (.inr ⟨rfl,
        List.cons_lt_cons_iff.2 (.inl h)⟩)⟩))
    · rw [h]
  · have hlt : missingTimestamp.toInt < m.timestamp.toInt :=
      Int64.lt_iff_toInt_lt.1 (Int64.lt_of_le_of_ne (Int64.minValue_le _) (Ne.symm hm))
    exact le_of_lt (List.cons_lt_cons_iff.2 (.inl hlt))

theorem timestamp_le_apply_left (m rm : RowMarker) : m.timestamp ≤ (m.apply rm).timestamp :=
  MergeView.timestamp_le_of_key_le (v := m.mergeView) (w := (m.apply rm).mergeView)
    (key_le_mergeBy_left compareRowMarkerForMerge_orderedBy m rm)

theorem timestamp_le_apply_right (m rm : RowMarker) : rm.timestamp ≤ (m.apply rm).timestamp :=
  MergeView.timestamp_le_of_key_le (v := rm.mergeView) (w := (m.apply rm).mergeView)
    (key_le_mergeBy_right compareRowMarkerForMerge_orderedBy m rm)

variable {m m' : RowMarker}

theorem timestamp_eq_of_key_eq (h : m.key = m'.key) : m.timestamp = m'.timestamp :=
  MergeView.timestamp_eq_of_key_eq (v := m.mergeView) (w := m'.mergeView) h

theorem isLive_eq_of_key_eq (h : m.key = m'.key) : m.isLive = m'.isLive :=
  MergeView.isLive_eq_of_key_eq (v := m.mergeView) (w := m'.mergeView) h

theorem ttl_eq_dead_of_not_isLive (hm : m.isMissing = false) (h : m.isLive = false) : m.ttl = dead := by
  simpa [isLive, hm] using h

theorem isMissing_eq_of_timestamp_eq (h : m.timestamp = m'.timestamp) : m.isMissing = m'.isMissing := by
  simp [isMissing, h]

/-- Markers of one key are equal, or both missing, or both live without ttl: the markers that
operator== identifies. -/
theorem eq_or_of_key_eq (h : m.key = m'.key) :
    m = m' ∨ m.timestamp = m'.timestamp ∧ (m.isMissing = true ∨ m.ttl = noTtl ∧ m'.ttl = noTtl) := by
  have ht := timestamp_eq_of_key_eq h
  have hl := isLive_eq_of_key_eq h
  obtain ⟨ts, ttl, e⟩ := m
  obtain ⟨ts', ttl', e'⟩ := m'
  simp only at ht
  subst ht
  cases hmiss : isMissing ⟨ts, ttl, e⟩
  · cases hlive : isLive ⟨ts, ttl, e⟩
    · -- A deleted marker: the key holds its deletion time, which is its expiry.
      have hd : ttl = dead := ttl_eq_dead_of_not_isLive hmiss hlive
      have hd' : ttl' = dead := ttl_eq_dead_of_not_isLive (by rwa [isMissing] at hmiss ⊢) (hl ▸ hlive)
      subst hd hd'
      simp [key, mergeView, MergeView.key, hlive, ← hl, deletionTime, UInt64.toNat_inj,
        Int64.toUInt64_inj] at h
      exact .inl (by rw [h])
    · -- A live marker: the key holds whether it expires, and then its expiry and ttl.
      simp only [key, mergeView, MergeView.key, ← hl, hlive, if_true, List.cons.injEq, true_and,
        List.map_nil, List.append_nil] at h
      by_cases hx : ttl = noTtl
      · by_cases hx' : ttl' = noTtl
        · exact .inr ⟨rfl, .inr ⟨hx, hx'⟩⟩
        · simp [isExpiring, hx, hx'] at h
      · by_cases hx' : ttl' = noTtl
        · simp [isExpiring, hx, hx'] at h
        · simp only [isExpiring, hx, hx', bne_iff_ne, ne_eq, not_false_eq_true, if_true,
            List.cons.injEq, neg_inj, Int64.toInt_inj, and_true, true_and] at h
          simp [h]
  · exact .inr ⟨rfl, .inl rfl⟩

theorem beq_self (m : RowMarker) : m.beq m = true := by
  simp [beq]

theorem beq_of_key_eq (h : m.key = m'.key) : m.beq m' = true := by
  rcases eq_or_of_key_eq h with rfl | ⟨ht, hmiss | ⟨hn, hn'⟩⟩
  · exact beq_self m
  · simp [beq, ht, hmiss]
  · simp [beq, ht, hn, hn']

theorem beq_symm (h : m.beq m' = true) : m'.beq m = true := by
  simp only [beq, isMissing, Bool.and_eq_true, Bool.or_eq_true, beq_iff_eq] at h ⊢
  obtain ⟨ht, hrest⟩ := h
  refine ⟨ht.symm, ?_⟩
  rcases hrest with hm | ⟨httl, hexp⟩
  · rw [← ht]
    exact .inl hm
  · refine .inr ⟨httl.symm, ?_⟩
    rcases hexp with hn | he
    · rw [← httl]
      exact .inl hn
    · exact .inr he.symm

theorem beq_trans {m'' : RowMarker} (h : m.beq m' = true) (h' : m'.beq m'' = true) : m.beq m'' = true := by
  simp only [beq, isMissing, Bool.and_eq_true, Bool.or_eq_true, beq_iff_eq] at h h' ⊢
  obtain ⟨ht, hrest⟩ := h
  obtain ⟨ht', hrest'⟩ := h'
  refine ⟨ht.trans ht', ?_⟩
  rcases hrest with hm | ⟨httl, hexp⟩
  · exact .inl hm
  · rcases hrest' with hm' | ⟨httl', hexp'⟩
    · exact .inl (ht.trans hm')
    · refine .inr ⟨httl.trans httl', ?_⟩
      rcases hexp with hn | he
      · exact .inl hn
      · rcases hexp' with hn' | he'
        · exact .inl (httl.trans hn')
        · exact .inr (he.trans he')

section Compaction

variable (tomb : Tombstone) (now : Int64) (canGc : Tombstone → Bool → Bool) (gcBefore : Int64)

theorem compactAndExpire_of_isMissing (hm : m.isMissing = true) :
    m.compactAndExpire tomb now canGc gcBefore = ⟨m, false, none⟩ := by
  simp [compactAndExpire, hm]

theorem compactAndExpire_of_le (hm : m.isMissing = false) (hle : m.timestamp ≤ tomb.timestamp) :
    m.compactAndExpire tomb now canGc gcBefore = ⟨{ m with timestamp := missingTimestamp }, false, none⟩ := by
  simp [compactAndExpire, hm, hle]

/-- A marker without ttl that the tombstone does not cover is neither expired nor purged. -/
theorem compactAndExpire_of_noTtl (hm : m.isMissing = false) (hlt : ¬ m.timestamp ≤ tomb.timestamp)
    (hn : m.ttl = noTtl) : m.compactAndExpire tomb now canGc gcBefore = ⟨m, m.isLive, none⟩ := by
  have hdead : ¬ noTtl = dead := by decide
  simp [compactAndExpire, hm, hlt, hn, hdead, isLive]

/-- Compaction cannot tell apart two markers of one key. -/
theorem compactAndExpire_of_key_eq (h : m.key = m'.key) :
    (m.compactAndExpire tomb now canGc gcBefore).marker.beq
        (m'.compactAndExpire tomb now canGc gcBefore).marker = true ∧
      (m.compactAndExpire tomb now canGc gcBefore).marker.isLive =
        (m'.compactAndExpire tomb now canGc gcBefore).marker.isLive := by
  rcases eq_or_of_key_eq h with rfl | ⟨ht, hc⟩
  · exact ⟨beq_self _, rfl⟩
  have hmiss := isMissing_eq_of_timestamp_eq ht
  cases hm : m.isMissing
  · have hm' : m'.isMissing = false := hmiss ▸ hm
    by_cases hle : m.timestamp ≤ tomb.timestamp
    · -- Both covered: both become missing.
      rw [compactAndExpire_of_le tomb now canGc gcBefore hm hle,
        compactAndExpire_of_le tomb now canGc gcBefore hm' (ht ▸ hle)]
      simp [beq, isLive, isMissing]
    · -- Both live without ttl (a missing marker was excluded above): both stay.
      obtain ⟨hn, hn'⟩ := hc.resolve_left (by simp [hm])
      rw [compactAndExpire_of_noTtl tomb now canGc gcBefore hm hle hn,
        compactAndExpire_of_noTtl tomb now canGc gcBefore hm' (ht ▸ hle) hn']
      simp [beq, isLive, ht, hn, hn', hm, hm']
  · -- Both missing: compaction leaves them.
    have hm' : m'.isMissing = true := hmiss ▸ hm
    rw [compactAndExpire_of_isMissing tomb now canGc gcBefore hm,
      compactAndExpire_of_isMissing tomb now canGc gcBefore hm']
    simp [beq, ht, hm, isLive, hm']

end Compaction

end RowMarker

/-! ## Cells -/

namespace AtomicCell

/-- The reconciliation key of a cell. -/
def key (c : AtomicCell) : List Int := c.mergeView.key

theorem compareAtomicCellForMerge_orderedBy : OrderedBy compareAtomicCellForMerge key :=
  fun l r => compareForMerge_orderedBy l.mergeView r.mergeView

private theorem map_toNat_injective :
    Function.Injective (List.map fun b : UInt8 => (b.toNat : Int)) :=
  List.map_injective_iff.2 fun a b h => UInt8.toNat_inj.1 (by exact_mod_cast h)

/-- Cells of one key are the same cell: the reconciliation order is total. -/
theorem key_injective : Function.Injective key := by
  intro c c' h
  cases c <;> cases c' <;>
    simp [key, mergeView, MergeView.key, timestamp, isLive, isLiveAndHasTtl, expiry, ttl, value,
      deletionTime, Int64.toInt_inj, UInt64.toNat_inj, Int64.toUInt64_inj] at h ⊢
  · exact ⟨h.1, map_toNat_injective h.2⟩
  · exact ⟨h.1, map_toNat_injective h.2.2.2, h.2.1, h.2.2.1⟩
  · exact h

theorem timestamp_le_mergeBy_left (c c' : AtomicCell) :
    c.timestamp ≤ (mergeBy compareAtomicCellForMerge c c').timestamp :=
  MergeView.timestamp_le_of_key_le (v := c.mergeView) (w := (mergeBy compareAtomicCellForMerge c c').mergeView)
    (key_le_mergeBy_left compareAtomicCellForMerge_orderedBy c c')

theorem timestamp_le_mergeBy_right (c c' : AtomicCell) :
    c'.timestamp ≤ (mergeBy compareAtomicCellForMerge c c').timestamp :=
  MergeView.timestamp_le_of_key_le (v := c'.mergeView) (w := (mergeBy compareAtomicCellForMerge c c').mergeView)
    (key_le_mergeBy_right compareAtomicCellForMerge_orderedBy c c')

/-- Keeping the first cell when it wins and the second otherwise is the merge: cells that tie are
one cell. -/
theorem ite_gt_eq_mergeBy (c c' : AtomicCell) :
    (if compareAtomicCellForMerge c c' = .gt then c else c') = mergeBy compareAtomicCellForMerge c c' := by
  cases h : compareAtomicCellForMerge c c' with
  | lt => simp [mergeBy, h]
  | gt => simp [mergeBy, h]
  | eq =>
    have h' : compareAtomicCellForMerge c' c = .eq := by
      rw [@Std.OrientedCmp.eq_swap _ compareAtomicCellForMerge _ c' c, h]
      rfl
    have hk : key c = key c' := le_antisymm
      (not_lt.1 fun hlt => by rw [(compareAtomicCellForMerge_orderedBy c' c).2 hlt] at h'; cases h')
      (not_lt.1 fun hlt => by rw [(compareAtomicCellForMerge_orderedBy c c').2 hlt] at h; cases h)
    simp [mergeBy, key_injective hk]

/-- Of two cells with different timestamps the later one wins. -/
theorem mergeBy_of_timestamp_lt {c c' : AtomicCell} (h : c'.timestamp < c.timestamp) :
    mergeBy compareAtomicCellForMerge c c' = c := by
  have hlt : key c' < key c := MergeView.key_lt_of_timestamp_lt (v := c'.mergeView) (w := c.mergeView) h
  rw [mergeBy, if_neg (mt (compareAtomicCellForMerge_orderedBy c c').1 (not_lt.2 hlt.le))]

theorem mergeBy_of_timestamp_lt' {c c' : AtomicCell} (h : c.timestamp < c'.timestamp) :
    mergeBy compareAtomicCellForMerge c c' = c' := by
  have hlt : key c < key c' := MergeView.key_lt_of_timestamp_lt (v := c.mergeView) (w := c'.mergeView) h
  rw [mergeBy, if_pos ((compareAtomicCellForMerge_orderedBy c c').2 hlt)]

end AtomicCell

end Scylla
