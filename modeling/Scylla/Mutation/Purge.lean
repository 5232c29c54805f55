import Scylla.Mutation.Compactor
import Scylla.Mutation.Merge

/-!
# What sstable compaction purges

The compactor splits a clustering row in two: the row it writes, and the garbage collector's row
of what it purged (`consumeClusteringRow`).  Nothing is lost by the split:

* `consumeClusteringRow_restores`: merging the two rows back and compacting without purging gives
  what compacting the input without purging gives, up to `deletable_row::equal`;
* the marker, the cells and the row tombstone each take one step of that proof
  (`RowMarker.compactAndExpire_apply_collected`, `Row.compactAndExpire_apply_collected`,
  `CompactionState.deletedAt_apply_garbage`).
-/

namespace Scylla

open MaxMerge

/-! ## Tombstones and purge bounds -/

namespace Tombstone

theorem toInt_timestamp_max (t u : Tombstone) :
    (max t u).timestamp.toInt = max t.timestamp.toInt u.timestamp.toInt := by
  rcases le_total t u with h | h
  · rw [max_eq_right h, max_eq_right (Int64.le_iff_toInt_le.1 (timestamp_le_of_le h))]
  · rw [max_eq_left h, max_eq_left (Int64.le_iff_toInt_le.1 (timestamp_le_of_le h))]

theorem timestamp_eq_of_le_empty {t : Tombstone} (h : t ≤ empty) : t.timestamp = missingTimestamp :=
  Int64.le_minValue_iff.1 (timestamp_le_of_le h)

end Tombstone

namespace CompactionState

variable (st : CompactionState)

private theorem minTimestamp_toInt : minTimestamp.toInt = missingTimestamp.toInt + 1 := by decide

/-- can_never_purge purges nothing: only an absent timestamp is below api::min_timestamp, and
can_gc never collects an absent tombstone. -/
theorem canGc_withoutPurging : st.withoutPurging.canGc = neverGc := by
  funext t b
  by_cases ht : t.timestamp = missingTimestamp
  · simp [canGc, ht, neverGc]
  · have hlt : ¬ t.timestamp < minTimestamp := by
      have hne : t.timestamp.toInt ≠ missingTimestamp.toInt := fun h => ht (Int64.toInt_inj.1 h)
      have hmin := Int64.minValue_le_toInt t.timestamp
      rw [Int64.lt_iff_toInt_lt, minTimestamp_toInt]
      simp only [missingTimestamp] at hne ⊢
      omega
    have hmiss : (minTimestamp == missingTimestamp) = false := by decide
    cases b <;> simp [canGc, withoutPurging, MaxPurgeable.canPurge, MaxPurgeable.never, hlt, hmiss,
      neverGc]

@[simp] theorem currentTombstone_withoutPurging : st.withoutPurging.currentTombstone = st.currentTombstone :=
  rfl

variable {n : Nat} (cr : DeletableRow n)

@[simp] theorem rowTombstone_withoutPurging : st.withoutPurging.rowTombstone cr = st.rowTombstone cr := rfl

@[simp] theorem dropsRowTombstone_withoutPurging :
    st.withoutPurging.dropsRowTombstone cr = st.dropsRowTombstone cr := rfl

@[simp] theorem purgesRowTombstone_withoutPurging : st.withoutPurging.purgesRowTombstone cr = false := by
  simp [purgesRowTombstone, canPurgeRowTombstone, canPurgeTombstone, canGc_withoutPurging, neverGc]

theorem compactMarker_withoutPurging :
    st.withoutPurging.compactMarker cr =
      cr.marker.compactAndExpire (st.rowTombstone cr).tomb st.queryTime neverGc st.gcBefore := by
  rw [compactMarker, canGc_withoutPurging, rowTombstone_withoutPurging]
  rfl

theorem compactCells_withoutPurging (s : Schema) :
    st.withoutPurging.compactCells s cr =
      cr.cells.compactAndExpire s .regularColumn (st.rowTombstone cr) st.queryTime neverGc st.gcBefore
        (st.withoutPurging.compactMarker cr).marker := by
  rw [compactCells, canGc_withoutPurging, rowTombstone_withoutPurging]
  rfl

end CompactionState

/-! ## Markers -/

namespace RowMarker

variable {m o : RowMarker} (tomb : Tombstone) (now : Int64) (canGc : Tombstone → Bool → Bool)
  (gcBefore : Int64)

/-- The ttl expiration row_marker::compact_and_expire makes before it purges: an expired marker
becomes a deleted one, deleted when its ttl began. -/
def expire (m : RowMarker) (now : Int64) : RowMarker :=
  if noTtl < m.ttl ∧ m.expiry ≤ now then { m with expiry := m.expiry - m.ttl, ttl := dead } else m

@[simp] theorem timestamp_expire : (m.expire now).timestamp = m.timestamp := by
  unfold expire
  split <;> rfl

@[simp] theorem isMissing_expire : (m.expire now).isMissing = m.isMissing := by
  simp [isMissing]

theorem expire_expire : (m.expire now).expire now = m.expire now := by
  unfold expire
  by_cases h : noTtl < m.ttl ∧ m.expiry ≤ now
  · have hdead : ¬ noTtl < dead := by decide
    simp [h, hdead]
  · simp [h]

/-- A live marker is one expiration left unchanged. -/
theorem expire_eq_of_isLive (h : (m.expire now).isLive = true) : m.expire now = m := by
  unfold expire at h ⊢
  by_cases hx : noTtl < m.ttl ∧ m.expiry ≤ now
  · simp [hx, isLive] at h
  · rw [if_neg hx]

theorem compactAndExpire_of_lt (hm : m.isMissing = false) (hlt : ¬ m.timestamp ≤ tomb.timestamp) :
    m.compactAndExpire tomb now canGc gcBefore =
      if (m.expire now).ttl = dead ∧ (m.expire now).expiry < gcBefore ∧
          canGc ⟨(m.expire now).timestamp, (m.expire now).expiry⟩ false = true
        then ⟨{ m.expire now with timestamp := missingTimestamp }, false, some (m.expire now)⟩
      else ⟨m.expire now, (m.expire now).isLive, none⟩ := by
  simp only [compactAndExpire, hm, hlt, expire]
  rfl

theorem compactAndExpire_neverGc_of_lt (hm : m.isMissing = false) (hlt : ¬ m.timestamp ≤ tomb.timestamp) :
    m.compactAndExpire tomb now neverGc gcBefore = ⟨m.expire now, (m.expire now).isLive, none⟩ := by
  rw [compactAndExpire_of_lt tomb now neverGc gcBefore hm hlt]
  simp [neverGc]

/-- A marker compacted without purging keeps its timestamp, or is dropped. -/
theorem compactAndExpire_neverGc_of_isMissing (hm : m.isMissing = true) :
    (m.compactAndExpire tomb now neverGc gcBefore).marker.isMissing = true ∧
      (m.compactAndExpire tomb now neverGc gcBefore).isLive = false := by
  simp [compactAndExpire_of_isMissing tomb now neverGc gcBefore hm, hm]

theorem isMissing_of_timestamp (h : m.timestamp = missingTimestamp) : m.isMissing = true := by
  simp [isMissing, h]

theorem isLive_of_isMissing (h : m.isMissing = true) : m.isLive = false := by
  simp [isLive, h]

theorem beq_of_isMissing {m' : RowMarker} (h : m.isMissing = true) (h' : m'.isMissing = true) :
    m.beq m' = true := by
  simp only [isMissing, beq_iff_eq] at h h'
  simp [beq, isMissing, h, h']

theorem timestamp_lt_of_isMissing (ho : o.isMissing = true) (hm : m.isMissing = false) :
    o.timestamp < m.timestamp := by
  simp only [isMissing, beq_iff_eq, beq_eq_false_iff_ne, ne_eq] at ho hm
  rw [ho]
  exact Int64.lt_of_le_of_ne (Int64.minValue_le _) (Ne.symm hm)

/-- A missing marker loses the merge to a marker that is not missing, on either side. -/
theorem apply_of_isMissing_left (ho : o.isMissing = true) (hm : m.isMissing = false) : o.apply m = m := by
  rcases apply_eq_or o m with h | h
  · have := timestamp_le_apply_right o m
    rw [h] at this
    exact absurd this (Int64.not_le.2 (timestamp_lt_of_isMissing ho hm))
  · exact h

theorem apply_of_isMissing_right (ho : o.isMissing = true) (hm : m.isMissing = false) : m.apply o = m := by
  rcases apply_eq_or m o with h | h
  · exact h
  · have := timestamp_le_apply_left m o
    rw [h] at this
    exact absurd this (Int64.not_le.2 (timestamp_lt_of_isMissing ho hm))

theorem isMissing_apply (ho : o.isMissing = true) (hm : m.isMissing = true) : (o.apply m).isMissing = true := by
  rcases apply_eq_or o m with h | h <;> rw [h]
  · exact ho
  · exact hm

theorem isLive_eq_of_beq {m' : RowMarker} (h : m.beq m' = true) : m.isLive = m'.isLive := by
  simp only [beq, Bool.and_eq_true, beq_iff_eq, Bool.or_eq_true] at h
  obtain ⟨ht, hmiss | ⟨httl, -⟩⟩ := h
  · rw [isLive_of_isMissing hmiss, isLive_of_isMissing (isMissing_of_timestamp (ht ▸ (by simpa [isMissing] using hmiss)))]
  · simp [isLive, isMissing, ht, httl]

/-- What compaction leaves of the marker is live exactly when what compaction without purging
leaves is: only deleted markers are purged. -/
theorem isLive_compactAndExpire_marker :
    (m.compactAndExpire tomb now canGc gcBefore).marker.isLive =
      (m.compactAndExpire tomb now neverGc gcBefore).marker.isLive := by
  cases hm : m.isMissing
  · by_cases hle : m.timestamp ≤ tomb.timestamp
    · simp [compactAndExpire_of_le tomb now _ gcBefore hm hle]
    · rw [compactAndExpire_of_lt tomb now canGc gcBefore hm hle,
        compactAndExpire_neverGc_of_lt tomb now gcBefore hm hle]
      split
      · next h => simp [isLive, isMissing, h.1]
      · rfl
  · simp [compactAndExpire_of_isMissing tomb now _ gcBefore hm]

/-- A marker that stays live after compaction is the marker compacted. -/
theorem eq_of_isLive_compactAndExpire (h : (m.compactAndExpire tomb now canGc gcBefore).marker.isLive = true) :
    (m.compactAndExpire tomb now canGc gcBefore).marker = m := by
  cases hm : m.isMissing
  · by_cases hle : m.timestamp ≤ tomb.timestamp
    · simp [compactAndExpire_of_le tomb now _ gcBefore hm hle, isLive, isMissing] at h
    · rw [compactAndExpire_of_lt tomb now canGc gcBefore hm hle] at h ⊢
      by_cases hp : (m.expire now).ttl = dead ∧ (m.expire now).expiry < gcBefore ∧
          canGc ⟨(m.expire now).timestamp, (m.expire now).expiry⟩ false = true
      · rw [if_pos hp, isLive_of_isMissing (isMissing_of_timestamp rfl)] at h
        exact absurd h Bool.false_ne_true
      · rw [if_neg hp] at h ⊢
        exact expire_eq_of_isLive now h
  · rw [compactAndExpire_of_isMissing tomb now _ gcBefore hm]

/-- The garbage collector only gets deleted markers. -/
theorem isLive_collected :
    ((m.compactAndExpire tomb now canGc gcBefore).collected.getD {}).isLive = false := by
  cases hm : m.isMissing
  · by_cases hle : m.timestamp ≤ tomb.timestamp
    · simp [compactAndExpire_of_le tomb now _ gcBefore hm hle]
      rfl
    · rw [compactAndExpire_of_lt tomb now canGc gcBefore hm hle]
      split
      · next h => simp [isLive, h.1]
      · rfl
  · simp [compactAndExpire_of_isMissing tomb now _ gcBefore hm]
    rfl

private theorem compactAndExpire_agree_of_isMissing {o' ym : RowMarker} (ho : o'.isMissing = true)
    (hy : ym.isMissing = true) :
    (o'.compactAndExpire tomb now neverGc gcBefore).marker.beq ym = true ∧
      (o'.compactAndExpire tomb now neverGc gcBefore).isLive = false := by
  obtain ⟨h₁, h₂⟩ := compactAndExpire_neverGc_of_isMissing tomb now gcBefore ho
  exact ⟨beq_of_isMissing h₁ hy, h₂⟩

/-- Merging the marker compaction left with the marker it purged, and compacting again without
purging, gives the marker compaction without purging leaves.  The merged row may carry another
missing marker where compaction left a missing one. -/
theorem compactAndExpire_apply_collected
    (ho : o = (m.compactAndExpire tomb now canGc gcBefore).marker ∨
      (m.compactAndExpire tomb now canGc gcBefore).marker.isMissing = true ∧ o.isMissing = true) :
    let x := (o.apply ((m.compactAndExpire tomb now canGc gcBefore).collected.getD {})).compactAndExpire
      tomb now neverGc gcBefore
    let y := m.compactAndExpire tomb now neverGc gcBefore
    x.marker.beq y.marker = true ∧ x.isLive = y.isLive := by
  intro x y
  have hemp : ({} : RowMarker).isMissing = true := isMissing_of_timestamp rfl
  cases hm : m.isMissing
  · by_cases hle : m.timestamp ≤ tomb.timestamp
    · -- Covered: both compactions leave a missing marker and purge nothing.
      have hr := compactAndExpire_of_le tomb now canGc gcBefore hm hle
      have hom : o.isMissing = true := by
        rcases ho with rfl | ⟨-, h⟩
        · rw [hr]; exact isMissing_of_timestamp rfl
        · exact h
      simp only [x, y, hr, Option.getD_none, compactAndExpire_of_le tomb now neverGc gcBefore hm hle]
      exact compactAndExpire_agree_of_isMissing tomb now gcBefore (isMissing_apply hom hemp)
        (isMissing_of_timestamp rfl)
    · have hm₁ : (m.expire now).isMissing = false := by rw [isMissing_expire, hm]
      have hle₁ : ¬ (m.expire now).timestamp ≤ tomb.timestamp := by rwa [timestamp_expire]
      -- Not covered: merging back gives the expired marker, which compacts to itself.
      have hx : x = y := by
        simp only [x, y, compactAndExpire_neverGc_of_lt tomb now gcBefore hm hle]
        rw [compactAndExpire_of_lt tomb now canGc gcBefore hm hle] at ho ⊢
        by_cases hp : (m.expire now).ttl = dead ∧ (m.expire now).expiry < gcBefore ∧
            canGc ⟨(m.expire now).timestamp, (m.expire now).expiry⟩ false = true
        · rw [if_pos hp] at ho ⊢
          have hom : o.isMissing = true := by
            rcases ho with rfl | ⟨-, h⟩
            · exact isMissing_of_timestamp rfl
            · exact h
          rw [Option.getD_some, apply_of_isMissing_left hom hm₁,
            compactAndExpire_neverGc_of_lt tomb now gcBefore hm₁ hle₁, expire_expire]
        · rw [if_neg hp] at ho ⊢
          have ho' : o = m.expire now := ho.resolve_right (by simp [hm₁])
          rw [ho', Option.getD_none, apply_of_isMissing_right hemp hm₁,
            compactAndExpire_neverGc_of_lt tomb now gcBefore hm₁ hle₁, expire_expire]
      rw [hx]
      exact ⟨beq_self _, rfl⟩
  · -- Missing: nothing to compact or purge.
    have hr := compactAndExpire_of_isMissing tomb now canGc gcBefore hm
    have hom : o.isMissing = true := by
      rcases ho with rfl | ⟨-, h⟩
      · rw [hr]; exact hm
      · exact h
    simp only [x, y, hr, Option.getD_none, compactAndExpire_of_isMissing tomb now neverGc gcBefore hm]
    exact compactAndExpire_agree_of_isMissing tomb now gcBefore (isMissing_apply hom hemp) hm

/-- The garbage collector gets markers with their timestamps. -/
theorem isMissing_of_collected (h : (m.compactAndExpire tomb now canGc gcBefore).collected = some m') :
    m'.isMissing = false := by
  cases hm : m.isMissing
  · by_cases hle : m.timestamp ≤ tomb.timestamp
    · simp [compactAndExpire_of_le tomb now _ gcBefore hm hle] at h
    · rw [compactAndExpire_of_lt tomb now canGc gcBefore hm hle] at h
      split at h
      · cases h
        rw [isMissing_expire, hm]
      · cases h
  · simp [compactAndExpire_of_isMissing tomb now _ gcBefore hm] at h


theorem timestamp_eq_of_beq {m m' : RowMarker} (h : m.beq m' = true) : m.timestamp = m'.timestamp := by
  simp only [RowMarker.beq, Bool.and_eq_true, beq_iff_eq] at h
  exact h.1


end RowMarker

/-! ## Cells -/

section CompactAtomic

variable {C : Type} (isCounter : Bool) (tomb : RowTombstone) (gcBefore : Int64)

/-- The compaction of an atomic column never both keeps a cell and hands one over. -/
theorem compactAtomic_kept_or_collected (v : AtomicView) (cell dead : C) (canGc : Tombstone → Bool → Bool) :
    (compactAtomic isCounter v cell dead tomb canGc gcBefore).kept = none ∨
      (compactAtomic isCounter v cell dead tomb canGc gcBefore).collected = none := by
  dsimp only [compactAtomic]
  split_ifs <;> simp

/-- What the compaction keeps or hands over is the cell or its deletion, and the row tombstone does not cover
it. -/
theorem compactAtomic_some {v : AtomicView} {cell dead y : C} {canGc : Tombstone → Bool → Bool}
    (h : (compactAtomic isCounter v cell dead tomb canGc gcBefore).kept = some y ∨
      (compactAtomic isCounter v cell dead tomb canGc gcBefore).collected = some y) :
    v.isCoveredBy tomb.regular isCounter = false ∧ (y = cell ∨ y = dead) := by
  dsimp only [compactAtomic] at h
  split_ifs at h with h₁ h₂ h₃ h₄ h₅ h₆ <;>
    simp only [Option.some.injEq, or_false, false_or] at h <;>
    exact ⟨Bool.not_eq_true _ ▸ h₁, by simp [h]⟩

/-- Recompacting without purging what the compaction of an atomic column kept or handed over gives
what compaction without purging gives, when the deletion make_dead builds reads as a deletion of the
cell's timestamp and deletion time, and a deleted cell that has not expired is its own deletion. -/
theorem compactAtomic_restore (view : C → AtomicView) (deadOf : C → C) (c : C)
    (hv : view (deadOf c) = ⟨(view c).timestamp, false, false, (view c).deletionTime⟩)
    (hself : (view c).isLive = false → (view c).hasExpired = false → deadOf c = c) (canGc : Tombstone → Bool → Bool) :
    (∃ y, (compactAtomic isCounter (view c) c (deadOf c) tomb canGc gcBefore).kept.or
          (compactAtomic isCounter (view c) c (deadOf c) tomb canGc gcBefore).collected = some y ∧
        compactAtomic isCounter (view y) y (deadOf y) tomb neverGc gcBefore =
          compactAtomic isCounter (view c) c (deadOf c) tomb neverGc gcBefore) ∨
      ((compactAtomic isCounter (view c) c (deadOf c) tomb canGc gcBefore).kept.or
          (compactAtomic isCounter (view c) c (deadOf c) tomb canGc gcBefore).collected = none ∧
        compactAtomic isCounter (view c) c (deadOf c) tomb neverGc gcBefore = ⟨none, false, none⟩) := by
  -- The deletion is covered exactly when the cell is.
  have hcov : ∀ t, (view (deadOf c)).isCoveredBy t isCounter = (view c).isCoveredBy t isCounter := by
    intro t
    rw [hv]
    rfl
  by_cases hreg : (view c).isCoveredBy tomb.regular isCounter = true
  · exact .inr ⟨by simp [compactAtomic, hreg], by simp [compactAtomic, hreg]⟩
  by_cases hsh : (view c).isCoveredBy tomb.shadowable.tomb isCounter = true
  · exact .inr ⟨by simp [compactAtomic, hsh], by simp [compactAtomic, hsh]⟩
  rw [Bool.not_eq_true] at hreg hsh
  by_cases hexp : (view c).hasExpired = true
  · -- An expired cell leaves its deletion, kept or handed over, which compacts to itself.
    refine .inl ⟨deadOf c, ?_, ?_⟩
    · simp only [compactAtomic, hreg, hsh, hexp, Bool.false_eq_true, if_false, if_true]
      split <;> rfl
    · have hl : (view (deadOf c)).isLive = false := by rw [hv]
      have he : (view (deadOf c)).hasExpired = false := by rw [hv]
      simp [compactAtomic, hcov, hreg, hsh, hexp, hl, he, neverGc]
  · rw [Bool.not_eq_true] at hexp
    refine .inl ⟨c, ?_, rfl⟩
    cases hl : (view c).isLive
    · simp only [compactAtomic, hreg, hsh, hexp, hl, hself hl hexp, Bool.false_eq_true, if_false,
        Bool.not_false, if_true]
      split <;> rfl
    · simp [compactAtomic, hreg, hsh, hexp, hl]

end CompactAtomic

namespace AtomicCell

theorem compactAndExpire_restore (c : AtomicCell) (tomb : RowTombstone) (queryTime : Int64)
    (canGc : Tombstone → Bool → Bool) (gcBefore : Int64) :
    (∃ y, (c.compactAndExpire tomb queryTime canGc gcBefore).kept.or
          (c.compactAndExpire tomb queryTime canGc gcBefore).collected = some y ∧
        y.compactAndExpire tomb queryTime neverGc gcBefore = c.compactAndExpire tomb queryTime neverGc gcBefore) ∨
      ((c.compactAndExpire tomb queryTime canGc gcBefore).kept.or
          (c.compactAndExpire tomb queryTime canGc gcBefore).collected = none ∧
        c.compactAndExpire tomb queryTime neverGc gcBefore = ⟨none, false, none⟩) := by
  have h := compactAtomic_restore false tomb gcBefore (·.view queryTime) (fun y => dead y.timestamp y.deletionTime) c
    (by simp [view])
    (fun hl _ => dead_eq_of_isLive_eq_false hl) canGc
  exact h

end AtomicCell

namespace CounterCell

theorem compactAndExpire_restore {ι : Type} (c : CounterCell ι) (tomb : RowTombstone)
    (canGc : Tombstone → Bool → Bool) (gcBefore : Int64) :
    (∃ y, (c.compactAndExpire tomb canGc gcBefore).kept.or (c.compactAndExpire tomb canGc gcBefore).collected = some y ∧
        y.compactAndExpire tomb neverGc gcBefore = c.compactAndExpire tomb neverGc gcBefore) ∨
      ((c.compactAndExpire tomb canGc gcBefore).kept.or (c.compactAndExpire tomb canGc gcBefore).collected = none ∧
        c.compactAndExpire tomb neverGc gcBefore = ⟨none, false, none⟩) := by
  refine compactAtomic_restore true tomb gcBefore view (fun y => dead y.timestamp y.deletionTime) c
    (by simp [view, timestamp, deletionTime]) (fun hl _ => ?_) canGc
  -- A counter cell that is not live is a deletion.
  cases c with
  | dead t d => rfl
  | _ => cases hl

end CounterCell

namespace CollectionMutation

variable {K : Type}

theorem compactTomb_cases (m : CollectionMutation K) (baseTomb : RowTombstone) (canGc : Tombstone → Bool → Bool)
    (gcBefore : Int64) :
    m.compactTomb baseTomb canGc gcBefore = (Tombstone.empty, Tombstone.empty) ∧ m.tomb ≤ baseTomb.regular ∨
      m.compactTomb baseTomb canGc gcBefore = (Tombstone.empty, m.tomb) ∧ ¬ m.tomb ≤ baseTomb.regular ∨
      m.compactTomb baseTomb canGc gcBefore = (m.tomb, Tombstone.empty) ∧ ¬ m.tomb ≤ baseTomb.regular := by
  unfold compactTomb
  split_ifs with h₁ h₂
  · exact .inl ⟨rfl, h₁⟩
  · exact .inr (.inl ⟨rfl, h₁⟩)
  · exact .inr (.inr ⟨rfl, h₁⟩)

/-- What the compaction keeps or hands over of a collection's cells survives the collection's tombstone. -/
theorem survives_of_compactAndExpire {m : CollectionMutation K} {baseTomb : RowTombstone} {queryTime : Int64}
    {canGc : Tombstone → Bool → Bool} {gcBefore : Int64} {e y : K × AtomicCell}
    (h : ((e.2.compactAndExpire (m.cellTomb baseTomb) queryTime canGc gcBefore).map (e.1, ·)).kept = some y ∨
      ((e.2.compactAndExpire (m.cellTomb baseTomb) queryTime canGc gcBefore).map (e.1, ·)).collected = some y) :
    survives m.tomb y = true := by
  simp only [CellCompaction.map, Option.map_eq_some_iff] at h
  obtain ⟨y', hy', rfl⟩ : ∃ y', ((e.2.compactAndExpire (m.cellTomb baseTomb) queryTime canGc gcBefore).kept = some y' ∨
      (e.2.compactAndExpire (m.cellTomb baseTomb) queryTime canGc gcBefore).collected = some y') ∧ y = (e.1, y') := by
    rcases h with ⟨y', h, rfl⟩ | ⟨y', h, rfl⟩
    · exact ⟨y', .inl h, rfl⟩
    · exact ⟨y', .inr h, rfl⟩
  obtain ⟨hcov, hy⟩ := compactAtomic_some false _ gcBefore hy'
  -- The cell is newer than the tombstone it was compacted under, which is at least the collection's.
  have hlt : (m.cellTomb baseTomb).regular.timestamp < y'.timestamp := by
    simp only [AtomicCell.view, AtomicView.isCoveredBy, Bool.false_and, Bool.or_false] at hcov
    replace hcov := of_decide_eq_false hcov
    rcases hy with rfl | rfl
    · exact Int64.not_le.1 hcov
    · exact Int64.not_le.1 hcov
  rw [survives_iff]
  exact .inr (Int64.lt_of_le_of_lt (Tombstone.timestamp_le_of_le (le_max_left _ _)) hlt)

theorem compactTomb_of_tomb_eq {m m' : CollectionMutation K} (h : m'.tomb = m.tomb) (baseTomb : RowTombstone)
    (canGc : Tombstone → Bool → Bool) (gcBefore : Int64) :
    m'.compactTomb baseTomb canGc gcBefore = m.compactTomb baseTomb canGc gcBefore := by
  simp only [compactTomb, h]

theorem cellTomb_of_tomb_eq {m m' : CollectionMutation K} (h : m'.tomb = m.tomb) (baseTomb : RowTombstone) :
    m'.cellTomb baseTomb = m.cellTomb baseTomb := by
  simp only [cellTomb, h]

/-- An empty collection compacts to nothing. -/
theorem compactAndExpire_of_isEmpty {m : CollectionMutation K} (h : m.isEmpty = true) {baseTomb : RowTombstone}
    (hreg : Tombstone.empty ≤ baseTomb.regular) (queryTime : Int64) (canGc : Tombstone → Bool → Bool)
    (gcBefore : Int64) :
    (m.compactAndExpire baseTomb queryTime canGc gcBefore).survivors.isEmpty = true ∧
      (m.compactAndExpire baseTomb queryTime canGc gcBefore).isLive = false := by
  obtain ⟨ht, hc⟩ := eq_of_isEmpty h
  have hle : m.tomb ≤ baseTomb.regular := ht ▸ hreg
  simp only [compactAndExpire, compactTomb, hle, if_true, hc, List.filterMap_nil, List.any_nil, and_true]
  rfl

variable [LinearOrder K]

/-- Merging back what the compaction of a collection kept with what it handed over, and compacting that
without purging, gives what compacting the collection without purging gives. -/
theorem compactAndExpire_restore {m : CollectionMutation K} (hm : m.Sorted) (baseTomb : RowTombstone)
    (queryTime : Int64) (canGc : Tombstone → Bool → Bool) (gcBefore : Int64)
    (hreg : Tombstone.empty ≤ baseTomb.regular) :
    ((m.compactAndExpire baseTomb queryTime canGc gcBefore).survivors.merge
        (m.compactAndExpire baseTomb queryTime canGc gcBefore).losers).compactAndExpire baseTomb queryTime neverGc
        gcBefore =
      m.compactAndExpire baseTomb queryTime neverGc gcBefore := by
  set T := m.cellTomb baseTomb
  set f := fun e : K × AtomicCell => ((e.2.compactAndExpire T queryTime canGc gcBefore).map (e.1, ·)).kept with hf
  set g := fun e : K × AtomicCell => ((e.2.compactAndExpire T queryTime canGc gcBefore).map (e.1, ·)).collected
    with hg
  set φ := fun e : K × AtomicCell => ((e.2.compactAndExpire T queryTime canGc gcBefore).kept.or
    (e.2.compactAndExpire T queryTime canGc gcBefore).collected).map (e.1, ·) with hφ
  have hfk : ∀ e y, f e = some y → y.1 = e.1 := by
    intro e y h
    obtain ⟨y', -, rfl⟩ := Option.map_eq_some_iff.1 h
    rfl
  have hgk : ∀ e y, g e = some y → y.1 = e.1 := by
    intro e y h
    obtain ⟨y', -, rfl⟩ := Option.map_eq_some_iff.1 h
    rfl
  have hfg : ∀ e, f e = none ∨ g e = none := by
    intro e
    rcases compactAtomic_kept_or_collected false T gcBefore (e.2.view queryTime) e.2
      (AtomicCell.dead e.2.timestamp e.2.deletionTime) canGc with h | h
    · exact .inl (by simp only [hf, CellCompaction.map, Option.map_eq_none_iff]; exact h)
    · exact .inr (by simp only [hg, CellCompaction.map, Option.map_eq_none_iff]; exact h)
  have hφfg : ∀ e, φ e = (f e).or (g e) := by
    intro e
    simp only [hφ, hf, hg, CellCompaction.map]
    cases (e.2.compactAndExpire T queryTime canGc gcBefore).kept <;> rfl
  -- What either side holds survives the other side's tombstone, which is tombstone() or the collection's.
  have hsurv : ∀ t, t = Tombstone.empty ∨ t = m.tomb → ∀ l : List (K × AtomicCell),
      (∀ y ∈ l, survives m.tomb y = true) → l.filter (survives t) = l := by
    rintro t (rfl | rfl) l hl
    · exact List.filter_eq_self.2 fun y _ => survives_empty y
    · exact List.filter_eq_self.2 hl
  have hS : ∀ y ∈ m.cells.filterMap f, survives m.tomb y = true := by
    intro y hy
    obtain ⟨e, -, he⟩ := List.mem_filterMap.1 hy
    exact survives_of_compactAndExpire (.inl he)
  have hL : ∀ y ∈ m.cells.filterMap g, survives m.tomb y = true := by
    intro y hy
    obtain ⟨e, -, he⟩ := List.mem_filterMap.1 hy
    exact survives_of_compactAndExpire (.inr he)
  have hsome : ∀ e y, φ e = some y → y.1 = e.1 ∧
      y.2.compactAndExpire T queryTime neverGc gcBefore = e.2.compactAndExpire T queryTime neverGc gcBefore := by
    intro e y h
    obtain ⟨y', hy', rfl⟩ := Option.map_eq_some_iff.1 h
    refine ⟨rfl, ?_⟩
    rcases AtomicCell.compactAndExpire_restore e.2 T queryTime canGc gcBefore with ⟨z, hz, hc⟩ | ⟨hz, -⟩
    · rw [hz] at hy'
      cases hy'
      exact hc
    · rw [hz] at hy'
      cases hy'
  have hnone : ∀ e, φ e = none → e.2.compactAndExpire T queryTime neverGc gcBefore = ⟨none, false, none⟩ := by
    intro e h
    rcases AtomicCell.compactAndExpire_restore e.2 T queryTime canGc gcBefore with ⟨z, hz, -⟩ | ⟨-, hc⟩
    · simp only [hφ, hz, Option.map_some, reduceCtorEq] at h
    · exact hc
  -- The two tombstones the compaction left are tombstone() and the collection's, or both tombstone().
  have hw : ∀ t l, (t = Tombstone.empty ∨ t = m.tomb) → (writer t l : CollectionMutation K).tomb = t := by
    rintro t l (rfl | rfl)
    · exact writer_tomb_of_eq (fun _ => rfl) l
    · exact writer_tomb_of_eq m.tomb_eq_empty l
  have hmerge : ∀ t₁ t₂, (t₁ = Tombstone.empty ∨ t₁ = m.tomb) → (t₂ = Tombstone.empty ∨ t₂ = m.tomb) →
      ((writer t₁ (m.cells.filterMap f)).merge (writer t₂ (m.cells.filterMap g))).tomb = max t₁ t₂ ∧
      ((writer t₁ (m.cells.filterMap f)).merge (writer t₂ (m.cells.filterMap g))).cells = m.cells.filterMap φ := by
    intro t₁ t₂ h₁ h₂
    rw [merge_tomb, merge_cells, hw t₁ _ h₁, hw t₂ _ h₂]
    refine ⟨rfl, ?_⟩
    rw [writer, writer, hsurv t₂ h₂ _ hS, hsurv t₁ h₁ _ hL, Combine.combine_filterMap
      (fun _ _ => decide_eq_true_iff) (fun _ _ _ => rfl : ∀ x y : K × AtomicCell, y.1 = x.1 → (mergeCell x y).1 = x.1)
      hm hfk hgk hfg]
    exact List.filterMap_congr fun e _ => (hφfg e).symm
  have hsv : (m.compactAndExpire baseTomb queryTime canGc gcBefore).survivors =
      writer (m.compactTomb baseTomb canGc gcBefore).1 (m.cells.filterMap f) := rfl
  have hls : (m.compactAndExpire baseTomb queryTime canGc gcBefore).losers =
      writer (m.compactTomb baseTomb canGc gcBefore).2 (m.cells.filterMap g) := rfl
  rw [hsv, hls]
  rcases compactTomb_cases m baseTomb canGc gcBefore with ⟨ht, hle⟩ | ⟨ht, -⟩ | ⟨ht, -⟩ <;> rw [ht]
  · -- Both parts lost the tombstone: the row tombstone covers the collection's.
    obtain ⟨htomb, hcells⟩ := hmerge _ _ (.inl rfl) (.inl rfl)
    rw [max_self] at htomb
    refine compactAndExpire_of_filterMap ?_ ?_ hcells hsome hnone
    · simp only [compactTomb, htomb, hreg, hle, if_true]
    · simp only [cellTomb, htomb, max_eq_right hreg, max_eq_right hle]
  · obtain ⟨htomb, hcells⟩ := hmerge _ _ (.inl rfl) (.inr rfl)
    rw [max_eq_right m.empty_le_tomb] at htomb
    exact compactAndExpire_of_filterMap (compactTomb_of_tomb_eq htomb _ _ _) (cellTomb_of_tomb_eq htomb _) hcells
      hsome hnone
  · obtain ⟨htomb, hcells⟩ := hmerge _ _ (.inr rfl) (.inl rfl)
    rw [max_eq_left m.empty_le_tomb] at htomb
    exact compactAndExpire_of_filterMap (compactTomb_of_tomb_eq htomb _ _ _) (cellTomb_of_tomb_eq htomb _) hcells
      hsome hnone

end CollectionMutation

namespace Cell

variable (tomb : RowTombstone) (queryTime : Int64) (gcBefore : Int64)

private theorem merge_map_of_or {α : Type} (g : α → Cell) {a b : Option α} (h : a = none ∨ b = none) :
    Option.merge applyMonotonically (a.map g) (b.map g) = (a.or b).map g := by
  rcases h with rfl | rfl
  · cases b <;> rfl
  · cases a <;> rfl

/-- An atomic or a counter cell is kept or handed over, and what is left compacts as the cell did. -/
private theorem restore_of_map {α : Type} (g : α → Cell) {full : α → CellCompaction α} {r r₀ : CellCompaction α}
    (hg : ∀ y, (g y).compactAndExpire tomb queryTime neverGc gcBefore = (full y).map g)
    (hkc : r.kept = none ∨ r.collected = none)
    (h : (∃ y, r.kept.or r.collected = some y ∧ full y = r₀) ∨
      (r.kept.or r.collected = none ∧ r₀ = ⟨none, false, none⟩)) :
    (Option.merge applyMonotonically (r.map g).kept (r.map g).collected).bind
        (fun y => (y.compactAndExpire tomb queryTime neverGc gcBefore).kept) = (r₀.map g).kept ∧
      (Option.merge applyMonotonically (r.map g).kept (r.map g).collected).any
        (fun y => (y.compactAndExpire tomb queryTime neverGc gcBefore).isLive) = (r₀.map g).isLive := by
  simp only [CellCompaction.map]
  rw [merge_map_of_or g hkc]
  rcases h with ⟨y, hy, rfl⟩ | ⟨hy, rfl⟩
  · simp [hy, hg, CellCompaction.map]
  · simp [hy]

private theorem restore_collection {m : CollectionMutation CollectionKey} (hm : m.Sorted)
    (canGc : Tombstone → Bool → Bool) (hreg : Tombstone.empty ≤ tomb.regular) :
    (Option.merge applyMonotonically ((collection m).compactAndExpire tomb queryTime canGc gcBefore).kept
        ((collection m).compactAndExpire tomb queryTime canGc gcBefore).collected).bind
        (fun y => (y.compactAndExpire tomb queryTime neverGc gcBefore).kept) =
      ((collection m).compactAndExpire tomb queryTime neverGc gcBefore).kept ∧
    (Option.merge applyMonotonically ((collection m).compactAndExpire tomb queryTime canGc gcBefore).kept
        ((collection m).compactAndExpire tomb queryTime canGc gcBefore).collected).any
        (fun y => (y.compactAndExpire tomb queryTime neverGc gcBefore).isLive) =
      ((collection m).compactAndExpire tomb queryTime neverGc gcBefore).isLive := by
  set R := m.compactAndExpire tomb queryTime canGc gcBefore
  -- A collection that compacts as the merge of the two parts compacts as the collection.
  have hM : ∀ M : CollectionMutation CollectionKey,
      M.compactAndExpire tomb queryTime neverGc gcBefore = m.compactAndExpire tomb queryTime neverGc gcBefore →
      (collection M).compactAndExpire tomb queryTime neverGc gcBefore =
        (collection m).compactAndExpire tomb queryTime neverGc gcBefore := by
    intro M h
    simp only [compactAndExpire, h]
  have hSL := CollectionMutation.compactAndExpire_restore hm tomb queryTime canGc gcBefore hreg
  have hk : ((collection m).compactAndExpire tomb queryTime canGc gcBefore).kept =
      if R.survivors.isEmpty then none else some (collection R.survivors) := rfl
  have hl : ((collection m).compactAndExpire tomb queryTime canGc gcBefore).collected =
      if R.losers.isEmpty then none else some (collection R.losers) := rfl
  rw [hk, hl]
  cases hS : R.survivors.isEmpty <;> cases hL : R.losers.isEmpty
  · rw [← hM _ hSL]
    exact ⟨rfl, rfl⟩
  · rw [CollectionMutation.merge_of_isEmpty_right hL] at hSL
    rw [← hM _ hSL]
    exact ⟨rfl, rfl⟩
  · rw [CollectionMutation.merge_of_isEmpty_left hS] at hSL
    rw [← hM _ hSL]
    exact ⟨rfl, rfl⟩
  · -- Both parts are empty, and so is what is left of the collection.
    rw [CollectionMutation.merge_of_isEmpty_right hL] at hSL
    obtain ⟨he, hlive⟩ := CollectionMutation.compactAndExpire_of_isEmpty hS hreg queryTime neverGc gcBefore
    have hk' : ((collection R.survivors).compactAndExpire tomb queryTime neverGc gcBefore).kept = none := by
      simp only [compactAndExpire, he, if_true]
    rw [← hM _ hSL, hk']
    exact ⟨rfl, hlive.symm⟩

/-- Merging back what the compaction of a cell kept with what it handed over, and compacting that
without purging, leaves what compacting the cell without purging leaves. -/
theorem compactAndExpire_restore {v : CounterId → Int64 → Int64} (c : Cell) (hc : c.Valid v)
    (canGc : Tombstone → Bool → Bool) (hreg : Tombstone.empty ≤ tomb.regular) :
    (Option.merge applyMonotonically (c.compactAndExpire tomb queryTime canGc gcBefore).kept
        (c.compactAndExpire tomb queryTime canGc gcBefore).collected).bind
        (fun y => (y.compactAndExpire tomb queryTime neverGc gcBefore).kept) =
      (c.compactAndExpire tomb queryTime neverGc gcBefore).kept ∧
    (Option.merge applyMonotonically (c.compactAndExpire tomb queryTime canGc gcBefore).kept
        (c.compactAndExpire tomb queryTime canGc gcBefore).collected).any
        (fun y => (y.compactAndExpire tomb queryTime neverGc gcBefore).isLive) =
      (c.compactAndExpire tomb queryTime neverGc gcBefore).isLive := by
  cases c with
  | atomic c =>
    exact restore_of_map tomb queryTime gcBefore atomic (fun _ => rfl)
      (compactAtomic_kept_or_collected false tomb gcBefore _ c _ canGc)
      (AtomicCell.compactAndExpire_restore c tomb queryTime canGc gcBefore)
  | counter c =>
    exact restore_of_map tomb queryTime gcBefore counter (fun _ => rfl)
      (compactAtomic_kept_or_collected true tomb gcBefore _ c _ canGc)
      (CounterCell.compactAndExpire_restore c tomb canGc gcBefore)
  | collection m => exact restore_collection tomb queryTime gcBefore hc canGc hreg

end Cell

namespace Row

variable {n : Nat}

theorem eq_empty_of_isEmpty {r : Row n} (h : r.isEmpty = true) : r = empty := by
  rw [isEmpty, decide_eq_true_eq] at h
  cases r
  exact congrArg Row.mk (funext h)

private theorem bind_compactAndExpire_restore {v : CounterId → Int64 → Int64} {o : Option Cell}
    (ho : ∀ c ∈ o, c.Valid v) (tomb : RowTombstone) (queryTime : Int64) (canGc : Tombstone → Bool → Bool)
    (gcBefore : Int64) (hreg : Tombstone.empty ≤ tomb.regular) :
    (Option.merge Cell.applyMonotonically (o.bind fun c => (c.compactAndExpire tomb queryTime canGc gcBefore).kept)
        (o.bind fun c => (c.compactAndExpire tomb queryTime canGc gcBefore).collected)).bind
        (fun y => (y.compactAndExpire tomb queryTime neverGc gcBefore).kept) =
      o.bind (fun c => (c.compactAndExpire tomb queryTime neverGc gcBefore).kept) ∧
    (Option.merge Cell.applyMonotonically (o.bind fun c => (c.compactAndExpire tomb queryTime canGc gcBefore).kept)
        (o.bind fun c => (c.compactAndExpire tomb queryTime canGc gcBefore).collected)).any
        (fun y => (y.compactAndExpire tomb queryTime neverGc gcBefore).isLive) =
      o.any (fun c => (c.compactAndExpire tomb queryTime neverGc gcBefore).isLive) := by
  cases o with
  | none => exact ⟨rfl, rfl⟩
  | some c => exact Cell.compactAndExpire_restore tomb queryTime gcBefore c (ho c rfl) canGc hreg

/-- Recompacting without purging what a compaction of the cells kept, merged with what it handed
over, gives what compaction without purging gives. -/
theorem compactAndExpire_apply_collected {v : CounterId → Int64 → Int64} {kinds : Fin n → CellKind}
    (r : Row n) (hr : r.Valid v kinds) (s : Schema) (kind : ColumnKind) (tomb : RowTombstone) (queryTime : Int64)
    (canGc : Tombstone → Bool → Bool) (gcBefore : Int64) (hreg : Tombstone.empty ≤ tomb.regular)
    {m m' : RowMarker} (h : m.isLive = m'.isLive) :
    (((r.compactAndExpire s kind tomb queryTime canGc gcBefore m).row.applyMonotonically
        (r.compactAndExpire s kind tomb queryTime canGc gcBefore m).collected).compactAndExpire s kind tomb queryTime
        neverGc gcBefore m').row = (r.compactAndExpire s kind tomb queryTime neverGc gcBefore m').row ∧
      (((r.compactAndExpire s kind tomb queryTime canGc gcBefore m).row.applyMonotonically
        (r.compactAndExpire s kind tomb queryTime canGc gcBefore m).collected).compactAndExpire s kind tomb queryTime
        neverGc gcBefore m').isLive = (r.compactAndExpire s kind tomb queryTime neverGc gcBefore m').isLive := by
  rw [compactAndExpire_of_isLive_eq h r]
  -- Shadowing by the dead marker leaves the regular tombstone as it is.
  have hreg' : Tombstone.empty ≤ (if deadMarkerShadowsRow s kind m'
      then tomb.applyShadowable ⟨⟨maxTimestamp, Int64.maxValue⟩⟩ {} else tomb).regular := by
    split <;> exact hreg
  have hcell := fun i => bind_compactAndExpire_restore (fun c hc => (hr i c hc).2) _ queryTime canGc gcBefore hreg'
  constructor
  · simp only [compactAndExpire, applyMonotonically]
    congr 1
    funext i
    exact (hcell i).1
  · simp only [compactAndExpire, applyMonotonically]
    congr 1
    simp only [(hcell _).2]

end Row


/-! ## Row tombstones and stored rows -/

/-- Shadowing by the tombstone itself changes nothing. -/
theorem ShadowableTombstone.maybeShadow_self (t : ShadowableTombstone) (m : RowMarker) :
    t.maybeShadow t.tomb m = t := by
  cases hs : t.isShadowedBy m
  · exact maybeShadow_of_not_isShadowedBy hs
  · exact maybeShadow_of_isShadowedBy hs

namespace RowTombstone

variable {t : RowTombstone} {m : RowMarker}

theorem empty_apply (hr : Tombstone.empty ≤ t.regular) (hs : t.regular ≤ t.shadowable.tomb)
    (hm : t.shadowable.maybeShadow t.regular m = t.shadowable) : ({} : RowTombstone).apply t m = t := by
  have h₁ : Tombstone.empty.apply t.regular = t.regular := by rw [Tombstone.apply_eq_max, max_eq_right hr]
  have h₂ : ({} : ShadowableTombstone).apply t.shadowable.tomb = t.shadowable := by
    rw [ShadowableTombstone.apply, Tombstone.apply_eq_max, max_eq_right (hr.trans hs)]
  show (⟨Tombstone.empty.apply t.regular, (({} : ShadowableTombstone).apply t.shadowable.tomb).maybeShadow
    (Tombstone.empty.apply t.regular) m⟩ : RowTombstone) = t
  rw [h₁, h₂, hm]

theorem apply_empty (hr : Tombstone.empty ≤ t.regular) (hs : t.regular ≤ t.shadowable.tomb)
    (hm : t.shadowable.maybeShadow t.regular m = t.shadowable) : t.apply {} m = t := by
  have h₁ : t.regular.apply Tombstone.empty = t.regular := by rw [Tombstone.apply_eq_max, max_eq_left hr]
  have h₂ : t.shadowable.apply Tombstone.empty = t.shadowable := by
    rw [ShadowableTombstone.apply, Tombstone.apply_eq_max, max_eq_left (hr.trans hs)]
  show (⟨t.regular.apply Tombstone.empty, (t.shadowable.apply Tombstone.empty).maybeShadow
    (t.regular.apply Tombstone.empty) m⟩ : RowTombstone) = t
  rw [h₁, h₂, hm]

theorem empty_apply_empty : ({} : RowTombstone).apply {} m = {} :=
  empty_apply le_rfl le_rfl (ShadowableTombstone.maybeShadow_self {} m)


theorem beq_self (t : RowTombstone) : t.beq t = true := by
  simp [beq]

end RowTombstone

namespace DeletableRow

variable {n : Nat}

/-- A row as compaction reads it: well formed, with no tombstone below tombstone(), and a row
tombstone without a timestamp is tombstone() itself. -/
structure Stored (r : DeletableRow n) : Prop extends r.WellFormed where
  empty_le_regular : Tombstone.empty ≤ r.deletedAt.regular
  tomb_eq_empty : r.deletedAt.tomb.timestamp = missingTimestamp → r.deletedAt.tomb = Tombstone.empty

instance (r : DeletableRow n) : Decidable r.Stored :=
  decidable_of_iff (r.WellFormed ∧ Tombstone.empty ≤ r.deletedAt.regular ∧
      (r.deletedAt.tomb.timestamp = missingTimestamp → r.deletedAt.tomb = Tombstone.empty))
    ⟨fun ⟨h₁, h₂, h₃⟩ => ⟨h₁, h₂, h₃⟩, fun h => ⟨h.toWellFormed, h.empty_le_regular, h.tomb_eq_empty⟩⟩

variable {r : DeletableRow n}

theorem Stored.deletedAt_eq_empty (h : r.Stored) (ht : r.deletedAt.tomb.timestamp = missingTimestamp) :
    r.deletedAt = {} := by
  have hs := h.tomb_eq_empty ht
  have hr : r.deletedAt.regular = Tombstone.empty :=
    le_antisymm (hs ▸ h.regular_le) h.empty_le_regular
  rcases hd : r.deletedAt with ⟨reg, ⟨sh⟩⟩
  rw [hd] at hs hr
  simp only [RowTombstone.tomb] at hs hr
  rw [hs, hr]

/-- A marker that is live only when it is the row's own cannot shadow the row tombstone. -/
theorem WellFormed.maybeShadow_of_isLive (h : r.WellFormed) {m : RowMarker}
    (hm : m.isLive = true → m = r.marker) :
    r.deletedAt.shadowable.maybeShadow r.deletedAt.regular m = r.deletedAt.shadowable := by
  cases hs : r.deletedAt.shadowable.isShadowedBy m
  · exact ShadowableTombstone.maybeShadow_of_not_isShadowedBy hs
  · have hl := (ShadowableTombstone.isShadowedBy_iff.1 hs).1
    rw [ShadowableTombstone.maybeShadow_of_isShadowedBy hs]
    exact congrArg ShadowableTombstone.mk (h.shadowed (hm hl ▸ hs)).symm

end DeletableRow

/-! ## The two rows compaction emits -/

namespace CompactionState

section Garbage

variable (st : CompactionState) {n : Nat} (s : Schema) (cr : DeletableRow n)

theorem timestamp_ne_of_canGc {t : Tombstone} {b : Bool} (h : st.canGc t b = true) :
    t.timestamp ≠ missingTimestamp := by
  simp only [canGc, Bool.and_eq_true, bne_iff_ne] at h
  exact h.1

theorem timestamp_ne_of_purgesRowTombstone (h : st.purgesRowTombstone cr = true) :
    cr.deletedAt.tomb.timestamp ≠ missingTimestamp := by
  simp only [purgesRowTombstone, canPurgeRowTombstone, canPurgeTombstone, Bool.and_eq_true] at h
  exact st.timestamp_ne_of_canGc h.2.2

theorem not_purgesRowTombstone_of_drops (h : st.dropsRowTombstone cr = true) :
    st.purgesRowTombstone cr = false := by
  simp [purgesRowTombstone, h]

/-- The garbage collector's row is absent exactly when it is empty. -/
theorem garbage_getD : (consumeClusteringRow st s cr).garbage.getD {} = st.garbage s cr := by
  simp only [consumeClusteringRow]
  split
  · next h =>
    simp only [DeletableRow.isEmpty, Bool.and_eq_true, beq_iff_eq] at h
    obtain ⟨⟨ht, hm⟩, hc⟩ := h
    have hrt : (if st.purgesRowTombstone cr then cr.deletedAt else {}) = {} := by
      cases hp : st.purgesRowTombstone cr
      · rfl
      · simp only [garbage, hp, if_true] at ht
        exact absurd ht (st.timestamp_ne_of_purgesRowTombstone cr hp)
    have hmk : (st.compactMarker cr).collected = none := by
      cases hc' : (st.compactMarker cr).collected with
      | none => rfl
      | some m' =>
        simp only [garbage, hc', Option.getD_some] at hm
        rw [RowMarker.isMissing_of_collected _ _ _ _ hc'] at hm
        cases hm
    have hcl : (st.compactCells s cr).collected = Row.empty := Row.eq_empty_of_isEmpty hc
    simp only [garbage, hrt, hmk, hcl, Option.getD_none]
  · rfl

end Garbage

variable {st : CompactionState} {n : Nat} {s : Schema} {P O : DeletableRow n}

/-- What the regular consumer gets: the compacted row, or nothing for an empty one. -/
theorem row_getD (st : CompactionState) (s : Schema) (P : DeletableRow n) :
    (consumeClusteringRow st s P).row.getD {} = st.compacted s P ∨
      ((st.compacted s P).isEmpty = true ∧ (consumeClusteringRow st s P).row.getD {} = {}) := by
  simp only [consumeClusteringRow]
  split
  · next h => exact .inr ⟨h, rfl⟩
  · exact .inl rfl

theorem empty_le_rowTombstone (hc : Tombstone.empty ≤ st.currentTombstone) :
    Tombstone.empty ≤ (st.rowTombstone P).regular := by
  rw [rowTombstone, RowTombstone.applyTombstone, Tombstone.apply_eq_max]
  exact hc.trans (le_max_right _ _)

section Restore

variable (hO : O = st.compacted s P ∨ ((st.compacted s P).isEmpty = true ∧ O = {}))
include hO

theorem cells_of_restore : O.cells = (st.compactCells s P).row := by
  rcases hO with rfl | ⟨h, rfl⟩
  · rfl
  · simp only [DeletableRow.isEmpty, Bool.and_eq_true] at h
    exact (Row.eq_empty_of_isEmpty h.2).symm

theorem marker_of_restore : O.marker = (st.compactMarker P).marker ∨
    ((st.compactMarker P).marker.isMissing = true ∧ O.marker.isMissing = true) := by
  rcases hO with rfl | ⟨h, rfl⟩
  · exact .inl rfl
  · simp only [DeletableRow.isEmpty, Bool.and_eq_true] at h
    exact .inr ⟨h.1.2, RowMarker.isMissing_of_timestamp rfl⟩

theorem deletedAt_of_restore (hP : P.Stored) : O.deletedAt = (st.compacted s P).deletedAt := by
  rcases hO with rfl | ⟨h, rfl⟩
  · rfl
  · simp only [DeletableRow.isEmpty, Bool.and_eq_true, beq_iff_eq] at h
    have ht := h.1.1
    rw [compacted_deletedAt] at ht ⊢
    by_cases hc : (st.dropsRowTombstone P || st.purgesRowTombstone P) = true
    · rw [if_pos hc]
    · rw [if_neg hc] at ht ⊢
      exact (hP.deletedAt_eq_empty ht).symm

/-- The merged marker is live only as the row's own marker. -/
theorem marker_isLive_of_restore (h : (O.applyMonotonically (st.garbage s P)).marker.isLive = true) :
    (O.applyMonotonically (st.garbage s P)).marker = P.marker := by
  have hg : ((st.compactMarker P).collected.getD {}).isLive = false := RowMarker.isLive_collected _ _ _ _
  rw [DeletableRow.applyMonotonically_marker, garbage_marker] at h ⊢
  rcases RowMarker.apply_eq_or O.marker ((st.compactMarker P).collected.getD {}) with hx | hx
  · rw [hx] at h ⊢
    rcases marker_of_restore hO with ho | ⟨-, ho⟩
    · rw [ho] at h ⊢
      exact RowMarker.eq_of_isLive_compactAndExpire _ _ _ _ h
    · rw [RowMarker.isLive_of_isMissing ho] at h
      cases h
  · rw [hx, hg] at h
    cases h

/-- The row tombstone of the merge is the row's own, or none when the tombstone from above covers
it. -/
theorem deletedAt_apply_garbage (hP : P.Stored) :
    (O.applyMonotonically (st.garbage s P)).deletedAt = if st.dropsRowTombstone P then {} else P.deletedAt := by
  have hshadow := hP.maybeShadow_of_isLive (marker_isLive_of_restore hO)
  rw [DeletableRow.applyMonotonically_deletedAt, deletedAt_of_restore hO hP]
  cases hd : st.dropsRowTombstone P
  · cases hp : st.purgesRowTombstone P
    · simp only [compacted_deletedAt, garbage_deletedAt, hd, hp, Bool.or_false, Bool.false_eq_true, if_false]
      exact RowTombstone.apply_empty hP.empty_le_regular hP.regular_le hshadow
    · simp only [compacted_deletedAt, garbage_deletedAt, hd, hp, Bool.or_true, Bool.false_eq_true, if_true, if_false]
      exact RowTombstone.empty_apply hP.empty_le_regular hP.regular_le hshadow
  · simp only [compacted_deletedAt, garbage_deletedAt, hd, st.not_purgesRowTombstone_of_drops P hd, Bool.true_or, if_true,
      Bool.false_eq_true, if_false]
    exact RowTombstone.empty_apply_empty

variable (hP : P.Stored)
include hP

theorem compacted_deletedAt_restore :
    (st.withoutPurging.compacted s (O.applyMonotonically (st.garbage s P))).deletedAt =
      (st.withoutPurging.compacted s P).deletedAt := by
  have hX := deletedAt_apply_garbage hO hP
  simp only [compacted_deletedAt, purgesRowTombstone_withoutPurging, dropsRowTombstone_withoutPurging,
    Bool.or_false]
  cases hd : st.dropsRowTombstone P
  · have hd' : st.dropsRowTombstone (O.applyMonotonically (st.garbage s P)) = false := by
      rw [dropsRowTombstone, hX, hd, if_neg Bool.false_ne_true]
      exact hd
    rw [hd', hX, hd]
    rfl
  · rw [hX, hd, if_pos rfl]
    split <;> rfl

variable (hc : Tombstone.empty ≤ st.currentTombstone)
include hc

/-- The merge is compacted under the tombstone the row was. -/
theorem rowTombstone_apply_garbage :
    st.rowTombstone (O.applyMonotonically (st.garbage s P)) = st.rowTombstone P := by
  rw [rowTombstone, rowTombstone, deletedAt_apply_garbage hO hP]
  cases hd : st.dropsRowTombstone P
  · rfl
  · -- The tombstone from above covers the row's, and so both come to the tombstone from above.
    have hS : P.deletedAt.shadowable.tomb ≤ st.currentTombstone := of_decide_eq_true hd
    have hR : P.deletedAt.regular ≤ st.currentTombstone := hP.regular_le.trans hS
    simp only [if_true, RowTombstone.applyTombstone, ShadowableTombstone.apply, Tombstone.apply_eq_max]
    rw [max_eq_right hc, max_eq_right hR, max_eq_right hS]

theorem compactMarker_restore :
    (st.withoutPurging.compactMarker (O.applyMonotonically (st.garbage s P))).marker.beq
        (st.withoutPurging.compactMarker P).marker = true ∧
      (st.withoutPurging.compactMarker (O.applyMonotonically (st.garbage s P))).isLive =
        (st.withoutPurging.compactMarker P).isLive := by
  rw [compactMarker_withoutPurging, compactMarker_withoutPurging, rowTombstone_apply_garbage hO hP hc,
    DeletableRow.applyMonotonically_marker, garbage_marker]
  exact RowMarker.compactAndExpire_apply_collected _ _ _ _ (marker_of_restore hO)

theorem compactCells_restore {v : CounterId → Int64 → Int64} {kinds : Fin n → CellKind} (hv : P.cells.Valid v kinds) :
    (st.withoutPurging.compactCells s (O.applyMonotonically (st.garbage s P))).row =
        (st.withoutPurging.compactCells s P).row ∧
      (st.withoutPurging.compactCells s (O.applyMonotonically (st.garbage s P))).isLive =
        (st.withoutPurging.compactCells s P).isLive := by
  have hm := RowMarker.isLive_eq_of_beq (compactMarker_restore hO hP hc).1
  -- The first compaction's marker is as live as the marker compacted without purging.
  have hm₁ : (st.compactMarker P).marker.isLive =
      (st.withoutPurging.compactMarker (O.applyMonotonically (st.garbage s P))).marker.isLive := by
    rw [hm, compactMarker_withoutPurging]
    exact RowMarker.isLive_compactAndExpire_marker _ _ _ _
  rw [compactCells_withoutPurging, compactCells_withoutPurging, rowTombstone_apply_garbage hO hP hc,
    DeletableRow.applyMonotonically_cells, cells_of_restore hO, garbage_cells,
    Row.compactAndExpire_of_isLive_eq hm.symm P.cells]
  exact Row.compactAndExpire_apply_collected P.cells hv s .regularColumn _ _ _ _ (empty_le_rowTombstone hc) hm₁

end Restore


theorem consumeClusteringRow_apply_garbage
    (hO : O = st.compacted s P ∨ ((st.compacted s P).isEmpty = true ∧ O = {})) (hP : P.Stored)
    {v : CounterId → Int64 → Int64} {kinds : Fin n → CellKind} (hv : P.cells.Valid v kinds)
    (hc : Tombstone.empty ≤ st.currentTombstone) :
    Option.Rel (fun a b => a.equal b = true)
        (consumeClusteringRow st.withoutPurging s (O.applyMonotonically (st.garbage s P))).row
        (consumeClusteringRow st.withoutPurging s P).row ∧
      (consumeClusteringRow st.withoutPurging s (O.applyMonotonically (st.garbage s P))).isLive =
        (consumeClusteringRow st.withoutPurging s P).isLive := by
  have hd := compacted_deletedAt_restore hO hP
  obtain ⟨hm, hml⟩ := compactMarker_restore hO hP hc
  obtain ⟨hr, hrl⟩ := compactCells_restore hO hP hc hv
  have hempty : (st.withoutPurging.compacted s (O.applyMonotonically (st.garbage s P))).isEmpty =
      (st.withoutPurging.compacted s P).isEmpty := by
    simp only [DeletableRow.isEmpty, compacted_marker, compacted_cells, hd, hr,
      RowMarker.isMissing_eq_of_timestamp_eq (RowMarker.timestamp_eq_of_beq hm)]
  have hequal : (st.withoutPurging.compacted s (O.applyMonotonically (st.garbage s P))).equal
      (st.withoutPurging.compacted s P) = true := by
    simp only [DeletableRow.equal, compacted_marker, compacted_cells, hd, hr, hm,
      RowTombstone.beq_self, Row.equal_self, Bool.and_true]
  constructor
  · simp only [consumeClusteringRow, hempty]
    split
    · exact .none
    · exact .some hequal
  · simp only [consumeClusteringRow, hml, hrl]

end CompactionState

/-! ## Reads after compaction -/

/-- What a read at time q sees of a cell under the tombstone t: an atomic or a counter cell that
is_live, or the live cells of a collection under the collection's own tombstone too. -/
def Cell.liveAt (c : Cell) (t : Tombstone) (q : Int64) : Option Cell :=
  match c with
  | .atomic c => if c.isLiveAt t q then some (.atomic c) else none
  | .counter c => if c.isLive && !c.view.isCoveredBy t true then some (.counter c) else none
  | .collection m =>
    match m.cells.filter fun e => e.2.isLiveAt (max t m.tomb) q with
    | [] => none
    | cells => some (.collection (CollectionMutation.writer Tombstone.empty cells))

namespace DeletableRow

variable {n : Nat}

/-- What a read at time q sees of a row under the tombstone t from above: whether the row marker
is live, and the live cells. -/
def liveAt (r : DeletableRow n) (t : Tombstone) (q : Int64) : Bool × (Fin n → Option Cell) :=
  let tomb := max t r.deletedAt.tomb
  (r.marker.isLiveAt tomb q, fun i => (r.cells.cell i).bind fun c => c.liveAt tomb q)

end DeletableRow

end Scylla
