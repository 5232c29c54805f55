import Scylla.Lib.StateExcept
import Scylla.Locator.SiblingSets

/-!
# Merging tablets, and what a resize keeps

merge_tablets hands each sibling set to a callback that emplaces the next new tablet, ending at the
last token of the set's last tablet.

* `mergeFrom_spec`, `mergeable_of_mergeFrom`: the callback runs through when every pair of siblings is
  colocated with infos that merge, and only then.
* `owner_mergeLastTokens`, `mergeTablets_spec`: the merged map owns each token by the first set that ends
  at or after its old owner.
* `resize_preserves_ownership`: a split and a merge keep every token with the half or the set of the
  tablet that owned it.
-/

namespace Scylla.Locator

open Dht

namespace TabletMap

variable {ι : Type} {m : TabletMap ι}

/-! ## The merge callback -/

section MergeFrom

variable [Inhabited ι] (colocated : ι → ι → Bool) (mergeTabletInfo : ι → ι → Option ι)

/-- The last tokens of the merged map: each set's last tablet's. -/
def mergeLastTokens (m : TabletMap ι) (sets : List (Nat × Option Nat)) : List Int64 :=
  sets.map fun g => m.tabletIds.lastToken (lastSibling g)

/-- Every pair of siblings has colocated replicas and infos that merge. -/
def Mergeable (m : TabletMap ι) (sets : List (Nat × Option Nat)) : Prop :=
  ∀ l r, (l, some r) ∈ sets → colocated (m.tablets.getD l default) (m.tablets.getD r default) = true ∧
    (mergeTabletInfo (m.tablets.getD l default) (m.tablets.getD r default)).isSome

/-- One lap of the merge callback, for a set that can be merged: it emplaces the set's last token. -/
theorem mergeFrom_cons {nt : TabletMap ι} {j : Nat} {g : Nat × Option Nat} {sets : List (Nat × Option Nat)}
    (hg : ∀ r, g.2 = some r → colocated (m.tablets.getD g.1 default) (m.tablets.getD r default) = true ∧
      (mergeTabletInfo (m.tablets.getD g.1 default) (m.tablets.getD r default)).isSome) :
    ∃ info, m.mergeFrom colocated mergeTabletInfo nt (some j) (g :: sets) =
      nt.emplaceTablet j (m.getLastToken (lastSibling g)) info >>= fun nt₁ =>
        m.mergeFrom colocated mergeTabletInfo nt₁ (nt₁.nextTablet j) sets := by
  obtain ⟨l, r⟩ := g
  cases r with
  | none => exact ⟨m.tablets.getD l default, rfl⟩
  | some r =>
    obtain ⟨hc, hmi⟩ := hg r rfl
    obtain ⟨v, hv⟩ := Option.isSome_iff_exists.1 hmi
    refine ⟨v, ?_⟩
    simp only [mergeFrom, hc, hv, Bool.not_true]
    rfl

/-- The callback over the rest of the sets, with the sets before emplaced: when the rest can be merged,
it emplaces the last token of each set, and the new ids run out exactly at the end. -/
theorem mergeFrom_spec : ∀ (rest : List (Nat × Option Nat)) (nt : TabletMap ι) (done : List Int64),
    nt.tabletIds.Built done → nt.tabletIds.log2Tablets ≤ 64 → nt.tablets.length = done.length + rest.length →
    (done ++ m.mergeLastTokens rest).Pairwise (· < ·) → Mergeable colocated mergeTabletInfo m rest →
    ∃ nt', m.mergeFrom colocated mergeTabletInfo nt (if rest = [] then none else some done.length) rest =
        .ok (nt', none) ∧ nt'.tabletIds.Built (done ++ m.mergeLastTokens rest) ∧
      nt'.tabletIds.log2Tablets ≤ 64 ∧ nt'.tablets.length = done.length + rest.length := by
  intro rest
  induction rest with
  | nil =>
    intro nt done hb hL hlen _ _
    exact ⟨nt, rfl, by simpa [mergeLastTokens] using hb, hL, hlen⟩
  | cons g rest ih =>
    intro nt done hb hL hlen hs hmerge
    have hsplit : done ++ m.mergeLastTokens (g :: rest) =
        (done ++ [m.tabletIds.lastToken (lastSibling g)]) ++ m.mergeLastTokens rest := by
      simp [mergeLastTokens]
    rw [hsplit] at hs
    obtain ⟨ids, hp, hb₁, hL₁⟩ := hb.pushBack hL (hs.sublist (List.sublist_append_left _ _))
    obtain ⟨info, heq⟩ := @mergeFrom_cons _ m _ colocated mergeTabletInfo nt done.length _ rest
      fun r hr => hmerge g.1 r (by rw [← hr]; exact List.mem_cons_self)
    have hid : done.length < nt.tabletCount := by
      rw [tabletCount, hlen, List.length_cons]
      omega
    have hp' : nt.tabletIds.pushBack (m.getLastToken (lastSibling g)) done.length = .ok ids := hp
    rw [if_neg (List.cons_ne_nil _ _), heq, emplaceTablet_eq info hid hp']
    -- The next id is the last one exactly when no set is left.
    have hnext : ({ nt with tabletIds := ids, tablets := nt.tablets.set done.length info } : TabletMap ι).nextTablet
        done.length = if rest = [] then none else some (done ++ [m.tabletIds.lastToken (lastSibling g)]).length := by
      rw [nextTablet, tabletCount_set, tabletCount, hlen, List.length_cons, List.length_append,
        List.length_singleton]
      by_cases hr : rest = []
      · simp [hr]
      · have : rest.length ≠ 0 := fun h => hr (List.eq_nil_of_length_eq_zero h)
        rw [if_neg (by omega), if_neg hr]
    obtain ⟨nt', hrun, hb', hL', hlen'⟩ := ih { nt with tabletIds := ids, tablets := nt.tablets.set done.length info }
      (done ++ [m.tabletIds.lastToken (lastSibling g)]) hb₁ (hL₁ ▸ hL)
      (by simp only [List.length_set, hlen, List.length_cons, List.length_append, List.length_nil]; omega)
      hs fun l r h => hmerge l r (List.mem_cons_of_mem _ h)
    refine ⟨nt', ?_, by rw [hsplit]; exact hb', hL', by rw [hlen']; simp; omega⟩
    show m.mergeFrom colocated mergeTabletInfo _ (TabletMap.nextTablet _ done.length) rest = _
    rw [hnext]
    exact hrun

/-- A run of the callback that succeeds found every pair of siblings colocated and mergeable. -/
theorem mergeable_of_mergeFrom : ∀ (rest : List (Nat × Option Nat)) (nt : TabletMap ι) (newTid : Option Nat)
    (r : TabletMap ι × Option Nat), m.mergeFrom colocated mergeTabletInfo nt newTid rest = .ok r →
    Mergeable colocated mergeTabletInfo m rest := by
  intro rest
  induction rest with
  | nil => exact fun _ _ _ _ l r h => absurd h List.not_mem_nil
  | cons g rest ih =>
    intro nt newTid res h
    cases newTid with
    | none => exact absurd h (by simp [mergeFrom])
    | some j =>
      obtain ⟨l, right⟩ := g
      cases right with
      | none =>
        simp only [mergeFrom] at h
        obtain ⟨nt₁, -, h⟩ := StateExcept.except_bind_eq_ok.1 h
        intro l' r' hmem
        rcases List.mem_cons.1 hmem with heq | hmem
        · cases heq
        · exact ih _ _ _ h l' r' hmem
      | some right =>
        simp only [mergeFrom] at h
        -- The callback throws unless the siblings are colocated and their infos merge.
        split at h
        · simp at h
        · rename_i hc
          split at h
          · rename_i v hv
            obtain ⟨nt₁, -, h⟩ := StateExcept.except_bind_eq_ok.1 h
            intro l' r' hmem
            rcases List.mem_cons.1 hmem with heq | hmem
            · obtain ⟨rfl, hr⟩ := Prod.mk.inj heq
              obtain rfl := Option.some.inj hr
              simp only [Bool.not_eq_true', Bool.not_eq_false] at hc
              exact ⟨by simpa using hc, by rw [hv]; rfl⟩
            · exact ih _ _ _ h l' r' hmem
          · simp at h

/-- merge_tablets once the count and the sets are known: the callback from new tablet 0, and no new
tablet may be left over. -/
theorem mergeTablets_eq {sets : List (Nat × Option Nat)} (hc : m.mergedCount = .ok sets.length)
    (hs : m.forEachSiblingTablets = .ok sets) :
    m.mergeTablets colocated mergeTabletInfo =
      m.mergeFrom colocated mergeTabletInfo (initializedLater sets.length) (some 0) sets >>= fun r =>
        if r.2.isSome then throw .moreNewTablets else pure r.1 := by
  simp only [mergeTablets, hc, hs]
  rfl

end MergeFrom

variable {xs : List Int64}

namespace WellFormed

variable (hw : m.WellFormed xs)
include hw

theorem mergeLastTokens_eq (sets : List (Nat × Option Nat)) :
    m.mergeLastTokens sets = (sets.map lastSibling).map (xs.getD · Int64.minValue) := by
  simp [mergeLastTokens, hw.lastToken_eq]

theorem getD_le_getD {i k : Nat} (hik : i ≤ k) (hk : k < xs.length) :
    xs.getD i Int64.minValue ≤ xs.getD k Int64.minValue := by
  rcases Nat.lt_or_eq_of_le hik with hlt | rfl
  · exact Int64.le_of_lt (TabletIdMap.getD_lt_getD_of_pairwise hw.sorted hlt hk)
  · exact Int64.le_refl _

variable {sets : List (Nat × Option Nat)} (hp : Partition 0 xs.length sets)
include hp

theorem mergeLastTokens_sorted : (m.mergeLastTokens sets).Pairwise (· < ·) := by
  obtain ⟨hs, hbounds⟩ := hp.lastSibling_sorted
  rw [hw.mergeLastTokens_eq, List.pairwise_map]
  refine hs.imp_of_mem fun ha hb hab => ?_
  obtain ⟨g, hg, rfl⟩ := List.mem_map.1 hb
  exact TabletIdMap.getD_lt_getD_of_pairwise hw.sorted hab (by have := (hbounds g hg).2; omega)

theorem getLast?_mergeLastTokens : (m.mergeLastTokens sets).getLast? = some Int64.maxValue := by
  rw [hw.mergeLastTokens_eq, List.getLast?_map, hp.getLast?_lastSibling hw.length_pos, Nat.zero_add,
    Option.map_some, TabletIdMap.getD_of_getLast? hw.last_eq]

/-- A token of the merged map goes to the first set ending at or after its old owner. -/
theorem owner_mergeLastTokens (t : Token) :
    owner (m.mergeLastTokens sets) t = sets.findIdx fun g => decide (owner xs t ≤ lastSibling g) := by
  have hes : ∀ k ∈ sets.map lastSibling, k < xs.length := by
    intro k hk
    obtain ⟨g, hg, rfl⟩ := List.mem_map.1 hk
    have := (hp.lastSibling_sorted.2 g hg).2
    omega
  unfold owner
  rw [hw.mergeLastTokens_eq, LowerBound.findIdx_map_getD hes
    fun i k hik hk h => owner_test_mono t (hw.getD_le_getD hik hk) h, List.findIdx_map]
  rfl

/-- merge_tablets over the sets of the walk: it succeeds when every pair of siblings merges, and what it
returns has a tablet for each set and owns the tokens by the sets' last tokens. -/
theorem mergeTablets_spec [Inhabited ι] (colocated : ι → ι → Bool) (mergeTabletInfo : ι → ι → Option ι)
    (hc : m.mergedCount = .ok sets.length) (hs : m.forEachSiblingTablets = .ok sets) :
    (Mergeable colocated mergeTabletInfo m sets → ∃ m', m.mergeTablets colocated mergeTabletInfo = .ok m') ∧
      ∀ m', m.mergeTablets colocated mergeTabletInfo = .ok m' →
        m'.tabletCount = sets.length ∧ ∀ t, m'.getTabletId t = .ok (owner (m.mergeLastTokens sets) t) := by
  have hne : sets ≠ [] := by
    rintro rfl
    have h := hp.members_eq
    have hn := hw.length_pos
    rw [List.flatMap_nil] at h
    cases hlen : xs.length with
    | zero => omega
    | succ n =>
      rw [hlen, List.range'_succ] at h
      cases h
  have hsorted := hw.mergeLastTokens_sorted hp
  -- The callback from new tablet 0 over every set.
  have hstart := fun hm : Mergeable colocated mergeTabletInfo m sets =>
    mergeFrom_spec colocated mergeTabletInfo sets (initializedLater sets.length) [] (TabletIdMap.built_empty _)
      (Packing.log2ceil_le 64 _) (by simp [initializedLater]) (by simpa using hsorted) hm
  rw [if_neg hne, List.length_nil] at hstart
  refine ⟨fun hm => ?_, fun m' h => ?_⟩
  · obtain ⟨nt', hrun, -⟩ := hstart hm
    exact ⟨nt', by rw [mergeTablets_eq colocated mergeTabletInfo hc hs, hrun]; rfl⟩
  · rw [mergeTablets_eq colocated mergeTabletInfo hc hs] at h
    obtain ⟨⟨nt, tid⟩, hrun, hpost⟩ := StateExcept.except_bind_eq_ok.1 h
    obtain ⟨nt', hrun', hb, hL, hlen⟩ :=
      hstart (mergeable_of_mergeFrom colocated mergeTabletInfo sets _ _ _ hrun)
    rw [hrun] at hrun'
    cases hrun'
    have hm' : nt = m' := by simpa using hpost
    subst hm'
    refine ⟨by rw [tabletCount, hlen, Nat.zero_add], fun t => ?_⟩
    exact TabletIdMap.getTabletId_eq hb hL (by simpa using hsorted) (by simpa using hw.getLast?_mergeLastTokens hp) t

end WellFormed

end TabletMap

/-! ## Split and merge -/

namespace TabletMap

/-- Splitting keeps every token in its tablet, now in the half its range side names, and a merge plan
of the load balancer gives sibling sets on which the walk, sibling_tablets and merge_tablets agree, the
merged map owning each token by the set of its old owner. -/
theorem resize_preserves_ownership [Inhabited ι] {m : TabletMap ι} {xs : List Int64} (hw : m.WellFormed xs) :
    (∃ m', m.splitTablets = .ok m' ∧ m'.tabletCount = 2 * m.tabletCount ∧
      (∀ i < m.tabletCount, m'.getLastToken (2 * i) = m.getSplitToken i ∧
        m'.getLastToken (2 * i + 1) = m.getLastToken i) ∧
      (∀ t i, m.getTabletId t = .ok i ↔
        (m'.getTabletId t = .ok (2 * i) ∨ m'.getTabletId t = .ok (2 * i + 1))) ∧
      ∀ t, ∃ i side, m.getTabletIdAndRangeSide t = .ok (i, side) ∧ side < 2 ∧
        m'.getTabletId t = .ok (2 * i + side)) ∧
    ∀ isolated selected, m.resizeDecision = .merge isolated selected →
      ValidMerge m.tabletCount isolated selected →
      ∃ sets, m.forEachSiblingTablets = .ok sets ∧ Partition 0 m.tabletCount sets ∧
        m.mergedCount = .ok sets.length ∧
        (∀ t < m.tabletCount, ∃ g ∈ sets, m.siblingTablets t = .ok g ∧ t ∈ siblingMembers g) ∧
        ∀ colocated mergeTabletInfo,
          (Mergeable colocated mergeTabletInfo m sets →
            ∃ m', m.mergeTablets colocated mergeTabletInfo = .ok m') ∧
          ∀ m', m.mergeTablets colocated mergeTabletInfo = .ok m' → m'.tabletCount = sets.length ∧
            ∀ t, ∃ i j g, m.getTabletId t = .ok i ∧ m'.getTabletId t = .ok j ∧ sets[j]? = some g ∧
              i ∈ siblingMembers g := by
  refine ⟨?_, fun isolated selected hd hv => ?_⟩
  · -- The split: the halves of each tablet, and the side of each token.
    obtain ⟨m', hsplit, hcount, hhalves, hown⟩ := hw.splitTablets_eq
    refine ⟨m', hsplit, hcount, fun i hi => ⟨(hhalves i hi).1, (hhalves i hi).2.1⟩, fun t i => ?_,
      fun t => ⟨owner xs t, _, hw.getTabletIdAndRangeSide_eq t, by split <;> omega, ?_⟩⟩
    · rw [hw.getTabletId_eq, hown, hw.owner_splitLastTokens]
      simp only [Except.ok.injEq]
      split <;> omega
    · rw [hown, hw.owner_splitLastTokens]
  · -- The merge: the sets of the plan, and the set of each token's old owner.
    obtain ⟨sets, hsets, hss⟩ := siblingSets_of_validMerge hd hv
    have hp : Partition 0 xs.length sets := hw.tabletCount_eq ▸ hss.partition
    refine ⟨sets, hsets, hss.partition, hss.mergedCount_eq, hss.siblingTablets_mem, fun colocated mergeTabletInfo => ?_⟩
    obtain ⟨hok, hspec⟩ := hw.mergeTablets_spec hp colocated mergeTabletInfo hss.mergedCount_eq hsets
    refine ⟨hok, fun m' h => ?_⟩
    obtain ⟨hcount, hown⟩ := hspec m' h
    refine ⟨hcount, fun t => ?_⟩
    obtain ⟨g, hg, hmem⟩ := hp.findIdx_mem ⟨Nat.zero_le _, (Nat.zero_add xs.length).symm ▸ hw.owner_lt t⟩
    exact ⟨owner xs t, _, g, hw.getTabletId_eq t, by rw [hown, hw.owner_mergeLastTokens hp], hg, hmem⟩

/-- Four tablets of a quarter of the ring each, with a plan to merge them in pairs. -/
def quarterLastTokens : List Int64 := [-4611686018427387904, 0, 4611686018427387904, Int64.maxValue]

def quarterTablets : TabletMap Nat :=
  match TabletIdMap.ofLastTokens quarterLastTokens with
  | .ok ids => ⟨ids, [10, 11, 12, 13], .merge none []⟩
  | .error _ => ⟨TabletIdMap.empty 0, [], .none⟩

theorem resize_preserves_ownership_quarters :
    quarterTablets.WellFormed quarterLastTokens ∧
      ∃ m', quarterTablets.splitTablets = .ok m' ∧ m'.tabletCount = 2 * quarterTablets.tabletCount := by
  have hw : quarterTablets.WellFormed quarterLastTokens := ⟨by decide, rfl, by decide, rfl, by decide⟩
  obtain ⟨m', hsplit, hcount, -⟩ := (resize_preserves_ownership hw).1
  exact ⟨hw, m', hsplit, hcount⟩

end TabletMap

end Scylla.Locator
