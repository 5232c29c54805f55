import Scylla.Locator.TabletIdMap

/-!
# Splitting tablets

A tablet_map holds the last token of each tablet, in a tablet_id_map, and the info of each tablet.
The load balancer resizes a table by splitting every tablet at the midpoint of its range, or by
merging sibling tablets: adjacent pairs, leaving one tablet alone when the count is odd, or only the
selected pairs.  This module models the map and both resizes, and proves what a split does.

* `WellFormed`: a map built from strictly increasing last tokens ending at the maximum token, each
  tablet owning at least two tokens.
* `owner_splitLastTokens`: a token goes to the half of its old tablet that its side of the split token
  names.
* `splitTablets_eq`: split_tablets doubles the tablets, the halves of each ending at its split token and
  at its last token, both with its info.
-/

namespace Scylla.Locator

open Dht

/-- resize_decision::way_type: no resize, a split, or a merge with its plan. -/
inductive ResizeWay where
  | none
  | split
  /-- resize_decision::merge: the tablet left alone when the count is odd, and for a selective merge
  the left tablets of the pairs to merge. -/
  | merge (isolatedTablet : Option Nat) (selectedLeftTablets : List Nat)
  deriving DecidableEq, Repr

/-- Why a tablet_map operation gives up: a tablet_id_map error, check_tablet_id, the
on_internal_error calls of for_each_sibling_tablets and merge_tablets, the std::get of a merge plan
that is not there, and the runtime errors of merge_tablets. -/
inductive TabletMapError where
  | idMap (e : TabletIdMapError)
  | invalidTabletId (id count : Nat)
  | noRightSibling (id : Nat)
  | noSibling (id : Nat)
  | moreSiblingSets
  | moreNewTablets
  | badVariantAccess
  | notColocated (left right : Nat)
  | unmergeableInfo (left right : Nat)
  deriving DecidableEq, Repr

/-- locator::tablet_map, with tablet infos of type `ι`. -/
structure TabletMap (ι : Type) where
  tabletIds : TabletIdMap
  tablets : List ι
  resizeDecision : ResizeWay

/-- The tablets of a sibling set: a tablet and its right sibling, if any. -/
def siblingMembers : Nat × Option Nat → List Nat
  | (l, none) => [l]
  | (l, some r) => [l, r]

/-- The loop of for_each_sibling_tablets for a selective merge over the tablets `tids` in order, with
the selected left tablets not yet reached: a selected tablet is paired with the next one. -/
def selectiveWalk : List Nat → List Nat → Except TabletMapError (List (Nat × Option Nat))
  | _, [] => pure []
  | sel, cur :: tids =>
    match sel with
    | l :: sel' =>
      if cur = l then
        match tids with
        | [] => throw (.noRightSibling cur)
        | right :: tids => ((cur, some right) :: ·) <$> selectiveWalk sel' tids
      else ((cur, none) :: ·) <$> selectiveWalk (l :: sel') tids
    | [] => ((cur, none) :: ·) <$> selectiveWalk [] tids

/-- The loop of for_each_sibling_tablets over the tablets `tids` in order: the isolated tablet alone,
every other tablet with the next one. -/
def pairWalk (isolated : Option Nat) : List Nat → Except TabletMapError (List (Nat × Option Nat))
  | [] => pure []
  | tid1 :: tids =>
    if isolated = some tid1 then ((tid1, none) :: ·) <$> pairWalk isolated tids
    else
      match tids with
      | [] => throw (.noSibling tid1)
      | tid2 :: tids => ((tid1, some tid2) :: ·) <$> pairWalk isolated tids

namespace TabletMap

variable {ι : Type}

/-- tablet_map(tablet_count, with_raft_info, initialized_later): to be filled by emplace_tablet. -/
def initializedLater [Inhabited ι] (tabletCount : Nat) : TabletMap ι :=
  ⟨TabletIdMap.empty tabletCount, List.replicate tabletCount default, .none⟩

variable (m : TabletMap ι)

def tabletCount : Nat := m.tablets.length

/-- next_tablet: the following tablet, none after the last one. -/
def nextTablet (t : Nat) : Option Nat := if t = m.tabletCount - 1 then none else some (t + 1)

/-- get_last_token -/
def getLastToken (id : Nat) : Token := Token.ofRaw (m.tabletIds.lastToken id)

/-- get_split_token: the midpoint of the tablet's range, which starts after the previous tablet's
last token, or at the minimum token for the first tablet. -/
def getSplitToken (id : Nat) : Token :=
  let last := m.getLastToken id
  let prevLast := if id = 0 then Token.minimum else m.getLastToken (id - 1)
  Token.midpoint prevLast last

def getTabletId (t : Token) : Except TabletIdMapError Nat := m.tabletIds.getTabletId t

/-- get_tablet_id_and_range_side: the owner of a token, and whether the token lies after the owner's
split token. -/
def getTabletIdAndRangeSide (t : Token) : Except TabletIdMapError (Nat × Nat) := do
  let id ← m.getTabletId t
  let idAfterSplit := Token.compare t (m.getSplitToken id) == .gt
  pure (id, if idAfterSplit then 1 else 0)

/-- emplace_tablet -/
def emplaceTablet (id : Nat) (lastToken : Token) (info : ι) : Except TabletMapError (TabletMap ι) := do
  if id ≥ m.tabletCount then throw (.invalidTabletId id m.tabletCount)
  let tabletIds ← (m.tabletIds.pushBack lastToken id).mapError .idMap
  pure { m with tabletIds := tabletIds, tablets := m.tablets.set id info }

/-- The loop of split_tablets over the tablets `tids`: tablet `tid` becomes `2 tid`, ending at its
split token, and `2 tid + 1`, ending at its last token, both with its info. -/
def splitFrom [Inhabited ι] (newTablets : TabletMap ι) : List Nat → Except TabletMapError (TabletMap ι)
  | [] => pure newTablets
  | tid :: tids => do
    let newLeftTid := tid <<< 1
    let newRightTid := newLeftTid + 1
    let tabletInfo := m.tablets.getD tid default
    let newTablets ← newTablets.emplaceTablet newLeftTid (m.getSplitToken tid) tabletInfo
    let newTablets ← newTablets.emplaceTablet newRightTid (m.getLastToken tid) tabletInfo
    splitFrom newTablets tids

/-- split_tablets -/
def splitTablets [Inhabited ι] : Except TabletMapError (TabletMap ι) :=
  m.splitFrom (initializedLater (m.tabletCount * 2)) (List.range m.tabletCount)

/-- for_each_sibling_tablets: the sibling sets it hands to its callback, in order. -/
def forEachSiblingTablets : Except TabletMapError (List (Nat × Option Nat)) :=
  match m.resizeDecision with
  | .merge isolated selected =>
    if selected.isEmpty then pairWalk isolated (List.range m.tabletCount)
    else selectiveWalk selected (List.range m.tabletCount)
  | _ => pure ((List.range m.tabletCount).map fun t => (t, none))

/-- sibling_tablets -/
def siblingTablets (t : Nat) : Except TabletMapError (Nat × Option Nat) := do
  if t ≥ m.tabletCount then throw (.invalidTabletId t m.tabletCount)
  match m.resizeDecision with
  | .merge isolated selected =>
    if !selected.isEmpty then
      let contains := LowerBound.binarySearch (selected.getD · 0) 0 selected.length
      if contains t then pure (t, m.nextTablet t)
      else if t ≠ 0 ∧ contains (t - 1) then pure (t - 1, some t)
      else pure (t, none)
    else if isolated.all (t < ·) then
      -- t & ~0x1
      let firstSibling := t - t % 2
      pure (firstSibling, m.nextTablet firstSibling)
    else if isolated = some t then pure (t, none)
    else
      -- After the isolated tablet the pairs shift by one: ((t - 1) & ~0x1) + 1.
      let firstSibling := (t - 1) - (t - 1) % 2 + 1
      pure (firstSibling, m.nextTablet firstSibling)
  | _ => pure (t, none)

/-- The callback of merge_tablets over the sibling sets in order: each set takes the next new tablet
id, with the last token of its last tablet and the merged info of its tablets. -/
def mergeFrom [Inhabited ι] (colocated : ι → ι → Bool) (mergeTabletInfo : ι → ι → Option ι)
    (newTablets : TabletMap ι) :
    Option Nat → List (Nat × Option Nat) → Except TabletMapError (TabletMap ι × Option Nat)
  | newTid, [] => pure (newTablets, newTid)
  | newTid, (left, right) :: sets => do
    let some tid := newTid | throw .moreSiblingSets
    match right with
    | none =>
      let newTablets ← newTablets.emplaceTablet tid (m.getLastToken left) (m.tablets.getD left default)
      mergeFrom colocated mergeTabletInfo newTablets (newTablets.nextTablet tid) sets
    | some right =>
      let leftInfo := m.tablets.getD left default
      let rightInfo := m.tablets.getD right default
      -- The replicas of the siblings, sorted, must be the same.
      if !colocated leftInfo rightInfo then throw (.notColocated left right)
      let some mergedInfo := mergeTabletInfo leftInfo rightInfo | throw (.unmergeableInfo left right)
      let newTablets ← newTablets.emplaceTablet tid (m.getLastToken right) mergedInfo
      mergeFrom colocated mergeTabletInfo newTablets (newTablets.nextTablet tid) sets

/-- The tablet count merge_tablets gives the merged map: half the tablets rounded up, or one less for
each selected pair. -/
def mergedCount : Except TabletMapError Nat :=
  match m.resizeDecision with
  | .merge _ selected =>
    pure (if selected.isEmpty then (m.tabletCount + 2 - 1) / 2 else m.tabletCount - selected.length)
  | _ => throw .badVariantAccess

/-- merge_tablets.  The model takes the sibling sets from the walk first and then runs the callback
over them, where the source interleaves the two; for the merge plans of the balancer the walk does
not fail, and then both give the same result. -/
def mergeTablets [Inhabited ι] (colocated : ι → ι → Bool) (mergeTabletInfo : ι → ι → Option ι) :
    Except TabletMapError (TabletMap ι) := do
  let newCount ← m.mergedCount
  let sets ← m.forEachSiblingTablets
  let (newTablets, newTid) ← m.mergeFrom colocated mergeTabletInfo (initializedLater newCount) (some 0) sets
  if newTid.isSome then throw .moreNewTablets
  pure newTablets

/-! ## Well-formed tablet maps -/

/-- A tablet map built from the last tokens `xs`: strictly increasing, ending at the maximum token,
each tablet owning at least two tokens, with an info for each tablet. -/
structure WellFormed (xs : List Int64) : Prop where
  tabletIds_eq : TabletIdMap.ofLastTokens xs = .ok m.tabletIds
  length_tablets : m.tablets.length = xs.length
  sorted : xs.Pairwise (· < ·)
  last_eq : xs.getLast? = some Int64.maxValue
  two_tokens : ∀ i < xs.length,
    ((Int64.minValue :: xs).getD i Int64.minValue).toInt + 2 ≤ (xs.getD i Int64.minValue).toInt

/-- The last tokens of the two halves of tablet `i`. -/
def splitPair (i : Nat) : List Int64 := [(m.getSplitToken i).data, m.tabletIds.lastToken i]

/-- The last tokens of the split map. -/
def splitLastTokens : List Int64 := (List.range m.tabletCount).flatMap m.splitPair

variable {m} {xs : List Int64}

/-- The test of `owner` holds of every token at or above one where it holds. -/
theorem owner_test_mono (t : Token) {a b : Int64} (hab : a ≤ b)
    (h : (t.isMinimum || decide (t.raw ≤ a)) = true) : (t.isMinimum || decide (t.raw ≤ b)) = true := by
  simp only [Bool.or_eq_true, decide_eq_true_eq] at h ⊢
  exact h.imp_right fun h => Int64.le_trans h hab

private theorem length_flatMap_pair {α : Type} (f g : Nat → α) (n : Nat) :
    ((List.range n).flatMap fun i => [f i, g i]).length = 2 * n := by
  induction n with
  | zero => rfl
  | succ n ih =>
    rw [List.range_succ, List.flatMap_append, List.length_append, ih, List.flatMap_singleton]
    simp only [List.length_cons, List.length_nil]
    omega

/-- The list of pairs over `[0, n)` holds the first of pair `k / 2` at even `k`, the second at odd. -/
private theorem getD_flatMap_pair {α : Type} (f g : Nat → α) (d : α) {n k : Nat} (hk : k < 2 * n) :
    ((List.range n).flatMap fun i => [f i, g i]).getD k d = if k % 2 = 0 then f (k / 2) else g (k / 2) := by
  induction n with
  | zero => omega
  | succ n ih =>
    rw [List.range_succ, List.flatMap_append, List.flatMap_singleton]
    by_cases hlt : k < 2 * n
    · rw [List.getD_append _ _ _ _ (by rw [length_flatMap_pair]; exact hlt), ih hlt]
    · rw [List.getD_append_right _ _ _ _ (by rw [length_flatMap_pair]; omega), length_flatMap_pair]
      rcases (by omega : k = 2 * n ∨ k = 2 * n + 1) with rfl | rfl
      · rw [Nat.sub_self, List.getD_cons_zero, if_pos (by omega), show 2 * n / 2 = n by omega]
      · rw [show 2 * n + 1 - 2 * n = 1 by omega, List.getD_cons_succ, List.getD_cons_zero, if_neg (by omega),
          show (2 * n + 1) / 2 = n by omega]

private theorem getD_set_eq {α : Type} (l : List α) {i : Nat} (j : Nat) (v d : α) (hi : i < l.length) :
    (l.set i v).getD j d = if i = j then v else l.getD j d := by
  rw [List.getD_eq_getElem?_getD, List.getElem?_set, List.getD_eq_getElem?_getD]
  split
  · simp
  · rfl

/-! ## Emplacing a tablet -/

@[simp] theorem tabletCount_set {id : Nat} {info : ι} (ids : TabletIdMap) :
    ({ m with tabletIds := ids, tablets := m.tablets.set id info } : TabletMap ι).tabletCount =
      m.tabletCount := by
  simp [tabletCount]

/-- Emplacing a tablet whose id is in range and whose last token the id map takes. -/
theorem emplaceTablet_eq {id : Nat} {lastToken : Token} (info : ι) {ids : TabletIdMap}
    (hid : id < m.tabletCount) (hpush : m.tabletIds.pushBack lastToken id = .ok ids) :
    m.emplaceTablet id lastToken info = .ok { m with tabletIds := ids, tablets := m.tablets.set id info } := by
  unfold emplaceTablet
  simp [Nat.not_le.2 hid, hpush, Except.mapError]

/-- One lap of the split loop: the two halves of tablet `k` are emplaced, and the loop goes on. -/
theorem splitFrom_cons [Inhabited ι] {nt nt₁ nt₂ : TabletMap ι} {k : Nat} {tids : List Nat}
    (h₁ : nt.emplaceTablet (2 * k) (m.getSplitToken k) (m.tablets.getD k default) = .ok nt₁)
    (h₂ : nt₁.emplaceTablet (2 * k + 1) (m.getLastToken k) (m.tablets.getD k default) = .ok nt₂) :
    m.splitFrom nt (k :: tids) = m.splitFrom nt₂ tids := by
  have hk : k <<< 1 = 2 * k := by
    rw [Nat.shiftLeft_eq]
    omega
  simp only [splitFrom, hk, h₁]
  show (nt₁.emplaceTablet _ _ _ >>= _) = _
  rw [h₂]
  rfl

namespace WellFormed

variable (hw : m.WellFormed xs)
include hw

theorem built : m.tabletIds.Built xs ∧ m.tabletIds.log2Tablets ≤ 64 := by
  obtain ⟨m₀, h₀, hb, hL⟩ := TabletIdMap.ofLastTokens_built hw.sorted
  rw [hw.tabletIds_eq] at h₀
  cases h₀
  exact ⟨hb, hL⟩

theorem getTabletId_eq (t : Token) : m.getTabletId t = .ok (owner xs t) :=
  TabletIdMap.getTabletId_eq hw.built.1 hw.built.2 hw.sorted hw.last_eq t

theorem lastToken_eq (i : Nat) : m.tabletIds.lastToken i = xs.getD i Int64.minValue := by
  rw [TabletIdMap.lastToken, hw.built.1.lastTokens_eq]

/-- The split token of a tablet is a key strictly inside the tablet's range. -/
theorem splitToken_bounds {i : Nat} (hi : i < xs.length) :
    (m.getSplitToken i).kind = .key ∧
      (Int64.minValue :: xs).getD i Int64.minValue < (m.getSplitToken i).data ∧
      (m.getSplitToken i).data < xs.getD i Int64.minValue := by
  have hgap := hw.two_tokens i hi
  -- The range starts after the previous tablet's last token, or at the minimum token.
  have hprev : (if i = 0 then Token.minimum else m.getLastToken (i - 1)).data =
      (Int64.minValue :: xs).getD i Int64.minValue := by
    cases i with
    | zero => rfl
    | succ i => simp [getLastToken, hw.lastToken_eq]
  have hlast : (m.getLastToken i).data = xs.getD i Int64.minValue := by
    simp [getLastToken, hw.lastToken_eq]
  have hle : (if i = 0 then Token.minimum else m.getLastToken (i - 1)).data ≤ (m.getLastToken i).data := by
    rw [hprev, hlast, Int64.le_iff_toInt_le]
    omega
  have hmid := Token.toInt_midpoint hle
  rw [hprev, hlast] at hmid
  refine ⟨rfl, ?_, ?_⟩
  · rw [Int64.lt_iff_toInt_lt]
    show _ < (Token.midpoint _ _).data.toInt
    omega
  · rw [Int64.lt_iff_toInt_lt]
    show (Token.midpoint _ _).data.toInt < _
    omega

theorem ofRaw_splitToken {i : Nat} (hi : i < xs.length) :
    Token.ofRaw (m.getSplitToken i).data = m.getSplitToken i := by
  obtain ⟨hkey, hlo, -⟩ := hw.splitToken_bounds hi
  have hne : (m.getSplitToken i).data ≠ Int64.minValue := fun h =>
    absurd (h ▸ hlo) (Int64.not_lt.2 (Int64.minValue_le _))
  unfold Token.ofRaw
  rw [if_pos hne, ← hkey]

/-- The split tokens and last tokens of the first `k` tablets are increasing, and none passes the
last token before tablet `k`. -/
theorem splitPrefix_sorted {k : Nat} (hk : k ≤ xs.length) :
    ((List.range k).flatMap m.splitPair).Pairwise (· < ·) ∧
      ∀ y ∈ (List.range k).flatMap m.splitPair, y ≤ (Int64.minValue :: xs).getD k Int64.minValue := by
  induction k with
  | zero => simp
  | succ k ih =>
    obtain ⟨hs, hle⟩ := ih (by omega)
    obtain ⟨-, hlo, hhi⟩ := hw.splitToken_bounds (i := k) (by omega)
    have hpair : m.splitPair k = [(m.getSplitToken k).data, xs.getD k Int64.minValue] := by
      rw [splitPair, hw.lastToken_eq]
    have hnext : (Int64.minValue :: xs).getD (k + 1) Int64.minValue = xs.getD k Int64.minValue :=
      List.getD_cons_succ
    rw [List.range_succ, List.flatMap_append, List.flatMap_singleton, hpair, hnext]
    refine ⟨List.pairwise_append.2 ⟨hs, List.pairwise_pair.2 hhi, ?_⟩, ?_⟩
    · -- Everything before tablet `k` lies at or below its start, below both new tokens.
      intro a ha b hb
      have hsplit : a < (m.getSplitToken k).data := Int64.lt_of_le_of_lt (hle a ha) hlo
      simp only [List.mem_cons, List.not_mem_nil, or_false] at hb
      rcases hb with rfl | rfl
      · exact hsplit
      · exact Int64.lt_trans hsplit hhi
    · intro y hy
      rcases List.mem_append.1 hy with hy | hy
      · exact Int64.le_of_lt (Int64.lt_trans (Int64.lt_of_le_of_lt (hle y hy) hlo) hhi)
      · simp only [List.mem_cons, List.not_mem_nil, or_false] at hy
        rcases hy with rfl | rfl
        · exact Int64.le_of_lt hhi
        · exact Int64.le_refl _

theorem tabletCount_eq : m.tabletCount = xs.length := hw.length_tablets

/-- Every token has an owner, the last tablet reaching INT64_MAX. -/
theorem owner_lt (t : Token) : owner xs t < xs.length := by
  refine List.findIdx_lt_length_of_exists ⟨Int64.maxValue, List.mem_of_getLast? hw.last_eq, ?_⟩
  simp [Int64.le_maxValue]

theorem length_pos : 0 < xs.length := by
  refine List.length_pos_iff.2 fun hnil => ?_
  have h := hw.last_eq
  rw [hnil, List.getLast?_nil] at h
  cases h

theorem length_splitLastTokens : m.splitLastTokens.length = 2 * xs.length := by
  rw [splitLastTokens, ← hw.tabletCount_eq]
  exact length_flatMap_pair _ _ _

/-- The split map's last tokens: the split token of each old tablet, then its last token. -/
theorem getD_splitLastTokens {k : Nat} (hk : k < 2 * xs.length) :
    m.splitLastTokens.getD k Int64.minValue =
      if k % 2 = 0 then (m.getSplitToken (k / 2)).data else xs.getD (k / 2) Int64.minValue := by
  rw [splitLastTokens, hw.tabletCount_eq, ← hw.lastToken_eq]
  exact getD_flatMap_pair _ _ _ hk

/-- No last token of the split map passes the last token of the old tablet it comes from. -/
theorem getD_splitLastTokens_le {k : Nat} (hk : k < 2 * xs.length) :
    m.splitLastTokens.getD k Int64.minValue ≤ xs.getD (k / 2) Int64.minValue := by
  rw [hw.getD_splitLastTokens hk]
  split
  · exact Int64.le_of_lt (hw.splitToken_bounds (by omega)).2.2
  · exact Int64.le_refl _

theorem splitLastTokens_sorted : m.splitLastTokens.Pairwise (· < ·) := by
  have h := (hw.splitPrefix_sorted (Nat.le_refl xs.length)).1
  rwa [← hw.tabletCount_eq] at h

theorem getLast?_splitLastTokens : m.splitLastTokens.getLast? = some Int64.maxValue := by
  have hn := hw.length_pos
  have hlen := hw.length_splitLastTokens
  have hlast := hw.getD_splitLastTokens (k := 2 * xs.length - 1) (by omega)
  rw [if_neg (by omega), show (2 * xs.length - 1) / 2 = xs.length - 1 by omega,
    TabletIdMap.getD_of_getLast? hw.last_eq, List.getD_eq_getElem _ _ (by omega)] at hlast
  rw [List.getLast?_eq_getElem?, hlen, List.getElem?_eq_getElem (by omega), hlast]

/-- A token goes to the first half of its old tablet when it is not after the split token, and to
the second half when it is. -/
theorem owner_splitLastTokens (t : Token) :
    owner m.splitLastTokens t =
      2 * owner xs t + if Token.compare t (m.getSplitToken (owner xs t)) == .gt then 1 else 0 := by
  have hlen := hw.length_splitLastTokens
  have hi := hw.owner_lt t
  have hxi : (t.isMinimum || decide (t.raw ≤ xs.getD (owner xs t) Int64.minValue)) = true :=
    LowerBound.getD_findIdx hi
  have hprevs : ∀ j < owner xs t, (t.isMinimum || decide (t.raw ≤ xs.getD j Int64.minValue)) = false :=
    fun j hj => LowerBound.getD_of_lt_findIdx hj
  generalize owner xs t = i at hi hxi hprevs ⊢
  -- Every token of the split map before the halves of tablet `i` comes from an earlier tablet.
  have hbefore : ∀ k < 2 * i,
      (t.isMinimum || decide (t.raw ≤ m.splitLastTokens.getD k Int64.minValue)) = false := by
    intro k hk
    have hprev := hprevs (k / 2) (by omega)
    cases h : (t.isMinimum || decide (t.raw ≤ m.splitLastTokens.getD k Int64.minValue))
    · rfl
    · rw [owner_test_mono t (hw.getD_splitLastTokens_le (by omega)) h] at hprev
      cases hprev
  obtain ⟨hkey, -, hhi⟩ := hw.splitToken_bounds hi
  have hside := Token.compare_eq_gt_iff (t := t) hkey
    (Int64.lt_of_lt_of_le hhi (Int64.le_maxValue _))
  have hsplit : m.splitLastTokens.getD (2 * i) Int64.minValue = (m.getSplitToken i).data := by
    rw [hw.getD_splitLastTokens (by omega), if_pos (by omega), show 2 * i / 2 = i by omega]
  have hlast : m.splitLastTokens.getD (2 * i + 1) Int64.minValue = xs.getD i Int64.minValue := by
    rw [hw.getD_splitLastTokens (by omega), if_neg (by omega), show (2 * i + 1) / 2 = i by omega]
  unfold owner
  cases hc : (t.isMinimum || decide (t.raw ≤ (m.getSplitToken i).data))
  · -- After the split token: the token goes to the second half.
    rw [hc, Bool.not_false] at hside
    rw [hside, if_pos rfl]
    refine Nat.le_antisymm (LowerBound.findIdx_le_of_getD (by omega) (by rw [hlast]; exact hxi))
      (LowerBound.le_findIdx_of_getD (d := Int64.minValue) (by omega) fun k hk => ?_)
    rcases Nat.lt_succ_iff_lt_or_eq.1 hk with hk | rfl
    · exact hbefore k hk
    · rw [hsplit]
      exact hc
  · -- At or before the split token: the token goes to the first half.
    rw [hc, Bool.not_true] at hside
    rw [hside, if_neg (by decide), Nat.add_zero]
    exact Nat.le_antisymm (LowerBound.findIdx_le_of_getD (by omega) (by rw [hsplit]; exact hc))
      (LowerBound.le_findIdx_of_getD (d := Int64.minValue) (by omega) hbefore)

/-- The split loop from tablet `k` on, with the halves of the tablets before `k` emplaced: it
emplaces the halves of every tablet, each with the info of the tablet it comes from. -/
theorem splitFrom_spec [Inhabited ι] : ∀ (d k : Nat) (nt : TabletMap ι), k + d = xs.length →
    nt.tabletIds.Built ((List.range k).flatMap m.splitPair) → nt.tabletIds.log2Tablets ≤ 64 →
    nt.tablets.length = 2 * xs.length →
    (∀ j < 2 * k, nt.tablets.getD j default = m.tablets.getD (j / 2) default) →
    ∃ m', m.splitFrom nt (List.range' k d) = .ok m' ∧ m'.tabletIds.Built m.splitLastTokens ∧
      m'.tabletIds.log2Tablets ≤ 64 ∧ m'.tablets.length = 2 * xs.length ∧
      ∀ j < 2 * xs.length, m'.tablets.getD j default = m.tablets.getD (j / 2) default := by
  intro d
  induction d with
  | zero =>
    intro k nt hk hb hL hlen hinfo
    rw [Nat.add_zero] at hk
    subst hk
    rw [← hw.tabletCount_eq] at hb
    exact ⟨nt, rfl, hb, hL, hlen, hinfo⟩
  | succ d ih =>
    intro k nt hk hb hL hlen hinfo
    have hlenk : ((List.range k).flatMap m.splitPair).length = 2 * k := length_flatMap_pair _ _ k
    -- The tokens of tablet `k` go on top of those before it, in order.
    have hpre : (List.range (k + 1)).flatMap m.splitPair =
        (List.range k).flatMap m.splitPair ++ [(m.getSplitToken k).data] ++ [m.tabletIds.lastToken k] := by
      simp [List.range_succ, splitPair]
    have hsorted := (hw.splitPrefix_sorted (k := k + 1) (by omega)).1
    rw [hpre] at hsorted
    obtain ⟨ids₁, hp₁, hb₁, hL₁⟩ := hb.pushBack hL (hsorted.sublist (List.sublist_append_left _ _))
    obtain ⟨ids₂, hp₂, hb₂, hL₂⟩ := hb₁.pushBack (hL₁ ▸ hL) hsorted
    rw [hw.ofRaw_splitToken (by omega), hlenk] at hp₁
    rw [List.length_append, hlenk, List.length_singleton] at hp₂
    have htc : nt.tabletCount = 2 * xs.length := hlen
    have h₁ := emplaceTablet_eq (m.tablets.getD k default) (by omega) hp₁
    have h₂ := emplaceTablet_eq
      (m := { nt with tabletIds := ids₁, tablets := nt.tablets.set (2 * k) (m.tablets.getD k default) })
      (m.tablets.getD k default) (by rw [tabletCount_set]; omega) hp₂
    rw [List.range'_succ, splitFrom_cons h₁ h₂]
    refine ih (k + 1) _ (by omega) (by rw [hpre]; exact hb₂) (by rw [hL₂, hL₁]; exact hL)
      (by simp [hlen]) fun j hj => ?_
    -- The two halves of tablet `k` take its info; the tablets before keep theirs.
    dsimp only
    rw [getD_set_eq _ _ _ _ (by simp; omega), getD_set_eq _ _ _ _ (by omega)]
    split
    · subst j
      rw [show (2 * k + 1) / 2 = k by omega]
    · split
      · subst j
        rw [show 2 * k / 2 = k by omega]
      · exact hinfo j (by omega)

/-- split_tablets emplaces both halves of every tablet. -/
theorem splitTablets_built [Inhabited ι] :
    ∃ m', m.splitTablets = .ok m' ∧ m'.tabletIds.Built m.splitLastTokens ∧
      m'.tabletIds.log2Tablets ≤ 64 ∧ m'.tablets.length = 2 * xs.length ∧
      ∀ j < 2 * xs.length, m'.tablets.getD j default = m.tablets.getD (j / 2) default := by
  have hstart := hw.splitFrom_spec xs.length 0 (initializedLater (xs.length * 2)) (by omega)
    (TabletIdMap.built_empty _) (Packing.log2ceil_le 64 _)
    (by simp only [initializedLater, List.length_replicate]; omega) (fun j hj => by omega)
  rw [splitTablets, hw.tabletCount_eq, List.range_eq_range']
  exact hstart

theorem getTabletIdAndRangeSide_eq (t : Token) :
    m.getTabletIdAndRangeSide t =
      .ok (owner xs t, if Token.compare t (m.getSplitToken (owner xs t)) == .gt then 1 else 0) := by
  rw [getTabletIdAndRangeSide, hw.getTabletId_eq]
  rfl

/-- The split map: twice the tablets, the halves of tablet `i` ending at its split token and at its
last token with its info, and each token owned as `owner_splitLastTokens` says. -/
theorem splitTablets_eq [Inhabited ι] :
    ∃ m', m.splitTablets = .ok m' ∧ m'.tabletCount = 2 * m.tabletCount ∧
      (∀ i < m.tabletCount, m'.getLastToken (2 * i) = m.getSplitToken i ∧
        m'.getLastToken (2 * i + 1) = m.getLastToken i ∧
        m'.tablets.getD (2 * i) default = m.tablets.getD i default ∧
        m'.tablets.getD (2 * i + 1) default = m.tablets.getD i default) ∧
      ∀ t, m'.getTabletId t = .ok (owner m.splitLastTokens t) := by
  obtain ⟨m', hsplit, hb, hL, hlen, hinfo⟩ := hw.splitTablets_built
  have hlast : ∀ k, m'.getLastToken k = Token.ofRaw (m.splitLastTokens.getD k Int64.minValue) := by
    intro k
    rw [getLastToken, TabletIdMap.lastToken, hb.lastTokens_eq]
  refine ⟨m', hsplit, by rw [tabletCount, hlen, hw.tabletCount_eq], fun i hi => ?_, fun t => ?_⟩
  · rw [hw.tabletCount_eq] at hi
    refine ⟨?_, ?_, ?_, ?_⟩
    · rw [hlast, hw.getD_splitLastTokens (by omega), if_pos (by omega), show 2 * i / 2 = i by omega,
        hw.ofRaw_splitToken hi]
    · rw [hlast, hw.getD_splitLastTokens (by omega), if_neg (by omega), show (2 * i + 1) / 2 = i by omega,
        getLastToken, hw.lastToken_eq]
    · rw [hinfo _ (by omega), show 2 * i / 2 = i by omega]
    · rw [hinfo _ (by omega), show (2 * i + 1) / 2 = i by omega]
  · exact TabletIdMap.getTabletId_eq hb hL hw.splitLastTokens_sorted hw.getLast?_splitLastTokens t

end WellFormed

end TabletMap

end Scylla.Locator
