import Scylla.Dht.Token
import Scylla.Lib.LowerBound
import Scylla.Lib.Packing

/-!
# Finding the tablet of a token

A table's tablets split the token ring: tablet `i` owns the tokens above the last token of tablet
`i - 1` up to its own last token.  `tablet_id_map` finds the owner of a token through buckets: the
ring is split into `2^log2_tablets` compaction groups, and each bucket holds the first tablet that
reaches into its group.  A lookup starts at the token's bucket and scans, or binary searches, the
tablets up to the next bucket's.

* `TabletIdMap.ofLastTokens_built`: pushing strictly increasing last tokens builds the buckets.
* `TabletIdMap.getTabletId_eq_owner`: every lookup, by the bucket alone, the linear scan or the
  binary search, answers the tablet owning the token, and none throws.
-/

namespace Scylla.Locator

open Dht

/-- Why tablet_id_map gives up: on_internal_error in push_back, std::out_of_range in
get_tablet_id.  Each carries the values its message prints. -/
inductive TabletIdMapError where
  | firstIdNotZero (id : Nat)
  | orderViolated (lastToken prev : Int64) (id prevId bucket : Nat)
  | noBucket (t : Int64) (bucket bucketCount : Nat)
  | noMapping (t : Int64) (bucket highId : Nat) (lastToken : Int64)
  deriving DecidableEq, Repr

/-- locator::tablet_id_map -/
structure TabletIdMap where
  log2Tablets : Nat
  /-- The first tablet reaching into each compaction group. -/
  buckets : List Nat
  lastTokens : List Int64
  deriving DecidableEq, Repr

namespace TabletIdMap

/-- tablet_id_map(tablet_count): an empty map to be filled with `tablet_count` tablets. -/
def empty (tabletCount : Nat) : TabletIdMap := ⟨Packing.log2ceil 64 tabletCount, [], []⟩

def tabletCount (m : TabletIdMap) : Nat := m.lastTokens.length

/-- _last_tokens[id]; the source does not read past the end. -/
def lastToken (m : TabletIdMap) (id : Nat) : Int64 := m.lastTokens.getD id Int64.minValue

/-- The order check of push_back: after the first tablet, ids and last tokens must grow. -/
def violatesOrder (m : TabletIdMap) (lastToken : Token) (id : Nat) : Bool :=
  match m.buckets.getLast?, m.lastTokens.getLast? with
  | some b, some prev => decide (id ≤ b) || lastToken.leRaw prev
  | _, _ => false

/-- tablet_id_map::push_back -/
def pushBack (m : TabletIdMap) (lastToken : Token) (id : Nat) : Except TabletIdMapError TabletIdMap :=
  let i := compactionGroupOf m.log2Tablets lastToken
  if m.buckets = [] ∧ id ≠ 0 then throw (.firstIdNotZero id)
  else
    if m.violatesOrder lastToken id then
      throw (.orderViolated lastToken.raw (m.lastTokens.getLastD Int64.minValue) id
        (m.buckets.getLastD 0) i)
    else
      -- raw_token(last_token), and the buckets up to the token's group take the id.
      pure { m with lastTokens := m.lastTokens ++ [lastToken.raw],
                    buckets := m.buckets ++ List.replicate (i + 1 - m.buckets.length) id }

/-- tablet_id_map(last_tokens): push each last token with its index as tablet id. -/
def pushAll (m : TabletIdMap) (id : Nat) : List Int64 → Except TabletIdMapError TabletIdMap
  | [] => pure m
  | t :: ts => do
    let m ← m.pushBack (Token.ofRaw t) id
    m.pushAll (id + 1) ts

def ofLastTokens (lastTokens : List Int64) : Except TabletIdMapError TabletIdMap :=
  (empty lastTokens.length).pushAll 0 lastTokens

/-- The linear search of get_tablet_id: the first id from `lowId` to `highId` whose last token is
at least `t`. -/
def linearSearch (m : TabletIdMap) (t : Int64) (lowId highId : Nat) : Option Nat :=
  if lowId ≤ highId then
    if t ≤ m.lastToken lowId then some lowId else m.linearSearch t (lowId + 1) highId
  else none
termination_by highId + 1 - lowId

/-- The search of get_tablet_id past the bucket's tablet: a linear scan of at most 8 candidates,
or a binary search. -/
def searchRange (m : TabletIdMap) (t : Int64) (lowId highId : Nat) : Option Nat :=
  -- high_id - low_id is a size_t, which wraps when low_id passes high_id.
  if lowId ≤ highId ∧ highId - lowId ≤ 7 then m.linearSearch t lowId highId
  else
    let it := LowerBound.lowerBound (fun k => decide (m.lastToken k < t)) lowId (highId + 1 - lowId)
    if it ≠ highId + 1 then some it else none

/-- get_tablet_id(dht::raw_token) -/
def getTabletIdRaw (m : TabletIdMap) (t : Int64) : Except TabletIdMapError Nat :=
  let bucket := compactionGroupOfRaw m.log2Tablets t
  if bucket ≥ m.buckets.length then throw (.noBucket t bucket m.buckets.length)
  else
    let lowId := m.buckets.getD bucket 0
    -- Common case: the token falls into the tablet which owns the last token of a bucket.
    if t ≤ m.lastToken lowId then pure lowId
    else
      let lowId := lowId + 1
      let highId := if bucket + 1 ≥ m.buckets.length then m.tabletCount - 1
        else m.buckets.getD (bucket + 1) 0
      match m.searchRange t lowId highId with
      | some id => pure id
      | none => throw (.noMapping t bucket highId (m.lastToken highId))

/-- get_tablet_id(dht::token) -/
def getTabletId (m : TabletIdMap) (t : Token) : Except TabletIdMapError Nat :=
  if t.isMaximum then pure (m.tabletCount - 1)
  else if t.isMinimum then pure 0
  else m.getTabletIdRaw t.raw

end TabletIdMap

/-- The tablet owning a token under the (previous last token, last token] rule: the first tablet
whose last token is at least the token.  A token before all keys precedes every last token, and
the others compare by token::raw, which puts the token after all keys at INT64_MAX. -/
def owner (lastTokens : List Int64) (t : Token) : Nat :=
  lastTokens.findIdx fun x => t.isMinimum || decide (t.raw ≤ x)


namespace TabletIdMap

open LowerBound

/-- What pushing the last tokens `xs` leaves in a map: the tokens, and a bucket for each
compaction group up to that of the last token, holding the first tablet that reaches into it. -/
structure Built (m : TabletIdMap) (xs : List Int64) : Prop where
  lastTokens_eq : m.lastTokens = xs
  length_buckets : m.buckets.length =
    if xs = [] then 0 else compactionGroupOfRaw m.log2Tablets (xs.getLastD 0) + 1
  getD_buckets : ∀ b < m.buckets.length,
    m.buckets.getD b 0 = xs.findIdx fun x => decide (b ≤ compactionGroupOfRaw m.log2Tablets x)

theorem le_getLastD_of_pairwise {xs : List Int64} (hs : xs.Pairwise (· < ·)) {x : Int64} (hx : x ∈ xs) :
    x ≤ xs.getLastD 0 := by
  induction xs with
  | nil => simp at hx
  | cons a as ih =>
    rw [List.pairwise_cons] at hs
    cases as with
    | nil =>
      obtain rfl : x = a := by simpa using hx
      exact Int64.le_refl x
    | cons b bs =>
      have hl : (a :: b :: bs).getLastD 0 = (b :: bs).getLastD 0 := by
        simp [List.getLastD_eq_getLast?, List.getLast?_cons_cons]
      rw [hl]
      rcases List.mem_cons.1 hx with rfl | h
      · -- The head lies below every later token, the last one included.
        have hmem : (b :: bs).getLastD 0 ∈ b :: bs := by
          simp only [List.getLastD_eq_getLast?, List.getLast?_eq_some_getLast (List.cons_ne_nil b bs),
            Option.getD_some]
          exact List.getLast_mem _
        exact Int64.le_of_lt (hs.1 _ hmem)
      · exact ih hs.2 h

private theorem getLast?_eq_some_getLastD {α : Type} {xs : List α} (h : xs ≠ []) (d : α) :
    xs.getLast? = some (xs.getLastD d) := by
  rw [List.getLastD_eq_getLast?, List.getLast?_eq_some_getLast h]
  rfl

private theorem getLastD_mem {α : Type} {xs : List α} {d : α} (h : xs ≠ []) : xs.getLastD d ∈ xs := by
  rw [List.getLastD_eq_getLast?, List.getLast?_eq_some_getLast h]
  exact List.getLast_mem h

private theorem getLast?_eq_some_getD {α : Type} {xs : List α} (h : xs ≠ []) (d : α) :
    xs.getLast? = some (xs.getD (xs.length - 1) d) := by
  have hl : xs.length - 1 < xs.length := Nat.sub_one_lt (List.length_pos_iff.2 h).ne'
  rw [List.getLast?_eq_getElem?, List.getElem?_eq_getElem hl, List.getD_eq_getElem _ _ hl]

/-- In strictly increasing last tokens, later tablets end at larger tokens. -/
theorem getD_lt_getD_of_pairwise {xs : List Int64} (hs : xs.Pairwise (· < ·)) {i k : Nat} (hik : i < k)
    (hk : k < xs.length) : xs.getD i Int64.minValue < xs.getD k Int64.minValue := by
  rw [List.getD_eq_getElem _ _ (by omega), List.getD_eq_getElem _ _ hk]
  exact List.pairwise_iff_getElem.1 hs i k (by omega) hk hik

theorem getD_of_getLast? {xs : List Int64} {x : Int64} (h : xs.getLast? = some x) :
    xs.getD (xs.length - 1) Int64.minValue = x := by
  have hne : xs ≠ [] := by
    rintro rfl
    simp at h
  have hx := getLast?_eq_some_getD hne Int64.minValue
  rw [h] at hx
  exact (Option.some.inj hx).symm

/-- Of strictly increasing last tokens ending at INT64_MAX, only the last reaches INT64_MAX. -/
theorem findIdx_maxValue {xs : List Int64} (hs : xs.Pairwise (· < ·))
    (hmax : xs.getLast? = some Int64.maxValue) :
    (xs.findIdx fun x => decide (Int64.maxValue ≤ x)) = xs.length - 1 := by
  have hn : 0 < xs.length := List.length_pos_iff.2 (by rintro rfl; simp at hmax)
  have hmaxD := getD_of_getLast? hmax
  refine le_antisymm (findIdx_le_of_getD (d := Int64.minValue) (by omega) ?_)
    (le_findIdx_of_getD (d := Int64.minValue) (by omega) fun k hk => ?_)
  · rw [hmaxD]
    exact decide_eq_true (Int64.le_refl _)
  · have hlt := getD_lt_getD_of_pairwise hs hk (by omega)
    rw [hmaxD] at hlt
    exact decide_eq_false (Int64.not_le.2 hlt)

theorem pushBack_eq {m : TabletIdMap} {lastToken : Token} {id : Nat}
    (h₁ : ¬ (m.buckets = [] ∧ id ≠ 0))
    (h₂ : m.violatesOrder lastToken id = false) :
    m.pushBack lastToken id =
      .ok { m with
        lastTokens := m.lastTokens ++ [lastToken.raw]
        buckets := m.buckets ++
          List.replicate (compactionGroupOf m.log2Tablets lastToken + 1 - m.buckets.length) id } := by
  unfold pushBack
  rw [if_neg h₁]
  simp only [h₂, Bool.false_eq_true, if_false]
  rfl

/-- Pushing a token above all of `xs` with the next id extends the buckets to its group. -/
theorem Built.pushBack {m : TabletIdMap} {xs : List Int64} (hb : m.Built xs) (hL : m.log2Tablets ≤ 64)
    {y : Int64} (hs : (xs ++ [y]).Pairwise (· < ·)) :
    ∃ m', m.pushBack (Token.ofRaw y) xs.length = .ok m' ∧ m'.Built (xs ++ [y]) ∧
      m'.log2Tablets = m.log2Tablets := by
  have hy : ∀ x ∈ xs, x < y := fun x hx =>
    (List.pairwise_append.1 hs).2.2 x hx y (List.mem_singleton_self y)
  have hxs : xs.Pairwise (· < ·) := (List.pairwise_append.1 hs).1
  have hlast : (xs ++ [y]).getLastD 0 = y := by simp [List.getLastD_eq_getLast?]
  by_cases hne : xs = []
  · -- The first tablet: every group up to its own gets id 0.
    subst hne
    have hbe : m.buckets = [] := List.eq_nil_of_length_eq_zero (by simpa using hb.length_buckets)
    rw [pushBack_eq (by simp) (by simp [violatesOrder, hbe])]
    refine ⟨_, rfl, ⟨by simp [hb.lastTokens_eq], ?_, ?_⟩, rfl⟩
    · simp [hbe, compactionGroupOf_ofRaw]
    · intro b hb'
      simp only [hbe, List.length_nil, Nat.sub_zero, List.nil_append, List.length_replicate,
        compactionGroupOf_ofRaw] at hb' ⊢
      have hle : b ≤ compactionGroupOfRaw m.log2Tablets y := Nat.lt_succ_iff.1 hb'
      rw [List.getD_replicate _ hb']
      simp [hle]
  · -- A later tablet: the groups past the last token's take the new id.
    have hlen : m.buckets.length = compactionGroupOfRaw m.log2Tablets (xs.getLastD 0) + 1 := by
      simpa only [hne, if_false] using hb.length_buckets
    have hl : xs.getLastD 0 < y := hy _ (getLastD_mem hne)
    have hmono : compactionGroupOfRaw m.log2Tablets (xs.getLastD 0) ≤ compactionGroupOfRaw m.log2Tablets y :=
      compactionGroupOfRaw_mono hL (Int64.le_of_lt hl)
    have hbelow : ∀ x ∈ xs,
        compactionGroupOfRaw m.log2Tablets x ≤ compactionGroupOfRaw m.log2Tablets (xs.getLastD 0) :=
      fun x hx => compactionGroupOfRaw_mono hL (le_getLastD_of_pairwise hxs hx)
    -- The last bucket holds a tablet of `xs`, below the new id.
    have hk : m.buckets.getD (m.buckets.length - 1) 0 < xs.length := by
      rw [hb.getD_buckets _ (by omega)]
      exact List.findIdx_lt_length_of_exists ⟨xs.getLastD 0, getLastD_mem hne, decide_eq_true (by omega)⟩
    have hbl : m.buckets ≠ [] := List.ne_nil_of_length_pos (by omega)
    have hviol : m.violatesOrder (Token.ofRaw y) xs.length = false := by
      have h₁ : decide (xs.length ≤ m.buckets.getD (m.buckets.length - 1) 0) = false :=
        decide_eq_false (Nat.not_le.2 hk)
      have h₂ : (Token.ofRaw y).leRaw (xs.getLastD 0) = false := by
        rw [Token.leRaw, Token.data_ofRaw, decide_eq_false (Int64.not_le.2 hl), Bool.and_false]
      rw [violatesOrder, getLast?_eq_some_getD hbl 0, hb.lastTokens_eq, getLast?_eq_some_getLastD hne 0]
      show (decide (xs.length ≤ _) || (Token.ofRaw y).leRaw _) = false
      rw [h₁, h₂]
      rfl
    rw [pushBack_eq (by simp [hbl]) hviol]
    refine ⟨_, rfl, ⟨by simp [hb.lastTokens_eq], ?_, ?_⟩, rfl⟩
    · dsimp only
      rw [List.length_append, List.length_replicate, compactionGroupOf_ofRaw, if_neg (by simp), hlast]
      omega
    · intro b hb'
      dsimp only at hb' ⊢
      simp only [List.length_append, List.length_replicate, compactionGroupOf_ofRaw] at hb' ⊢
      rw [List.findIdx_append]
      by_cases hbb : b < m.buckets.length
      · -- An old bucket: a tablet of `xs` reaches into it.
        have hex : xs.findIdx (fun x => decide (b ≤ compactionGroupOfRaw m.log2Tablets x)) < xs.length :=
          List.findIdx_lt_length_of_exists ⟨xs.getLastD 0, getLastD_mem hne, decide_eq_true (by omega)⟩
        rw [List.getD_append _ _ _ _ hbb, hb.getD_buckets b hbb, if_pos hex]
      · -- A new bucket: no tablet of `xs` reaches into it, the new one does.
        have hnone : xs.findIdx (fun x => decide (b ≤ compactionGroupOfRaw m.log2Tablets x)) = xs.length :=
          List.findIdx_eq_length.2 fun x hx => decide_eq_false (by have := hbelow x hx; omega)
        have hle : b ≤ compactionGroupOfRaw m.log2Tablets y := by omega
        rw [List.getD_append_right _ _ _ _ (by omega), List.getD_replicate _ (by omega), hnone,
          if_neg (lt_irrefl _)]
        simp [hle]

/-- Pushing tokens above all of `xs`, in increasing order and with the next ids, builds the
buckets of them all. -/
theorem Built.pushAll {m : TabletIdMap} {xs : List Int64} (hb : m.Built xs) (hL : m.log2Tablets ≤ 64)
    (ys : List Int64) (hs : (xs ++ ys).Pairwise (· < ·)) :
    ∃ m', m.pushAll xs.length ys = .ok m' ∧ m'.Built (xs ++ ys) ∧ m'.log2Tablets = m.log2Tablets := by
  induction ys generalizing m xs with
  | nil => exact ⟨m, rfl, by simpa using hb, rfl⟩
  | cons y ys ih =>
    have hs' : ((xs ++ [y]) ++ ys).Pairwise (· < ·) := by simpa using hs
    obtain ⟨m₁, h₁, hb₁, hL₁⟩ := hb.pushBack hL (List.pairwise_append.1 hs').1
    obtain ⟨m₂, h₂, hb₂, hL₂⟩ := ih hb₁ (hL₁ ▸ hL) hs'
    refine ⟨m₂, ?_, by simpa using hb₂, hL₂.trans hL₁⟩
    rw [TabletIdMap.pushAll, h₁]
    show m₁.pushAll (xs.length + 1) ys = .ok m₂
    simpa using h₂

theorem built_empty (n : Nat) : (empty n).Built [] := ⟨rfl, rfl, fun b hb => by simp [empty] at hb⟩

theorem ofLastTokens_built {xs : List Int64} (hs : xs.Pairwise (· < ·)) :
    ∃ m, ofLastTokens xs = .ok m ∧ m.Built xs ∧ m.log2Tablets ≤ 64 := by
  obtain ⟨m, hm, hb, hL⟩ := (built_empty xs.length).pushAll (Packing.log2ceil_le 64 _) xs hs
  exact ⟨m, hm, by simpa using hb, hL ▸ Packing.log2ceil_le 64 _⟩

theorem linearSearch_eq {m : TabletIdMap} {t : Int64} {lowId highId j : Nat} (hj : lowId ≤ j ∧ j ≤ highId)
    (hlt : ∀ k, lowId ≤ k → k < j → ¬ t ≤ m.lastToken k) (hge : t ≤ m.lastToken j) :
    m.linearSearch t lowId highId = some j := by
  induction lowId using linearSearch.induct m t highId with
  | case1 lowId hle hfound =>
    have hj' : lowId = j := by
      by_contra hne
      exact hlt lowId le_rfl (by omega) hfound
    rw [linearSearch, if_pos hle, if_pos hfound, hj']
  | case2 lowId hle hfound ih =>
    -- The scan passes `lowId`, which lies before `j`.
    rw [linearSearch, if_pos hle, if_neg hfound]
    have hne : lowId ≠ j := fun h => hfound (h ▸ hge)
    exact ih ⟨by omega, hj.2⟩ fun k hk => hlt k (by omega)
  | case3 lowId hle =>
    omega

/-- Past the bucket's tablet, the scan and the binary search both find `j` when the tablets from
`lowId` end below `t` until `j`, and those from `j` to `highId` at or above it. -/
theorem searchRange_eq {m : TabletIdMap} {t : Int64} {lowId highId j : Nat} (hj : lowId ≤ j ∧ j ≤ highId)
    (hlt : ∀ k, lowId ≤ k → k < j → ¬ t ≤ m.lastToken k)
    (hge : ∀ k, j ≤ k → k ≤ highId → t ≤ m.lastToken k) :
    m.searchRange t lowId highId = some j := by
  unfold searchRange
  split
  · exact linearSearch_eq hj hlt (hge j le_rfl hj.2)
  · have hit : LowerBound.lowerBound (fun k => decide (m.lastToken k < t)) lowId (highId + 1 - lowId) = j :=
      LowerBound.lowerBound_eq ⟨hj.1, by omega⟩
        (fun k h₁ h₂ => decide_eq_true (Int64.not_le.1 (hlt k h₁ h₂)))
        (fun k h₁ h₂ => decide_eq_false (Int64.not_lt.2 (hge k h₁ (by omega))))
    simp only [hit]
    rw [if_pos (by omega)]

section Lookup

variable {m : TabletIdMap} {xs : List Int64} (hb : m.Built xs) (hL : m.log2Tablets ≤ 64)
  (hs : xs.Pairwise (· < ·)) (hmax : xs.getLast? = some Int64.maxValue)
include hb hL hs hmax

/-- The lookup of a raw token answers the first tablet whose last token is at least the token. -/
theorem getTabletIdRaw_eq (t : Int64) : m.getTabletIdRaw t = .ok (xs.findIdx fun x => decide (t ≤ x)) := by
  have hne : xs ≠ [] := by
    rintro rfl
    simp at hmax
  have hn : 0 < xs.length := List.length_pos_iff.2 hne
  have hlastD : xs.getLastD 0 = Int64.maxValue := by rw [List.getLastD_eq_getLast?, hmax]; rfl
  have hmaxD := getD_of_getLast? hmax
  have htok : ∀ k, m.lastToken k = xs.getD k Int64.minValue := fun k => by
    rw [lastToken, hb.lastTokens_eq]
  have hlen : m.buckets.length = compactionGroupOfRaw m.log2Tablets Int64.maxValue + 1 := by
    simpa only [hne, if_false, hlastD] using hb.length_buckets
  have hbucket : compactionGroupOfRaw m.log2Tablets t < m.buckets.length := by
    have := compactionGroupOfRaw_mono hL (Int64.le_maxValue t)
    omega
  -- The answer `j`: the tablets before it end below `t`, those from it on at or above.
  set j := xs.findIdx fun x => decide (t ≤ x) with hj
  have hjn : j < xs.length := by
    have := @findIdx_le_of_getD _ xs (fun x => decide (t ≤ x)) Int64.minValue (xs.length - 1)
      (by omega) (by rw [hmaxD]; exact decide_eq_true (Int64.le_maxValue t))
    omega
  have hjt : t ≤ xs.getD j Int64.minValue := by simpa using getD_findIdx (d := Int64.minValue) hjn
  have hbefore : ∀ k < j, ¬ t ≤ xs.getD k Int64.minValue := fun k hk => by
    simpa using getD_of_lt_findIdx (d := Int64.minValue) hk
  have hafter : ∀ k, j ≤ k → k < xs.length → t ≤ xs.getD k Int64.minValue := fun k hk hkn => by
    rcases Nat.lt_or_eq_of_le hk with h | h
    · exact Int64.le_of_lt (Int64.lt_of_le_of_lt hjt (getD_lt_getD_of_pairwise hs h hkn))
    · exact h ▸ hjt
  -- The bucket of `t` holds the first tablet reaching into its group, at or before `j`.
  have hlow : m.buckets.getD (compactionGroupOfRaw m.log2Tablets t) 0 =
      xs.findIdx fun x => decide (compactionGroupOfRaw m.log2Tablets t ≤ compactionGroupOfRaw m.log2Tablets x) :=
    hb.getD_buckets _ hbucket
  have hlowj : m.buckets.getD (compactionGroupOfRaw m.log2Tablets t) 0 ≤ j := by
    rw [hlow]
    exact findIdx_le_of_getD hjn (decide_eq_true (compactionGroupOfRaw_mono hL hjt))
  unfold getTabletIdRaw
  dsimp only
  rw [if_neg (Nat.not_le.2 hbucket)]
  by_cases hfast : t ≤ m.lastToken (m.buckets.getD (compactionGroupOfRaw m.log2Tablets t) 0)
  · -- The fast path: the bucket's tablet reaches `t`.
    rw [if_pos hfast]
    congr 1
    refine le_antisymm hlowj (findIdx_le_of_getD (d := Int64.minValue) (by omega) ?_)
    rw [← htok]
    exact decide_eq_true hfast
  rw [if_neg hfast]
  -- Otherwise `j` lies after the bucket's tablet, and at or before the next bucket's.
  have hlowlt : m.buckets.getD (compactionGroupOfRaw m.log2Tablets t) 0 < j :=
    lt_of_le_of_ne hlowj fun h => hfast (by rw [htok, h]; exact hjt)
  have hjhigh : j ≤ (if compactionGroupOfRaw m.log2Tablets t + 1 ≥ m.buckets.length then m.tabletCount - 1
        else m.buckets.getD (compactionGroupOfRaw m.log2Tablets t + 1) 0) ∧
      (if compactionGroupOfRaw m.log2Tablets t + 1 ≥ m.buckets.length then m.tabletCount - 1
        else m.buckets.getD (compactionGroupOfRaw m.log2Tablets t + 1) 0) < xs.length := by
    by_cases hlast : compactionGroupOfRaw m.log2Tablets t + 1 ≥ m.buckets.length
    · rw [if_pos hlast, tabletCount, hb.lastTokens_eq]
      omega
    · -- The next bucket's tablet ends in a later group than `t`'s, so at a larger token.
      rw [if_neg hlast, hb.getD_buckets _ (by omega)]
      have hex : (xs.findIdx fun x => decide (compactionGroupOfRaw m.log2Tablets t + 1 ≤
          compactionGroupOfRaw m.log2Tablets x)) < xs.length :=
        List.findIdx_lt_length_of_exists
          ⟨xs.getLastD 0, getLastD_mem hne, decide_eq_true (by rw [hlastD]; omega)⟩
      have hk := of_decide_eq_true (getD_findIdx (d := Int64.minValue) hex)
      refine ⟨findIdx_le_of_getD (d := Int64.minValue) hex (decide_eq_true ?_), hex⟩
      by_contra hlt
      have := compactionGroupOfRaw_mono hL (Int64.le_of_lt (Int64.not_le.1 hlt))
      omega
  rw [searchRange_eq ⟨hlowlt, hjhigh.1⟩ (fun k _ hk => by rw [htok]; exact hbefore k hk)
    (fun k hk₁ hk₂ => by rw [htok]; exact hafter k hk₁ (by omega))]
  rfl

/-- The lookup of a token answers its owner: the token after all keys falls to the last tablet. -/
theorem getTabletId_eq (t : Token) : m.getTabletId t = .ok (owner xs t) := by
  have hne : xs ≠ [] := by
    rintro rfl
    simp at hmax
  unfold getTabletId owner
  by_cases hmx : t.isMaximum
  · -- Only the last tablet ends at INT64_MAX, the raw token of the token after all keys.
    have hmn : t.isMinimum = false := by
      simp only [Token.isMaximum, beq_iff_eq] at hmx
      simp [Token.isMinimum, hmx]
    have hraw : t.raw = Int64.maxValue := by simp [Token.raw, hmx]
    rw [if_pos hmx, tabletCount, hb.lastTokens_eq]
    simp only [hmn, hraw, Bool.false_or]
    congr 1
    exact (findIdx_maxValue hs hmax).symm
  · rw [if_neg hmx]
    by_cases hmn : t.isMinimum
    · -- The token before all keys falls to the first tablet.
      rw [if_pos hmn]
      obtain ⟨x, xs', rfl⟩ := List.exists_cons_of_ne_nil hne
      simp only [hmn, Bool.true_or]
      rfl
    · rw [if_neg hmn, getTabletIdRaw_eq hb hL hs hmax]
      simp [hmn]

end Lookup

theorem getTabletId_eq_owner {xs : List Int64} (hs : xs.Pairwise (· < ·))
    (hmax : xs.getLast? = some Int64.maxValue) :
    ∃ m, ofLastTokens xs = .ok m ∧ ∀ t, m.getTabletId t = .ok (owner xs t) := by
  obtain ⟨m, hm, hb, hL⟩ := ofLastTokens_built hs
  exact ⟨m, hm, getTabletId_eq hb hL hs hmax⟩

theorem getTabletId_eq_owner_uneven :
    [(-5 : Int64), 0, 7, Int64.maxValue].Pairwise (· < ·) ∧
      [(-5 : Int64), 0, 7, Int64.maxValue].getLast? = some Int64.maxValue ∧
      ∃ m, ofLastTokens [-5, 0, 7, Int64.maxValue] = .ok m ∧
        ∀ t, m.getTabletId t = .ok (owner [-5, 0, 7, Int64.maxValue] t) :=
  ⟨by decide, rfl, getTabletId_eq_owner (by decide) rfl⟩

end TabletIdMap

end Scylla.Locator
