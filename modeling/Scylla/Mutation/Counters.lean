import Scylla.Lib.Combine
import Scylla.Mutation.MergeOrder

/-!
# Merging counter cells

`counter_cell_view::apply` (`mutation/counters.cc`) merges the counter cell `src` into `dst`.  For two live cells of
shards with at least as many shards in `dst` it first runs `apply_in_place`.  That loop walks both shard arrays,
which are sorted by counter id.  For each shard of `src` it either swaps the values and clocks of the two shards of
that id, when `src`'s clock is the larger, or copies `dst`'s value and clock into `src`.  A shard of `src` with no
partner in `dst` makes it walk both arrays back, swapping each pair once more, and `apply` falls back to `combine`
(`mutation/combine.hh`) of the shard arrays as the walk back left them.

The shard arrays are lists and the iterators indexes into them: `advance` and `retreat` are the two inner loops.
A counter id is any linearly ordered type (`counter_id` is a UUID compared as one).  Values, clocks and timestamps
are the source's 64-bit integers.

Main result, `apply_shards_eq_combine`: for two live cells whose shards are sorted by strictly increasing id,
`apply` leaves in `dst` the larger timestamp and the shards that `combine` builds from the two original arrays.
* On the fast path the loop leaves `dst` as that combination (`applyInPlaceLoop_spec`).
* After a failure the walk back restores `dst` exactly.  In `src` it leaves each visited shard with the newer of
  the pair's values (`revertLoop_spec`).  Such a shard merges with its partner in `dst` as the original shard
  did, so `combine` is unchanged (`Combine.combine_congr_right`).
-/

namespace Scylla

/-- counter_shard -/
structure CounterShard (ι : Type) where
  id : ι
  value : Int64
  logicalClock : Int64
  deriving DecidableEq, Repr

namespace CounterShard

variable {ι : Type}

/-- basic_counter_shard_view::swap_value_and_clock: exchange the values and clocks of two shards. -/
def swapValueAndClock (a b : CounterShard ι) : CounterShard ι × CounterShard ι :=
  ({ a with value := b.value, logicalClock := b.logicalClock },
    { b with value := a.value, logicalClock := a.logicalClock })

/-- basic_counter_shard_view::set_value_and_clock -/
def setValueAndClock (a b : CounterShard ι) : CounterShard ι :=
  { a with value := b.value, logicalClock := b.logicalClock }

/-- counter_shard_view::less_compare_by_id -/
def lessCompareById [LinearOrder ι] (x y : CounterShard ι) : Bool := decide (x.id < y.id)

/-- The merge `counter_cell_view::apply` passes to `combine`: the shard of the larger logical clock, the first on
a tie. -/
def newerByLogicalClock (x y : CounterShard ι) : CounterShard ι :=
  if x.logicalClock < y.logicalClock then y else x

end CounterShard

/-- A cell of a counter column as `counter_cell_view::apply` reads it: a deletion, a live counter update, or live
shards. -/
inductive CounterCell (ι : Type) where
  | dead (timestamp deletionTime : Int64)
  | update (timestamp value : Int64)
  | shards (timestamp : Int64) (shards : List (CounterShard ι))
  deriving DecidableEq, Repr

namespace CounterCell

variable {ι : Type}

def isLive : CounterCell ι → Bool
  | dead .. => false
  | _ => true

@[simp] theorem isLive_dead (t d : Int64) : (dead t d : CounterCell ι).isLive = false := rfl

/-- compare_atomic_cell_for_merge(dst, src) < 0, which `apply` evaluates for two deletions only. -/
def deadLt : CounterCell ι → CounterCell ι → Bool
  | dead t d, dead t' d' => compareAtomicCellForMerge (.dead t d) (.dead t' d') == .lt
  | _, _ => false

def timestamp : CounterCell ι → Int64
  | dead t _ | update t _ | shards t _ => t

/-- Read only for a deletion. -/
def deletionTime : CounterCell ι → Int64
  | dead _ d => d
  | _ => 0

/-- A counter cell has no ttl, so it never expires. -/
def view (c : CounterCell ι) : AtomicView := ⟨c.timestamp, c.isLive, false, c.deletionTime⟩

/-- The compaction of the cell of a counter column. -/
def compactAndExpire (c : CounterCell ι) (tomb : RowTombstone) (canGc : Tombstone → Bool → Bool)
    (gcBefore : Int64) : CellCompaction (CounterCell ι) :=
  compactAtomic true c.view c (dead c.timestamp c.deletionTime) tomb canGc gcBefore

end CounterCell

/-- counter_id: a UUID, ordered by its most significant bits and then its least significant bits,
both compared unsigned. -/
structure CounterId where
  mostSigBits : Int64
  leastSigBits : Int64
  deriving DecidableEq, Repr

namespace CounterId

def key (c : CounterId) : Nat ×ₗ Nat := toLex (c.mostSigBits.toUInt64.toNat, c.leastSigBits.toUInt64.toNat)

theorem key_injective : Function.Injective key := by
  rintro ⟨m₁, l₁⟩ ⟨m₂, l₂⟩ h
  simp only [key, toLex_inj, Prod.mk.injEq, UInt64.toNat_inj] at h
  rw [Int64.toUInt64_inj.1 h.1, Int64.toUInt64_inj.1 h.2]

instance : LinearOrder CounterId := LinearOrder.lift' key key_injective

end CounterId

section Apply

variable {ι : Type} [LinearOrder ι]

/-- The inner loop of apply_in_place: move `dst_it` forward past the shards of smaller id. -/
def advance (dst : List (CounterShard ι)) (id : ι) : Nat → Nat → Nat
  | 0, di => di
  | fuel + 1, di =>
    match dst[di]? with
    | some d => if d.id < id then advance dst id fuel (di + 1) else di
    | none => di

/-- The inner loop of the walk back: move `dst_it` back to the shard of the given id. -/
def retreat (dst : List (CounterShard ι)) (id : ι) : Nat → Nat
  | 0 => 0
  | di + 1 => if (dst[di + 1]?.map (·.id)) = some id then di + 1 else retreat dst id di

/-- The walk back of apply_in_place: move `src_it` back from `si` to the beginning and swap each shard once more
with the shard of its id in `dst`. -/
def revertLoop (dst src : List (CounterShard ι)) (di : Nat) :
    Nat → List (CounterShard ι) × List (CounterShard ι)
  | 0 => (dst, src)
  | si + 1 =>
    match src[si]? with
    | none => (dst, src)
    | some s =>
      let di := retreat dst s.id di
      match dst[di]? with
      | none => (dst, src)
      | some d =>
        let (s', d') := s.swapValueAndClock d
        revertLoop (dst.set di d') (src.set si s') di si

/-- The loop of apply_in_place from the shards at `di` and `si`; `false` once a shard of `src` has no partner, with
the arrays the walk back leaves. -/
def applyInPlaceLoop (dst src : List (CounterShard ι)) (di si : Nat) :
    Nat → Bool × List (CounterShard ι) × List (CounterShard ι)
  | 0 => (true, dst, src)
  | fuel + 1 =>
    match src[si]? with
    | none => (true, dst, src)
    | some s =>
      let di := advance dst s.id dst.length di
      match dst[di]? with
      | some d =>
        if d.id = s.id then
          if d.logicalClock < s.logicalClock then
            let (d', s') := d.swapValueAndClock s
            applyInPlaceLoop (dst.set di d') (src.set si s') di (si + 1) fuel
          else applyInPlaceLoop dst (src.set si (s.setValueAndClock d)) di (si + 1) fuel
        else (false, revertLoop dst src di si)
      -- Past the end of `dst` the walk back starts from its last shard.
      | none => (false, revertLoop dst src (di - 1) si)

/-- apply_in_place on two live cells of shards, each given by its timestamp and shards; `false` when the fast path
failed. -/
def applyInPlace (dstTs : Int64) (dst : List (CounterShard ι)) (srcTs : Int64) (src : List (CounterShard ι)) :
    Bool × (Int64 × List (CounterShard ι)) × (Int64 × List (CounterShard ι)) :=
  match applyInPlaceLoop dst src 0 0 src.length with
  | (true, dst', src') => (true, (max dstTs srcTs, dst'), (dstTs, src'))
  | (false, dst', src') => (false, (dstTs, dst'), (srcTs, src'))

/-- counter_cell_view::apply on two live cells of shards. -/
def applyShards (dstTs : Int64) (dst : List (CounterShard ι)) (srcTs : Int64) (src : List (CounterShard ι)) :
    CounterCell ι × CounterCell ι :=
  -- The slow path combines the shards as the views read them, after any walk back, and leaves the old `dst` in
  -- `src`.
  let slow (dst src : List (CounterShard ι)) : CounterCell ι × CounterCell ι :=
    (.shards (max dstTs srcTs)
      (Combine.combine CounterShard.lessCompareById CounterShard.newerByLogicalClock dst src), .shards dstTs dst)
  if src.length ≤ dst.length then
    match applyInPlace dstTs dst srcTs src with
    | (true, (dstTs', dst'), (srcTs', src')) => (.shards dstTs' dst', .shards srcTs' src')
    | (false, (_, dst'), (_, src')) => slow dst' src'
  else slow dst src

/-- counter_cell_view::apply: the merged cell left in `dst` and what is left in `src`; `none` where the source
asserts, a live counter update meeting live shards. -/
def CounterCell.apply (dst src : CounterCell ι) : Option (CounterCell ι × CounterCell ι) :=
  if !dst.isLive || !src.isLive then
    if dst.isLive || (!src.isLive && dst.deadLt src) then some (src, dst) else some (dst, src)
  else
    match dst, src with
    | .update dstTs dstV, .update srcTs srcV => some (.update (max dstTs srcTs) (srcV + dstV), src)
    | .shards dstTs dst', .shards srcTs src' => some (applyShards dstTs dst' srcTs src')
    | _, _ => none

/-- The cell counter_cell_view::apply leaves in `dst`; `dst` itself where the source asserts. -/
def CounterCell.applied (dst src : CounterCell ι) : CounterCell ι := (dst.apply src).elim dst Prod.fst

end Apply

namespace CounterShard

variable {ι : Type}

@[simp] theorem id_setValueAndClock (a b : CounterShard ι) : (a.setValueAndClock b).id = a.id := rfl

theorem swapValueAndClock_eq (a b : CounterShard ι) :
    a.swapValueAndClock b = (a.setValueAndClock b, b.setValueAndClock a) := rfl

@[simp] theorem setValueAndClock_setValueAndClock_left (a b c : CounterShard ι) :
    (a.setValueAndClock b).setValueAndClock c = a.setValueAndClock c := rfl

@[simp] theorem setValueAndClock_setValueAndClock_right (a b c : CounterShard ι) :
    a.setValueAndClock (b.setValueAndClock c) = a.setValueAndClock c := rfl

/-- Taking the value and clock of a shard of the same id gives that shard. -/
theorem setValueAndClock_of_id_eq {a b : CounterShard ι} (h : a.id = b.id) : a.setValueAndClock b = b := by
  cases a
  cases b
  simp_all [setValueAndClock]

theorem id_newerByLogicalClock {x y : CounterShard ι} (h : y.id = x.id) : (newerByLogicalClock x y).id = x.id := by
  unfold newerByLogicalClock
  split
  · exact h
  · rfl

/-- A shard that took the newer of the pair's values merges with the first shard of the pair as the original did. -/
theorem newerByLogicalClock_setValueAndClock (x y : CounterShard ι) :
    newerByLogicalClock x (y.setValueAndClock (newerByLogicalClock x y)) = newerByLogicalClock x y := by
  by_cases h : x.logicalClock < y.logicalClock
  · simp only [newerByLogicalClock, h, ↓reduceIte, setValueAndClock]
  · simp only [newerByLogicalClock, h, ↓reduceIte, setValueAndClock, Int64.lt_irrefl]

end CounterShard

section Spec

variable {ι : Type} [LinearOrder ι]

open CounterShard

/-- `advance` stops at the first shard from `di` on whose id is not below `id`, or at the end. -/
theorem advance_spec (l : List (CounterShard ι)) (id : ι) :
    ∀ fuel di, di ≤ l.length → l.length ≤ di + fuel →
      di ≤ advance l id fuel di ∧ advance l id fuel di ≤ l.length ∧
      (∀ i (hi : i < l.length), di ≤ i → i < advance l id fuel di → l[i].id < id) ∧
      ∀ hq : advance l id fuel di < l.length, ¬l[advance l id fuel di].id < id := by
  intro fuel
  induction fuel with
  | zero =>
    intro di hdi hfuel
    exact ⟨le_rfl, hdi, fun i _ h1 h2 => absurd h2 (not_lt.2 h1), fun hq => absurd hq (by simp [advance]; omega)⟩
  | succ fuel ih =>
    intro di hdi hfuel
    cases hx : l[di]? with
    | none =>
      have hlen : l.length ≤ di := List.getElem?_eq_none_iff.1 hx
      simp only [advance, hx]
      exact ⟨le_rfl, hdi, fun i _ h1 h2 => absurd h2 (not_lt.2 h1), fun hq => absurd hq (by omega)⟩
    | some x =>
      obtain ⟨hlt, rfl⟩ := List.getElem?_eq_some_iff.1 hx
      by_cases hbelow : l[di].id < id
      · simp only [advance, hx, hbelow, if_true]
        obtain ⟨h1, h2, h3, h4⟩ := ih (di + 1) hlt (by omega)
        refine ⟨by omega, h2, fun i hi hdi' hi' => ?_, h4⟩
        rcases Nat.lt_or_eq_of_le hdi' with hlt' | rfl
        · exact h3 i hi hlt' hi'
        · exact hbelow
      · simp only [advance, hx, hbelow, if_false]
        exact ⟨le_rfl, hlt.le, fun i _ h1 h2 => absurd h2 (not_lt.2 h1), fun _ => not_false⟩

/-- From a cursor at or after the only shard of an id, `retreat` comes back to it. -/
theorem retreat_spec (l : List (CounterShard ι)) (id : ι) {p : Nat} (hp : p < l.length) (hpid : l[p].id = id) :
    ∀ di, p ≤ di → (∀ i (hi : i < l.length), p < i → i ≤ di → l[i].id ≠ id) → retreat l id di = p := by
  intro di
  induction di with
  | zero =>
    intro hp0 _
    rw [retreat]
    omega
  | succ di ih =>
    intro hpd hne
    by_cases hpd' : p = di + 1
    · subst hpd'
      rw [retreat, if_pos (by rw [List.getElem?_eq_getElem hp, Option.map_some, hpid])]
    · rw [retreat, if_neg]
      · exact ih (by omega) fun i hi h1 h2 => hne i hi h1 (by omega)
      · intro heq
        obtain ⟨x, hx, hxid⟩ := Option.map_eq_some_iff.1 heq
        obtain ⟨hlt, rfl⟩ := List.getElem?_eq_some_iff.1 hx
        exact hne (di + 1) hlt (by omega) le_rfl hxid

omit [LinearOrder ι] in
private theorem getElem_mem_drop_of_le {l : List (CounterShard ι)} {n i : Nat} (h : n ≤ i) (hi : i < l.length) :
    l[i] ∈ l.drop n :=
  List.mem_drop_iff_getElem.2 ⟨i - n, by omega, by simp [Nat.add_sub_cancel' h]⟩

omit [LinearOrder ι] in
private theorem getElem_mem_take_of_lt {l : List (CounterShard ι)} {n i : Nat} (h : i < n) (hi : i < l.length) :
    l[i] ∈ l.take n :=
  List.mem_take_iff_getElem.2 ⟨i, by omega, rfl⟩

/-- In a list sorted by strictly increasing id, the shards before position `k` have smaller ids. -/
theorem id_lt_of_mem_take {s : List (CounterShard ι)} (hs : s.Pairwise (·.id < ·.id)) {k : Nat}
    (hk : k < s.length) {y : CounterShard ι} (hy : y ∈ s.take k) : y.id < s[k].id :=
  hs.rel_of_mem_take_of_mem_drop hy (getElem_mem_drop_of_le le_rfl hk)

/-- In a list sorted by strictly increasing id, the shards after position `k` have larger ids. -/
theorem id_lt_of_mem_drop {s : List (CounterShard ι)} (hs : s.Pairwise (·.id < ·.id)) {k : Nat}
    (hk : k < s.length) {y : CounterShard ι} (hy : y ∈ s.drop (k + 1)) : s[k].id < y.id :=
  hs.rel_of_mem_take_of_mem_drop (getElem_mem_take_of_lt (Nat.lt_succ_self k) hk) hy

/-! ### The arrays along the loop -/

/-- The shard of `d` with the id of `y`, or `y` when there is none. -/
def partnerIn (d : List (CounterShard ι)) (y : CounterShard ι) : CounterShard ι :=
  (d.find? fun x => x.id = y.id).getD y

/-- `dst` once the loop has handled the first `k` shards of `src`: each shard merged with its partner among
them. -/
def mergedShards (d s : List (CounterShard ι)) (k : Nat) : List (CounterShard ι) :=
  d.map (Combine.mergeMatched (·.id) newerByLogicalClock (s.take k))

/-- `src` along the loop and the walk back: the first `m` shards hold their partner's value and clock, those up to
`k` the newer value and clock of the pair, the others are untouched. -/
def revertedShards (d s : List (CounterShard ι)) (m k : Nat) : List (CounterShard ι) :=
  s.mapIdx fun j y =>
    if j < m then y.setValueAndClock (partnerIn d y)
    else if j < k then y.setValueAndClock (newerByLogicalClock (partnerIn d y) y)
    else y

variable {d s : List (CounterShard ι)}

/-- In a list sorted by strictly increasing id the shard of an id is the partner found for it. -/
theorem partnerIn_eq (hd : d.Pairwise (·.id < ·.id)) {p : Nat} (hp : p < d.length) {y : CounterShard ι}
    (hpy : d[p].id = y.id) : partnerIn d y = d[p] := by
  have hfind : d.find? (fun x => x.id = y.id) = some d[p] := by
    refine List.find?_eq_some_iff_getElem.2 ⟨by simpa using hpy, p, hp, rfl, fun j hj => ?_⟩
    have := List.pairwise_iff_getElem.1 hd j p (by omega) hp hj
    simpa [← hpy] using this.ne
  rw [partnerIn, hfind, Option.getD_some]

/-- Distinct positions of a list sorted by strictly increasing id hold distinct ids. -/
theorem id_ne_of_ne (hd : d.Pairwise (·.id < ·.id)) {i j : Nat} (hi : i < d.length) (hj : j < d.length)
    (hij : i ≠ j) : d[i].id ≠ d[j].id := by
  rcases Nat.lt_or_gt_of_ne hij with hlt | hgt
  · exact (List.pairwise_iff_getElem.1 hd i j hi hj hlt).ne
  · exact (List.pairwise_iff_getElem.1 hd j i hj hi hgt).ne'

@[simp] theorem length_mergedShards (d s : List (CounterShard ι)) (k : Nat) :
    (mergedShards d s k).length = d.length := List.length_map _

theorem getElem_mergedShards (k : Nat) {i : Nat} (hi : i < (mergedShards d s k).length) (hdi : i < d.length) :
    (mergedShards d s k)[i] = Combine.mergeMatched (·.id) newerByLogicalClock (s.take k) d[i] :=
  List.getElem_map _

@[simp] theorem id_getElem_mergedShards (k : Nat) {i : Nat} (hi : i < (mergedShards d s k).length)
    (hdi : i < d.length) : (mergedShards d s k)[i].id = d[i].id := by
  rw [getElem_mergedShards k hi hdi]
  exact Combine.key_mergeMatched (fun _ _ h => id_newerByLogicalClock h) _ _

theorem mergedShards_zero (d s : List (CounterShard ι)) : mergedShards d s 0 = d := by
  have hid : ∀ x : CounterShard ι, Combine.mergeMatched (·.id) newerByLogicalClock [] x = x :=
    fun x => Combine.mergeMatched_of_forall_ne (by simp)
  rw [mergedShards, List.take_zero]
  exact List.map_id'' hid d

/-- The shard of the next id is still untouched. -/
theorem getElem_mergedShards_of_id_eq (hs : s.Pairwise (·.id < ·.id)) {k : Nat} (hk : k < s.length) {p : Nat}
    (hp : p < d.length) (hp' : p < (mergedShards d s k).length) (hpk : d[p].id = s[k].id) :
    (mergedShards d s k)[p] = d[p] := by
  rw [getElem_mergedShards k hp' hp]
  exact Combine.mergeMatched_of_forall_ne fun y hy => hpk ▸ (id_lt_of_mem_take hs hk hy).ne

/-- Handling the shard `k` of `src` merges it into its partner at `p`. -/
theorem mergedShards_succ (hd : d.Pairwise (·.id < ·.id)) (hs : s.Pairwise (·.id < ·.id)) {k : Nat}
    (hk : k < s.length) {p : Nat} (hp : p < d.length) (hpk : d[p].id = s[k].id) :
    mergedShards d s (k + 1) = (mergedShards d s k).set p (newerByLogicalClock d[p] s[k]) := by
  have htake : s.take (k + 1) = s.take k ++ [s[k]] := by
    rw [List.take_add_one, List.getElem?_eq_getElem hk, Option.toList_some]
  -- The other shards of `d` have other ids than `s[k]`, and none of `s.take k` has the id of `s[k]`.
  have hprev : ∀ y ∈ s.take k, y.id ≠ d[p].id := fun y hy => hpk ▸ (id_lt_of_mem_take hs hk hy).ne
  refine List.ext_getElem (by simp) fun i h1 h2 => ?_
  rw [List.getElem_set, getElem_mergedShards _ h1 (by simpa using h1),
    getElem_mergedShards _ (by simpa using h1) (by simpa using h1), htake]
  split
  · rename_i hpi
    subst hpi
    rw [Combine.mergeMatched_append_of_forall_ne_left hprev, Combine.mergeMatched_cons_of_eq hpk.symm]
  · rename_i hpi
    refine Combine.mergeMatched_append_of_forall_ne_right fun y hy => ?_
    rw [List.mem_singleton.1 hy, ← hpk]
    exact id_ne_of_ne hd hp (by simpa using h1) hpi

@[simp] theorem length_revertedShards (d s : List (CounterShard ι)) (m k : Nat) :
    (revertedShards d s m k).length = s.length := List.length_mapIdx

theorem getElem_revertedShards {m k i : Nat} (hi : i < (revertedShards d s m k).length) (hsi : i < s.length) :
    (revertedShards d s m k)[i] =
      if i < m then s[i].setValueAndClock (partnerIn d s[i])
      else if i < k then s[i].setValueAndClock (newerByLogicalClock (partnerIn d s[i]) s[i])
      else s[i] :=
  List.getElem_mapIdx

theorem revertedShards_zero_zero (d s : List (CounterShard ι)) : revertedShards d s 0 0 = s :=
  List.ext_getElem (by simp) fun i h1 h2 => by
    rw [getElem_revertedShards h1 h2]
    simp

/-- Handling the shard `k` of `src` gives it its partner's value and clock. -/
theorem revertedShards_succ_succ {k : Nat} (hk : k < s.length) :
    revertedShards d s (k + 1) (k + 1) =
      (revertedShards d s k k).set k (s[k].setValueAndClock (partnerIn d s[k])) := by
  refine List.ext_getElem (by simp) fun i h1 h2 => ?_
  rw [List.getElem_set, getElem_revertedShards h1 (by simpa using h1),
    getElem_revertedShards (by simpa using h1) (by simpa using h1)]
  rcases Nat.lt_trichotomy i k with hik | rfl | hki
  · simp [hik, Nat.lt_succ_of_lt hik, Nat.ne_of_gt hik]
  · simp
  · simp [show ¬i < k + 1 by omega, show ¬i < k by omega, Nat.ne_of_lt hki]

/-- Walking back over the shard `m` of `src` gives it the newer value and clock of the pair. -/
theorem revertedShards_back {m k : Nat} (hmk : m < k) (hms : m < s.length) :
    revertedShards d s m k =
      (revertedShards d s (m + 1) k).set m (s[m].setValueAndClock (newerByLogicalClock (partnerIn d s[m]) s[m])) := by
  refine List.ext_getElem (by simp) fun i h1 h2 => ?_
  rw [List.getElem_set, getElem_revertedShards h1 (by simpa using h1),
    getElem_revertedShards (by simpa using h1) (by simpa using h1)]
  rcases Nat.lt_trichotomy i m with him | rfl | hmi
  · simp [him, Nat.lt_succ_of_lt him, Nat.ne_of_gt him]
  · simp [hmk]
  · simp [show ¬i < m + 1 by omega, show ¬i < m by omega, Nat.ne_of_lt hmi]

/-! ### The walk back -/

variable (hd : d.Pairwise (·.id < ·.id)) (hs : s.Pairwise (·.id < ·.id))
include hd hs

/-- Walking back from a cursor past every handled shard's partner restores `dst` and leaves in each handled shard
of `src` the newer value and clock of its pair. -/
theorem revertLoop_spec {k : Nat} (hk : k ≤ s.length) (hmatch : ∀ y ∈ s.take k, ∃ x ∈ d, x.id = y.id) :
    ∀ m r, m ≤ k → (∀ x ∈ d.drop (r + 1), ∀ y ∈ s.take m, y.id < x.id) →
      revertLoop (mergedShards d s m) (revertedShards d s m k) r m = (d, revertedShards d s 0 k) := by
  intro m
  induction m with
  | zero =>
    intro r _ _
    rw [revertLoop, mergedShards_zero]
  | succ m ih =>
    intro r hmk hafter
    have hms : m < s.length := by omega
    -- The partner of `s[m]` sits at some `p` at or before the cursor.
    obtain ⟨x, hx, hxid⟩ := hmatch s[m] (getElem_mem_take_of_lt (by omega) hms)
    obtain ⟨p, hp, rfl⟩ := List.mem_iff_getElem.1 hx
    have hpart := partnerIn_eq hd hp hxid
    have hpr : p ≤ r := by
      by_contra hlt
      have := hafter d[p] (getElem_mem_drop_of_le (by omega) hp) s[m]
        (getElem_mem_take_of_lt (Nat.lt_succ_self m) hms)
      rw [hxid] at this
      exact lt_irrefl _ this
    have hsrc : (revertedShards d s (m + 1) k)[m]? = some (s[m].setValueAndClock d[p]) := by
      rw [List.getElem?_eq_getElem (by simp; omega), getElem_revertedShards (by simp; omega) hms,
        if_pos (Nat.lt_succ_self m), hpart]
    have hret : retreat (mergedShards d s (m + 1)) (s[m].setValueAndClock d[p]).id r = p := by
      refine retreat_spec _ _ (by simpa using hp)
        (by rw [id_getElem_mergedShards _ _ hp, id_setValueAndClock]; exact hxid) r hpr fun i hi h1 _ => ?_
      rw [id_getElem_mergedShards _ hi (by simpa using hi), id_setValueAndClock, ← hxid]
      exact id_ne_of_ne hd (by simpa using hi) hp (by omega)
    have hsucc := mergedShards_succ hd hs hms hp hxid
    have hdst : (mergedShards d s (m + 1))[p]? = some (newerByLogicalClock d[p] s[m]) := by
      rw [hsucc, List.getElem?_set_self (by simpa using hp)]
    -- The swap puts `d[p]` back and leaves the newer value and clock of the pair in `src`.
    have hdst' : (mergedShards d s (m + 1)).set p
        ((newerByLogicalClock d[p] s[m]).setValueAndClock (s[m].setValueAndClock d[p])) = mergedShards d s m := by
      rw [setValueAndClock_setValueAndClock_right, setValueAndClock_of_id_eq (id_newerByLogicalClock hxid.symm),
        hsucc, List.set_set]
      conv_lhs => rw [← getElem_mergedShards_of_id_eq hs hms hp (by simpa using hp) hxid]
      exact List.set_getElem_self _
    have hsrc' : (revertedShards d s (m + 1) k).set m
        ((s[m].setValueAndClock d[p]).setValueAndClock (newerByLogicalClock d[p] s[m])) =
          revertedShards d s m k := by
      rw [setValueAndClock_setValueAndClock_left, revertedShards_back (show m < k by omega) hms, hpart]
    rw [revertLoop, hsrc]
    dsimp only
    rw [hret, hdst]
    dsimp only
    rw [swapValueAndClock_eq]
    dsimp only
    rw [hdst', hsrc']
    refine ih p (by omega) fun x' hx' y hy => ?_
    calc y.id < s[m].id := id_lt_of_mem_take hs hms hy
      _ = d[p].id := hxid.symm
      _ < x'.id := id_lt_of_mem_drop hd hp hx'

/-! ### The loop -/

/-- The loop of apply_in_place from the state after `k` shards of `src`, with the cursor `c` past no shard of
`dst` that a later shard of `src` could match.  Either every shard of `src` has a partner and the loop merges all
of them, or it stops at the first shard `m` without one and the walk back restores `dst`. -/
theorem applyInPlaceLoop_spec :
    ∀ fuel k c, k + fuel = s.length → c ≤ d.length → (∀ x ∈ d.take c, ∀ y ∈ s.drop k, x.id < y.id) →
      (∀ y ∈ s.take k, ∃ x ∈ d, x.id = y.id) →
      ((∀ y ∈ s, ∃ x ∈ d, x.id = y.id) ∧
          applyInPlaceLoop (mergedShards d s k) (revertedShards d s k k) c k fuel =
            (true, mergedShards d s s.length, revertedShards d s s.length s.length)) ∨
        ∃ m ≤ s.length, (∀ y ∈ s.take m, ∃ x ∈ d, x.id = y.id) ∧
          applyInPlaceLoop (mergedShards d s k) (revertedShards d s k k) c k fuel =
            (false, d, revertedShards d s 0 m) := by
  intro fuel
  induction fuel with
  | zero =>
    intro k c hk _ _ hmatch
    obtain rfl : k = s.length := by omega
    exact .inl ⟨by simpa using hmatch, by rw [applyInPlaceLoop]⟩
  | succ fuel ih =>
    intro k c hk hc hcur hmatch
    have hks : k < s.length := by omega
    have hsrc : (revertedShards d s k k)[k]? = some s[k] := by
      rw [List.getElem?_eq_getElem (by simpa using hks), getElem_revertedShards (by simpa using hks) hks,
        if_neg (lt_irrefl k),
        if_neg (lt_irrefl k)]
    obtain ⟨hcq, hqlen, hbelow, hstop⟩ := advance_spec (mergedShards d s k) s[k].id (mergedShards d s k).length c
      (by simpa using hc) (by omega)
    rw [applyInPlaceLoop, hsrc]
    dsimp only
    generalize hq : advance (mergedShards d s k) s[k].id (mergedShards d s k).length c = q at hcq hqlen hbelow hstop
    rw [length_mergedShards] at hqlen
    by_cases hqd : q < d.length
    · have hqm : q < (mergedShards d s k).length := by simpa using hqd
      have hge : ¬d[q].id < s[k].id := by simpa [id_getElem_mergedShards k hqm hqd] using hstop hqm
      rw [List.getElem?_eq_getElem hqm]
      dsimp only
      rw [id_getElem_mergedShards k hqm hqd]
      by_cases heq : d[q].id = s[k].id
      · -- `s[k]` has its partner at `q`: one step of the loop.
        rw [if_pos heq, getElem_mergedShards_of_id_eq hs hks hqd hqm heq]
        have hmatch' : ∀ y ∈ s.take (k + 1), ∃ x ∈ d, x.id = y.id := by
          intro y hy
          rw [List.take_add_one, List.getElem?_eq_getElem hks, Option.toList_some] at hy
          rcases List.mem_append.1 hy with hy | hy
          · exact hmatch y hy
          · exact ⟨d[q], List.getElem_mem hqd, by rw [List.mem_singleton.1 hy, heq]⟩
        have hcur' : ∀ x ∈ d.take q, ∀ y ∈ s.drop (k + 1), x.id < y.id := fun x hx y hy =>
          calc x.id < d[q].id := id_lt_of_mem_take hd hqd hx
            _ = s[k].id := heq
            _ < y.id := id_lt_of_mem_drop hs hks hy
        have hsrc' : (revertedShards d s k k).set k (s[k].setValueAndClock d[q]) =
            revertedShards d s (k + 1) (k + 1) := by
          rw [revertedShards_succ_succ hks, partnerIn_eq hd hqd heq]
        have hih := ih (k + 1) q (by omega) hqd.le hcur' hmatch'
        split
        · -- `src`'s clock is the larger: swap.
          rename_i hclock
          have hdst' : (mergedShards d s k).set q (d[q].setValueAndClock s[k]) = mergedShards d s (k + 1) := by
            rw [mergedShards_succ hd hs hks hqd heq, newerByLogicalClock, if_pos hclock,
              setValueAndClock_of_id_eq heq]
          rw [swapValueAndClock_eq]
          dsimp only
          rw [hdst', hsrc']
          exact hih
        · -- `dst`'s shard stays and `src` takes its value and clock.
          rename_i hclock
          have hdst' : mergedShards d s k = mergedShards d s (k + 1) := by
            rw [mergedShards_succ hd hs hks hqd heq, newerByLogicalClock, if_neg hclock]
            conv_rhs => rw [← getElem_mergedShards_of_id_eq hs hks hqd hqm heq]
            exact (List.set_getElem_self _).symm
          rw [hsrc', hdst']
          exact hih
      · -- No partner: the walk back starts at `q`, past every handled shard's partner.
        rw [if_neg heq]
        refine .inr ⟨k, hks.le, hmatch, ?_⟩
        rw [revertLoop_spec hd hs hks.le hmatch k q le_rfl fun x hx y hy => ?_]
        calc y.id < s[k].id := id_lt_of_mem_take hs hks hy
          _ < d[q].id := lt_of_le_of_ne (not_lt.1 hge) (Ne.symm heq)
          _ < x.id := id_lt_of_mem_drop hd hqd hx
    · -- At the end of `dst` there is no partner; the walk back starts from the last shard.
      rw [List.getElem?_eq_none (by simpa using not_lt.1 hqd)]
      dsimp only
      refine .inr ⟨k, hks.le, hmatch, ?_⟩
      rw [revertLoop_spec hd hs hks.le hmatch k (q - 1) le_rfl fun x hx _ _ => ?_]
      rw [List.drop_eq_nil_of_le (by omega)] at hx
      exact absurd hx List.not_mem_nil

omit hs in
/-- After the walk back each shard of `src` agrees with the original: untouched, or holding the newer value and
clock of its pair, which merges with the partner as the original does. -/
theorem forall₂_agrees_revertedShards {m : Nat} (hmatch : ∀ y ∈ s.take m, ∃ x ∈ d, x.id = y.id) :
    List.Forall₂ (Combine.Agrees (·.id) newerByLogicalClock d) s (revertedShards d s 0 m) := by
  refine List.forall₂_iff_get.2 ⟨by simp, fun i h1 h2 => ?_⟩
  simp only [List.get_eq_getElem, getElem_revertedShards h2 h1, Nat.not_lt_zero, if_false]
  by_cases hi : i < m
  · rw [if_pos hi]
    obtain ⟨x, hx, hxid⟩ := hmatch s[i] (getElem_mem_take_of_lt hi h1)
    obtain ⟨p, hp, rfl⟩ := List.mem_iff_getElem.1 hx
    rw [partnerIn_eq hd hp hxid]
    exact ⟨rfl, .inr ⟨d[p], List.getElem_mem hp, hxid, newerByLogicalClock_setValueAndClock _ _⟩⟩
  · rw [if_neg hi]
    exact ⟨rfl, .inl rfl⟩

end Spec

open CounterShard in
theorem apply_shards_combine {ι : Type} [LinearOrder ι] (dstTs srcTs : Int64) (dst src : List (CounterShard ι))
    (hd : dst.Pairwise (·.id < ·.id)) (hs : src.Pairwise (·.id < ·.id)) :
    ∃ src', CounterCell.apply (.shards dstTs dst) (.shards srcTs src) =
      some (.shards (max dstTs srcTs) (Combine.combine lessCompareById newerByLogicalClock dst src), src') := by
  have hlt : ∀ a b : CounterShard ι, lessCompareById a b = true ↔ a.id < b.id := fun _ _ => decide_eq_true_iff
  have hspec := applyInPlaceLoop_spec hd hs src.length 0 0 (Nat.zero_add _) (Nat.zero_le _) (by simp) (by simp)
  rw [mergedShards_zero, revertedShards_zero_zero] at hspec
  simp only [CounterCell.apply, CounterCell.isLive, Bool.not_true, Bool.or_self, Bool.false_eq_true, ↓reduceIte]
  unfold applyShards applyInPlace
  dsimp only
  split_ifs with hlen
  · rcases hspec with ⟨hall, heq⟩ | ⟨m, -, hmatch, heq⟩
    · -- The fast path merged every shard of `src` into its partner.
      rw [heq]
      refine ⟨.shards dstTs (revertedShards dst src src.length src.length), ?_⟩
      rw [Combine.combine_eq_map_mergeMatched hlt hd hs hall, mergedShards, List.take_length]
    · -- The walk back restored `dst` and left in `src` shards that combine as the originals.
      rw [heq]
      dsimp only
      refine ⟨.shards dstTs dst, ?_⟩
      rw [Combine.combine_congr_right hlt hd hs (forall₂_agrees_revertedShards hd hmatch)]
  · exact ⟨_, rfl⟩

open CounterShard in
/-- `counter_cell_view::apply` on two live cells of shards sorted by strictly increasing id leaves in `dst` the
larger timestamp and the `combine` of the two original shard lists, whether `apply_in_place` succeeds, fails
part-way and walks back, or is not tried. -/
theorem apply_shards_eq_combine {ι : Type} [LinearOrder ι] (dstTs srcTs : Int64) (dst src : List (CounterShard ι))
    (hd : dst.Pairwise (·.id < ·.id)) (hs : src.Pairwise (·.id < ·.id)) :
    ∃ src', CounterCell.apply (.shards dstTs dst) (.shards srcTs src) =
      some (.shards (max dstTs srcTs) (Combine.combine lessCompareById newerByLogicalClock dst src), src') :=
  apply_shards_combine dstTs srcTs dst src hd hs

/-- Shards `1, 3, 5` merged into `1, 3, 4`: the fast path fails at `5` and walks back. -/
theorem apply_shards_eq_combine_fallback :
    (List.Pairwise (·.id < ·.id) ([⟨1, 10, 5⟩, ⟨3, 30, 2⟩, ⟨4, 40, 9⟩] : List (CounterShard Nat)) ∧
      List.Pairwise (·.id < ·.id) ([⟨1, 11, 7⟩, ⟨3, 31, 1⟩, ⟨5, 50, 1⟩] : List (CounterShard Nat))) ∧
    ∃ src', CounterCell.apply (.shards 1 [⟨1, 10, 5⟩, ⟨3, 30, 2⟩, ⟨4, 40, 9⟩])
        (.shards 2 ([⟨1, 11, 7⟩, ⟨3, 31, 1⟩, ⟨5, 50, 1⟩] : List (CounterShard Nat))) =
      some (.shards (max 1 2) (Combine.combine CounterShard.lessCompareById CounterShard.newerByLogicalClock
        [⟨1, 10, 5⟩, ⟨3, 30, 2⟩, ⟨4, 40, 9⟩] [⟨1, 11, 7⟩, ⟨3, 31, 1⟩, ⟨5, 50, 1⟩]), src') :=
  ⟨⟨by decide, by decide⟩, apply_shards_eq_combine 1 2 _ _ (by decide) (by decide)⟩

/-! ## Convergence

On the cells replicas hold the merge is a semilattice: a deletion wins against live shards, two deletions are
reconciled as atomic cells, and two cells of shards merge shard by shard, the newer logical clock winning.  A
shard's value is what every replica holds for its id and logical clock, so two shards of one id and clock are one
shard and the merge of shards is commutative.
-/

namespace CounterShard

variable {ι : Type}

theorem newerByLogicalClock_comm {v : ι → Int64 → Int64} {x y : CounterShard ι} (hk : y.id = x.id)
    (hx : x.value = v x.id x.logicalClock) (hy : y.value = v y.id y.logicalClock) :
    newerByLogicalClock x y = newerByLogicalClock y x := by
  unfold newerByLogicalClock
  rcases Std.lt_trichotomy x.logicalClock y.logicalClock with h | h | h
  · rw [if_pos h, if_neg (Int64.not_lt.2 (Int64.le_of_lt h))]
  · -- One id and one clock: the two shards hold the one value.
    have hn : ¬ x.logicalClock < y.logicalClock := h ▸ Int64.lt_irrefl
    have hn' : ¬ y.logicalClock < x.logicalClock := h ▸ Int64.lt_irrefl
    rw [if_neg hn, if_neg hn']
    obtain ⟨xi, xv, xc⟩ := x
    obtain ⟨yi, yv, yc⟩ := y
    simp only at hk h hx hy
    subst hk h
    rw [hx, hy]
  · rw [if_neg (Int64.not_lt.2 (Int64.le_of_lt h)), if_pos h]

theorem id_newerByLogicalClock' (x y : CounterShard ι) (h : y.id = x.id) :
    (newerByLogicalClock x y).id = x.id :=
  id_newerByLogicalClock h

theorem newerByLogicalClock_assoc (x y z : CounterShard ι) :
    newerByLogicalClock (newerByLogicalClock x y) z = newerByLogicalClock x (newerByLogicalClock y z) := by
  unfold newerByLogicalClock
  simp only [Int64.lt_iff_toInt_lt]
  split_ifs <;> first | rfl | omega

theorem newerByLogicalClock_self (x : CounterShard ι) : newerByLogicalClock x x = x := by
  simp [newerByLogicalClock]

theorem newerByLogicalClock_eq_or (x y : CounterShard ι) :
    newerByLogicalClock x y = x ∨ newerByLogicalClock x y = y := by
  unfold newerByLogicalClock
  split
  · exact .inr rfl
  · exact .inl rfl

end CounterShard

section Convergence

variable {ι : Type} [LinearOrder ι]

namespace CounterShard

theorem lessCompareById_iff (a b : CounterShard ι) : lessCompareById a b = true ↔ a.id < b.id := decide_eq_true_iff

end CounterShard

open CounterShard

/-- What the merge laws need of a counter cell: it is no counter update (a write's updates become shards before
they reach a replica), its shards are sorted by id, and each shard holds the value every replica holds for the
shard's id and logical clock. -/
def CounterCell.Valid (v : ι → Int64 → Int64) : CounterCell ι → Prop
  | .dead .. => True
  | .update .. => False
  | .shards _ l => KeyedList.Sorted CounterShard.id l ∧ ∀ x ∈ l, x.value = v x.id x.logicalClock

namespace CounterCell

variable {v : ι → Int64 → Int64} {c c' c'' : CounterCell ι}

/-- Two deletions are reconciled as atomic cells. -/
theorem applied_dead_dead (t d t' d' : Int64) :
    applied (dead t d : CounterCell ι) (dead t' d') =
      dead (MaxMerge.mergeBy compareAtomicCellForMerge (.dead t d) (.dead t' d')).timestamp
        (MaxMerge.mergeBy compareAtomicCellForMerge (.dead t d) (.dead t' d')).deletionTime := by
  by_cases h : compareAtomicCellForMerge (.dead t d) (.dead t' d') = .lt <;>
    simp [applied, apply, isLive, deadLt, MaxMerge.mergeBy, h]

theorem applied_dead_left (t d : Int64) (h : c.isLive = true) : applied (dead t d) c = dead t d := by
  simp [applied, apply, h]

theorem applied_dead_right (t d : Int64) (h : c.isLive = true) : applied c (dead t d) = dead t d := by
  simp [applied, apply, h]

theorem applied_shards {t t' : Int64} {l l' : List (CounterShard ι)} (hl : KeyedList.Sorted CounterShard.id l)
    (hl' : KeyedList.Sorted CounterShard.id l') :
    applied (shards t l) (shards t' l') = shards (max t t') (Combine.combine lessCompareById newerByLogicalClock l l') := by
  obtain ⟨src', h⟩ := apply_shards_combine t t' l l' hl hl'
  rw [applied, h]
  rfl

/-- The deletion two deletions are reconciled to is a deletion. -/
private theorem dead_mergeBy (t d t' d' : Int64) :
    AtomicCell.dead (MaxMerge.mergeBy compareAtomicCellForMerge (.dead t d) (.dead t' d')).timestamp
      (MaxMerge.mergeBy compareAtomicCellForMerge (.dead t d) (.dead t' d')).deletionTime =
      MaxMerge.mergeBy compareAtomicCellForMerge (.dead t d) (.dead t' d') := by
  rcases MaxMerge.mergeBy_eq_or compareAtomicCellForMerge (.dead t d) (.dead t' d') with h | h <;> rw [h] <;> rfl

private theorem sorted_combine {l l' : List (CounterShard ι)} (hl : KeyedList.Sorted CounterShard.id l)
    (hl' : KeyedList.Sorted CounterShard.id l') :
    KeyedList.Sorted CounterShard.id (Combine.combine lessCompareById newerByLogicalClock l l') :=
  Combine.sorted_combine lessCompareById_iff id_newerByLogicalClock' hl hl'

theorem Valid.applied (hc : c.Valid v) (hc' : c'.Valid v) : (c.applied c').Valid v := by
  cases c with
  | update => cases hc
  | dead t d =>
    cases c' with
    | update => cases hc'
    | dead t' d' => rw [applied_dead_dead]; trivial
    | shards t' l' => rw [applied_dead_left t d rfl]; trivial
  | shards t l =>
    cases c' with
    | update => cases hc'
    | dead t' d' => rw [applied_dead_right t' d' rfl]; trivial
    | shards t' l' =>
      rw [applied_shards hc.1 hc'.1]
      refine ⟨sorted_combine hc.1 hc'.1, fun x hx => ?_⟩
      rcases Combine.mem_combine lessCompareById_iff id_newerByLogicalClock' newerByLogicalClock_eq_or hc.1 hc'.1 hx
        with hx | hx
      · exact hc.2 x hx
      · exact hc'.2 x hx

theorem applied_comm (hc : c.Valid v) (hc' : c'.Valid v) : c.applied c' = c'.applied c := by
  cases c with
  | update => cases hc
  | dead t d =>
    cases c' with
    | update => cases hc'
    | dead t' d' =>
      rw [applied_dead_dead, applied_dead_dead,
        MaxMerge.mergeBy_comm AtomicCell.compareAtomicCellForMerge_orderedBy AtomicCell.key_injective]
    | shards t' l' => rw [applied_dead_left t d rfl, applied_dead_right t d rfl]
  | shards t l =>
    cases c' with
    | update => cases hc'
    | dead t' d' => rw [applied_dead_right t' d' rfl, applied_dead_left t' d' rfl]
    | shards t' l' =>
      rw [applied_shards hc.1 hc'.1, applied_shards hc'.1 hc.1, Int64.max_comm',
        Combine.combine_comm lessCompareById_iff id_newerByLogicalClock'
          (P := fun x : CounterShard ι => x.value = v x.id x.logicalClock) (fun x y hk hx hy => newerByLogicalClock_comm hk hx hy) hc.1 hc'.1 hc.2 hc'.2]

theorem applied_self (hc : c.Valid v) : c.applied c = c := by
  cases c with
  | update => cases hc
  | dead t d =>
    rw [applied_dead_dead, MaxMerge.mergeBy_self AtomicCell.compareAtomicCellForMerge_orderedBy]
    rfl
  | shards t l =>
    rw [applied_shards hc.1 hc.1, Int64.max_self',
      Combine.combine_self lessCompareById_iff id_newerByLogicalClock' newerByLogicalClock_self hc.1]

@[simp] theorem isLive_applied_shards {t t' : Int64} {l l' : List (CounterShard ι)}
    (hl : KeyedList.Sorted CounterShard.id l) (hl' : KeyedList.Sorted CounterShard.id l') :
    (applied (shards t l) (shards t' l')).isLive = true := by
  rw [applied_shards hl hl']
  rfl

theorem applied_assoc (hc : c.Valid v) (hc' : c'.Valid v) (hc'' : c''.Valid v) :
    (c.applied c').applied c'' = c.applied (c'.applied c'') := by
  -- A deletion wins against shards, so every grouping with a deletion reduces to the deletions alone.
  cases c with
  | update => cases hc
  | dead t d =>
    cases c' with
    | update => cases hc'
    | dead t' d' =>
      cases c'' with
      | update => cases hc''
      | dead t'' d'' =>
        rw [applied_dead_dead t d t' d', applied_dead_dead, dead_mergeBy, applied_dead_dead t' d' t'' d'',
          applied_dead_dead, dead_mergeBy,
          MaxMerge.mergeBy_assoc AtomicCell.compareAtomicCellForMerge_orderedBy AtomicCell.key_injective]
      | shards t'' l'' =>
        rw [applied_dead_left t' d' (c := shards t'' l'') rfl, applied_dead_dead t d t' d',
          applied_dead_left _ _ (c := shards t'' l'') rfl]
    | shards t' l' =>
      cases c'' with
      | update => cases hc''
      | dead t'' d'' =>
        rw [applied_dead_left t d (c := shards t' l') rfl, applied_dead_right t'' d'' (c := shards t' l') rfl]
      | shards t'' l'' =>
        rw [applied_dead_left t d (c := shards t' l') rfl, applied_dead_left t d (c := shards t'' l'') rfl,
          applied_dead_left t d (isLive_applied_shards hc'.1 hc''.1)]
  | shards t l =>
    cases c' with
    | update => cases hc'
    | dead t' d' =>
      cases c'' with
      | update => cases hc''
      | dead t'' d'' =>
        rw [applied_dead_right t' d' (c := shards t l) rfl, applied_dead_dead t' d' t'' d'',
          applied_dead_right _ _ (c := shards t l) rfl]
      | shards t'' l'' =>
        rw [applied_dead_right t' d' (c := shards t l) rfl, applied_dead_left t' d' (c := shards t'' l'') rfl,
          applied_dead_right t' d' (c := shards t l) rfl]
    | shards t' l' =>
      cases c'' with
      | update => cases hc''
      | dead t'' d'' =>
        rw [applied_dead_right t'' d'' (isLive_applied_shards hc.1 hc'.1),
          applied_dead_right t'' d'' (c := shards t' l') rfl, applied_dead_right t'' d'' (c := shards t l) rfl]
      | shards t'' l'' =>
        rw [applied_shards hc.1 hc'.1, applied_shards (sorted_combine hc.1 hc'.1) hc''.1, applied_shards hc'.1 hc''.1,
          applied_shards hc.1 (sorted_combine hc'.1 hc''.1), Int64.max_assoc',
          Combine.combine_assoc lessCompareById_iff id_newerByLogicalClock' newerByLogicalClock_assoc hc.1 hc'.1 hc''.1]

end CounterCell

end Convergence

end Scylla
