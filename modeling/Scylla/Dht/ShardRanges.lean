import Mathlib
import Scylla.Lib.ScaledFloor
import Scylla.Dht.Sharder

/-!
# The shard ranges of the static sharder

On the ring positions `0 … 2^64` of the legal tokens (`tokenAt`), a static sharder with `m` ignored
bits repeats one pattern in each of `2^m` rounds of width `W = 2^(64-m)`: shard `s` owns the positions
whose offset in the round lies in `[firstAt N W s, firstAt N W (s + 1))` (`shardOf_eq`).  So a range of
shard `s` starts exactly at the offset `firstAt N W s` of a round (`isShardStart_iff`), and the
functions of the sharder are read off that pattern:

* `initZeroBasedShardStart_eq`: the loop of init_zero_based_shard_start finds `firstAt N W s`;
* `tokenForNextShard_eq`: token_for_next_shard lands in the round `spans` starts after `t`;
* `tokenForNextShard_spec`: that is the `spans`-th start of the shard after `t`, or the maximum token;
* `nextShard_spec`: next_shard finds the first token after `t` with another owner.

The counting of starts below a position is `Nat.count` over positions, through Mathlib's count of a
residue class (`Nat.count_modEq_card`).
-/

namespace Scylla.Dht

open ScaledFloor

/-- Position `j` starts a range of shard `s`: the token there is the shard's and the one before it is not. -/
def IsShardStart (owner : Nat → Nat) (s j : Nat) : Prop := 0 < j ∧ owner j = s ∧ owner (j - 1) ≠ s

instance (owner : Nat → Nat) (s : Nat) : DecidablePred (IsShardStart owner s) :=
  fun _ => inferInstanceAs (Decidable (_ ∧ _ ∧ _))

private theorem mapM_eq_some_map {α β : Type} {f : α → Option β} {g : α → β} :
    ∀ {l : List α}, (∀ x ∈ l, f x = some (g x)) → l.mapM f = some (l.map g)
  | [], _ => rfl
  | x :: l, h => by
    rw [List.mapM_cons, h x (List.mem_cons_self ..),
      mapM_eq_some_map (fun y hy => h y (List.mem_cons_of_mem x hy))]
    rfl

/-- The positions below `x` at offset `c` of a round of width `W`, from Mathlib's count of a residue class. -/
private theorem count_mod_eq {W c : Nat} (hW : 0 < W) (hc : c < W) (x : Nat) :
    Nat.count (fun j => j % W = c) x = x / W + if c < x % W then 1 else 0 := by
  have h := Nat.count_modEq_card x hW c
  simp only [Nat.ModEq, Nat.mod_eq_of_lt hc] at h
  exact h

private theorem count_mod_eq_succ {W c : Nat} (hW : 0 < W) (hc : c < W) (i : Nat) :
    Nat.count (fun j => j % W = c) (i + 1) = i / W + if c ≤ i % W then 1 else 0 := by
  rw [Nat.count_succ, count_mod_eq hW hc]
  by_cases hlt : c < i % W
  · rw [if_pos hlt, if_pos (Nat.le_of_lt hlt), if_neg (Nat.ne_of_gt hlt)]
  · rw [if_neg hlt]
    by_cases heq : i % W = c
    · rw [if_pos heq, if_pos (Nat.le_of_eq heq.symm)]
    · rw [if_neg heq, if_neg (by omega)]

/-- A later position before the end of the round of `i` has a larger offset in that round. -/
private theorem mod_lt_mod_of_same_round {W i k : Nat} (hik : i < k) (hk : k < (i / W + 1) * W) :
    k / W = i / W ∧ i % W < k % W := by
  have hdiv : k / W = i / W :=
    Nat.le_antisymm (Nat.lt_succ_iff.1 (Nat.div_lt_of_lt_mul (by rw [Nat.mul_comm]; exact hk)))
      (Nat.div_le_div_right (Nat.le_of_lt hik))
  have h1 := Nat.div_add_mod k W
  have h2 := Nat.div_add_mod i W
  rw [hdiv] at h1
  refine ⟨hdiv, ?_⟩
  generalize i / W = q at h1 h2
  omega

/-- The offset in its round of the position before `j`. -/
private theorem sub_one_mod {j W : Nat} (h0 : 0 < j) (hW : 0 < W) :
    (j - 1) % W = if j % W = 0 then W - 1 else j % W - 1 := by
  obtain ⟨q, r, hr, rfl⟩ : ∃ q r, r < W ∧ j = W * q + r := ⟨j / W, j % W, Nat.mod_lt j hW, (Nat.div_add_mod j W).symm⟩
  rw [Nat.mul_add_mod, Nat.mod_eq_of_lt hr]
  split
  · -- At the start of a round, the position before is the last of the round before.
    subst r
    obtain ⟨q, rfl⟩ : ∃ q', q = q' + 1 := by
      rcases Nat.eq_zero_or_pos q with rfl | hq
      · simp at h0
      · exact ⟨q - 1, by omega⟩
    rw [show W * (q + 1) + 0 - 1 = W * q + (W - 1) by rw [Nat.mul_succ]; omega, Nat.mul_add_mod,
      Nat.mod_eq_of_lt (Nat.sub_lt hW Nat.one_pos)]
  · rw [show W * q + r - 1 = W * q + (r - 1) by omega, Nat.mul_add_mod, Nat.mod_eq_of_lt (by omega)]

/-- zero_based_shard_of is the part of the token's offset in its round of width `2^(64-m)`. -/
theorem zeroBasedShardOf_eq (n : UInt64) (N m : UInt32) (hm : m.toNat < 64) :
    zeroBasedShardOf n N m = part N.toNat (2 ^ (64 - m.toNat)) (n.toNat % 2 ^ (64 - m.toNat)) := by
  have hsplit : 2 ^ 64 = 2 ^ (64 - m.toNat) * 2 ^ m.toNat := by
    rw [← Nat.pow_add, Nat.sub_add_cancel (Nat.le_of_lt hm)]
  have hshift : (n <<< m.toUInt64).toNat = n.toNat % 2 ^ (64 - m.toNat) * 2 ^ m.toNat := by
    rw [UInt64.toNat_shiftLeft, UInt32.toNat_toUInt64, Nat.mod_eq_of_lt hm, Nat.shiftLeft_eq, hsplit,
      Nat.mul_mod_mul_right]
  rw [zeroBasedShardOf, hshift, part, hsplit, Nat.mul_right_comm, Nat.mul_div_mul_right _ _ (Nat.two_pow_pos _)]

section Init

variable {N m : UInt32}

/-- The stepping loop ends at the first token of the shard, from any token no later than it. -/
theorem advanceToShard_eq {s c : Nat} (hc : c < 2 ^ 64) (hcs : zeroBasedShardOf c.toUInt64 N m = s) :
    ∀ {fuel : Nat} {token : UInt64}, token.toNat ≤ c → c - token.toNat < fuel →
      (∀ v, token.toNat ≤ v → v < c → zeroBasedShardOf v.toUInt64 N m ≠ s) →
      advanceToShard N m s fuel token = some c.toUInt64
  | 0, _, _, hfuel, _ => absurd hfuel (Nat.not_lt_zero _)
  | fuel + 1, token, hle, hfuel, hne => by
    rw [advanceToShard]
    by_cases heq : token.toNat = c
    · have htok : token = c.toUInt64 := by
        rw [← heq]
        exact UInt64.ofNat_toNat.symm
      subst htok
      rw [if_neg (not_not.2 hcs)]
    · -- Below the first token of the shard, the loop steps on.
      have hlt : token.toNat < c := Nat.lt_of_le_of_ne hle heq
      have hsucc : (token + 1).toNat = token.toNat + 1 := by
        rw [UInt64.toNat_add, UInt64.toNat_one, Nat.mod_eq_of_lt (by omega)]
      have hne' : zeroBasedShardOf token N m ≠ s := by
        have h := hne token.toNat le_rfl hlt
        rwa [show token.toNat.toUInt64 = token from UInt64.ofNat_toNat] at h
      rw [if_pos hne']
      exact advanceToShard_eq hc hcs (by omega) (by omega) fun v hv hvc => hne v (by omega) hvc

/-- init_zero_based_shard_start returns, for each shard, the first offset of the shard in a round. -/
theorem initZeroBasedShardStart_eq (hN : 0 < N.toNat) (hm : m.toNat < 32) :
    initZeroBasedShardStart N m =
      some ((List.range N.toNat).map fun s => (firstAt N.toNat (2 ^ (64 - m.toNat)) s).toUInt64) := by
  have hW : N.toNat ≤ 2 ^ (64 - m.toNat) :=
    calc N.toNat ≤ 2 ^ 32 := Nat.le_of_lt N.toNat_lt
      _ ≤ 2 ^ (64 - m.toNat) := Nat.pow_le_pow_right (by decide) (by omega)
  have hW64 : 2 ^ (64 - m.toNat) ≤ 2 ^ 64 := Nat.pow_le_pow_right (by decide) (by omega)
  have hzbs : ∀ v, v < 2 ^ (64 - m.toNat) → zeroBasedShardOf v.toUInt64 N m = part N.toNat (2 ^ (64 - m.toNat)) v :=
    fun v hv => by
      rw [zeroBasedShardOf_eq _ _ _ (by omega), UInt64.toNat_ofNat_of_lt' (show v < 2 ^ 64 by omega),
        Nat.mod_eq_of_lt hv]
  unfold initZeroBasedShardStart
  split
  · -- One shard owns every offset from 0.
    rename_i h1
    subst h1
    simp
  · apply mapM_eq_some_map
    intro s hs
    rw [List.mem_range] at hs
    have hc := firstAt_lt_width hs hW
    -- The rounded quotient is the floor of `s * W / N`, at most one below its ceiling.
    have htoken : ((s * 2 ^ 64 / N.toNat).toUInt64 >>> m.toUInt64).toNat = s * 2 ^ (64 - m.toNat) / N.toNat := by
      have hq : s * 2 ^ 64 / N.toNat < 2 ^ 64 :=
        Nat.div_lt_of_lt_mul (Nat.mul_lt_mul_of_pos_right hs (Nat.two_pow_pos 64))
      rw [UInt64.toNat_shiftRight, UInt64.toNat_ofNat_of_lt' hq, UInt32.toNat_toUInt64,
        Nat.mod_eq_of_lt (by omega : m.toNat < 64), Nat.shiftRight_eq_div_pow, Nat.div_div_eq_div_mul,
        show 2 ^ 64 = 2 ^ (64 - m.toNat) * 2 ^ m.toNat by rw [← Nat.pow_add]; congr 1; omega,
        ← Nat.mul_assoc, Nat.mul_div_mul_right _ _ (Nat.two_pow_pos _)]
    exact advanceToShard_eq (by omega) (by rw [hzbs _ hc]; exact part_firstAt (by omega) hW)
      (by rw [htoken]; exact div_le_firstAt (by omega))
      (by rw [htoken]; have := firstAt_le_div_succ (w := 2 ^ (64 - m.toNat)) (s := s) (by omega : 0 < N.toNat); omega)
      (fun v hv hvc => by
        rw [hzbs _ (by omega)]
        exact Nat.ne_of_lt ((part_lt_iff (by omega) (by omega)).2 hvc))

/-- Each entry of init_zero_based_shard_start is the least offset of a round that its shard owns. -/
theorem initZeroBasedShardStart_least (hN : 0 < N.toNat) (hm : m.toNat < 32) :
    ∃ st, initZeroBasedShardStart N m = some st ∧ st.length = N.toNat ∧ ∀ s < N.toNat,
      IsLeast {v : UInt64 | v.toNat < 2 ^ (64 - m.toNat) ∧ zeroBasedShardOf v N m = s} (st.getD s 0) := by
  have hW : N.toNat ≤ 2 ^ (64 - m.toNat) :=
    calc N.toNat ≤ 2 ^ 32 := Nat.le_of_lt N.toNat_lt
      _ ≤ 2 ^ (64 - m.toNat) := Nat.pow_le_pow_right (by decide) (by omega)
  have hW64 : 2 ^ (64 - m.toNat) ≤ 2 ^ 64 := Nat.pow_le_pow_right (by decide) (by omega)
  have hw : 0 < 2 ^ (64 - m.toNat) := Nat.two_pow_pos _
  refine ⟨_, initZeroBasedShardStart_eq hN hm, by simp, fun s hs => ?_⟩
  have hc := firstAt_lt_width hs hW
  have hget : ((List.range N.toNat).map fun s => (firstAt N.toNat (2 ^ (64 - m.toNat)) s).toUInt64).getD s 0 =
      (firstAt N.toNat (2 ^ (64 - m.toNat)) s).toUInt64 := by
    rw [List.getD_eq_getElem?_getD, List.getElem?_map, List.getElem?_range hs]
    rfl
  have htoNat : (firstAt N.toNat (2 ^ (64 - m.toNat)) s).toUInt64.toNat = firstAt N.toNat (2 ^ (64 - m.toNat)) s :=
    UInt64.toNat_ofNat_of_lt' (show firstAt N.toNat (2 ^ (64 - m.toNat)) s < 2 ^ 64 by omega)
  rw [hget]
  refine ⟨⟨by rw [htoNat]; exact hc, ?_⟩, fun v ⟨hv, hvs⟩ => ?_⟩
  · rw [zeroBasedShardOf_eq _ _ _ (by omega), htoNat, Nat.mod_eq_of_lt hc]
    exact part_firstAt hN hW
  · -- An offset the shard owns is not below the shard's first one.
    rw [zeroBasedShardOf_eq _ _ _ (by omega), Nat.mod_eq_of_lt hv] at hvs
    rw [UInt64.le_iff_toNat_le, htoNat]
    exact (le_part_iff hN hw).1 (Nat.le_of_eq hvs.symm)

end Init

namespace StaticSharder

/-- The width of a round: the values the low bits take. -/
def width (sh : StaticSharder) : Nat := 2 ^ (64 - sh.shardingIgnoreMsbBits.toNat)

/-- The number of rounds. -/
def rounds (sh : StaticSharder) : Nat := 2 ^ sh.shardingIgnoreMsbBits.toNat

/-- The offset in each round where shard `s` starts. -/
def startOffset (sh : StaticSharder) (s : Nat) : Nat := firstAt sh.shardCount.toNat sh.width s

/-- The owner of ring position `j`. -/
def owner (sh : StaticSharder) (j : Nat) : Nat := sh.shardOf (tokenAt j)

/-- The round of the `spans`-th start of shard `s` after position `i`: the current round counts when the
shard's start in it is still ahead. -/
def targetRound (sh : StaticSharder) (i s : Nat) (spans : UInt32) : Nat :=
  i / sh.width + spans.toNat - if i % sh.width < sh.startOffset s then 1 else 0

/-- A sharder as the constructor of static_sharder builds it. -/
structure Valid (sh : StaticSharder) : Prop where
  count_pos : 0 < sh.shardCount.toNat
  msb_lt : sh.shardingIgnoreMsbBits.toNat < 32
  msb_of_single : sh.shardCount.toNat = 1 → sh.shardingIgnoreMsbBits.toNat = 0
  shardStart_eq : sh.shardStart = (List.range sh.shardCount.toNat).map fun s => (sh.startOffset s).toUInt64

/-- The constructor terminates for every shard count and fewer than 32 ignored bits. -/
theorem new_eq {N m : UInt32} (hN : 0 < N.toNat) (hm : m.toNat < 32) :
    ∃ sh, StaticSharder.new N m = some sh ∧ sh.Valid ∧ sh.shardCount = N ∧
      sh.shardingIgnoreMsbBits = if N > 1 then m else 0 := by
  have hm' : (if N > 1 then m else 0).toNat < 32 := by split <;> simp_all
  refine ⟨⟨N, if N > 1 then m else 0, (List.range N.toNat).map fun s =>
    (firstAt N.toNat (2 ^ (64 - (if N > 1 then m else 0).toNat)) s).toUInt64⟩, ?_, ⟨hN, hm', fun h1 => ?_, rfl⟩,
    rfl, rfl⟩
  · rw [new, initZeroBasedShardStart_eq hN hm']
    rfl
  · have : ¬ N > 1 := by rw [gt_iff_lt, UInt32.lt_iff_toNat_lt]; simp [h1]
    simp [this]

variable {sh : StaticSharder}

theorem width_pos : 0 < sh.width := Nat.two_pow_pos _

/-- After all keys, next_shard finds nothing. -/
theorem nextShard_of_le {t : Token} (hi : 2 ^ 64 ≤ t.index) : sh.nextShard t = none := by
  obtain ⟨kind, d⟩ := t
  cases kind with
  | afterAllKeys => simp [nextShard, tokenForNextShard, Dht.tokenForNextShard, Token.maximum, Token.isMaximum]
  | beforeAllKeys => simp [Token.index] at hi
  | key => exact absurd hi (Nat.not_le.2 (Token.unbias ⟨.key, d⟩).toNat_lt)

namespace Valid

variable (hv : sh.Valid)
include hv

theorem count_le_width : sh.shardCount.toNat ≤ sh.width :=
  calc sh.shardCount.toNat ≤ 2 ^ 32 := Nat.le_of_lt sh.shardCount.toNat_lt
    _ ≤ sh.width := Nat.pow_le_pow_right (by decide) (by have := hv.msb_lt; omega)

theorem rounds_mul_width : sh.rounds * sh.width = 2 ^ 64 := by
  rw [rounds, width, ← Nat.pow_add]
  congr 1
  have := hv.msb_lt
  omega

theorem width_dvd : 2 ^ 64 % sh.width = 0 := by
  rw [← hv.rounds_mul_width, Nat.mul_mod_left]

theorem startOffset_lt_width {s : Nat} (hs : s < sh.shardCount.toNat) : sh.startOffset s < sh.width :=
  firstAt_lt_width hs hv.count_le_width

theorem toNat_getD_shardStart {s : Nat} (hs : s < sh.shardCount.toNat) :
    (sh.shardStart.getD s 0).toNat = sh.startOffset s := by
  have hlt : sh.startOffset s < 2 ^ 64 :=
    Nat.lt_of_lt_of_le (hv.startOffset_lt_width hs) (by rw [← hv.rounds_mul_width]; exact Nat.le_mul_of_pos_left _ (Nat.two_pow_pos _))
  rw [hv.shardStart_eq, List.getD_eq_getElem?_getD, List.getElem?_map, List.getElem?_range hs]
  exact UInt64.toNat_ofNat_of_lt' hlt

/-- The owner of a token: the part of its offset in its round, and the last shard after all keys. -/
theorem shardOf_eq (t : Token) :
    sh.shardOf t = if t.index < 2 ^ 64 then part sh.shardCount.toNat sh.width (t.index % sh.width)
      else sh.shardCount.toNat - 1 := by
  obtain ⟨kind, d⟩ := t
  cases kind with
  | beforeAllKeys => simp [shardOf, Dht.shardOf, Token.index, Token.shardOfMinimumToken]
  | key =>
    have hidx : Token.index ⟨.key, d⟩ = (Token.unbias ⟨.key, d⟩).toNat := rfl
    rw [hidx, if_pos (Token.unbias ⟨.key, d⟩).toNat_lt]
    exact zeroBasedShardOf_eq _ _ _ (by have := hv.msb_lt; omega)
  | afterAllKeys =>
    simp only [shardOf, Dht.shardOf, Token.index, Nat.lt_irrefl, if_false]
    rw [UInt32.toNat_sub_of_le _ _ (by rw [UInt32.le_iff_toNat_le]; exact hv.count_pos)]
    rfl

theorem owner_eq {j : Nat} (hj : j < 2 ^ 64) :
    sh.owner j = part sh.shardCount.toNat sh.width (j % sh.width) := by
  rw [owner, hv.shardOf_eq, index_tokenAt (Nat.le_of_lt hj), if_pos hj]

theorem owner_of_le {j : Nat} (hj : 2 ^ 64 ≤ j) : sh.owner j = sh.shardCount.toNat - 1 := by
  rw [owner, tokenAt_of_le hj, hv.shardOf_eq]
  simp [Token.index, Token.maximum]

/-- Every token has the owner of its position. -/
theorem shardOf_eq_owner (t : Token) : sh.shardOf t = sh.owner t.index := by
  have hle : t.index ≤ 2 ^ 64 := by
    obtain ⟨kind, d⟩ := t
    cases kind <;> simp [Token.index, Nat.le_of_lt (Token.unbias ⟨.key, d⟩).toNat_lt]
  rw [owner, hv.shardOf_eq, hv.shardOf_eq, index_tokenAt hle]

/-- The last key is the last shard's. -/
theorem owner_last : sh.owner (2 ^ 64 - 1) = sh.shardCount.toNat - 1 := by
  rw [hv.owner_eq (by decide), sub_one_mod (by decide) width_pos, if_pos hv.width_dvd,
    part_width_pred hv.count_pos hv.count_le_width]

/-- Ranges of shard `s` start exactly at the offset `startOffset s` of a round, the first position apart. -/
theorem isShardStart_iff {s j : Nat} (hs : s < sh.shardCount.toNat) :
    IsShardStart sh.owner s j ↔ 0 < j ∧ j < 2 ^ 64 ∧ j % sh.width = sh.startOffset s := by
  have hn := hv.count_pos
  have hw : 0 < sh.width := width_pos
  constructor
  · rintro ⟨h0, hown, hprev⟩
    -- After all keys the owner stays the last shard, so no range starts there.
    have hj : j < 2 ^ 64 := by
      refine Nat.lt_of_not_le fun hge => hprev ?_
      rw [← hown, hv.owner_of_le hge]
      rcases Nat.lt_or_ge (j - 1) (2 ^ 64) with h | h
      · rw [show j - 1 = 2 ^ 64 - 1 by omega, hv.owner_last]
      · exact hv.owner_of_le h
    refine ⟨h0, hj, ?_⟩
    rw [hv.owner_eq hj] at hown
    rw [hv.owner_eq (by omega), sub_one_mod h0 hw] at hprev
    split at hprev
    · -- A round's first position starts shard 0.
      rename_i hmod
      rw [hmod, part_zero] at hown
      subst hown
      rw [hmod, startOffset, firstAt_zero]
    · -- Elsewhere the owner rises at the position, which is the first of its part.
      rename_i hmod
      have hmono := part_mono (n := sh.shardCount.toNat) (w := sh.width) (Nat.sub_le (j % sh.width) 1)
      have hlt : part sh.shardCount.toNat sh.width (j % sh.width - 1) < s := by omega
      rw [part_lt_iff hn hw] at hlt
      have hge := (le_part_iff hn hw).1 (Nat.le_of_eq hown.symm)
      rw [startOffset]
      omega
  · rintro ⟨h0, hj, hmod⟩
    refine ⟨h0, by rw [hv.owner_eq hj, hmod, startOffset, part_firstAt hn hv.count_le_width], ?_⟩
    rw [hv.owner_eq (by omega), sub_one_mod h0 hw]
    split
    · -- Only shard 0 starts at offset 0, and the round before ends in the last shard, not shard 0.
      rename_i hmod0
      have hs0 : s = 0 := by
        by_contra hs0
        have := firstAt_pos (Nat.pos_of_ne_zero hs0) hw hn
        rw [← startOffset, ← hmod, hmod0] at this
        exact Nat.lt_irrefl 0 this
      have hN : 1 < sh.shardCount.toNat := by
        by_contra h1
        have hm0 := hv.msb_of_single (by omega)
        rw [width, hm0, Nat.sub_zero, Nat.mod_eq_of_lt hj] at hmod0
        omega
      rw [part_width_pred hn hv.count_le_width, hs0]
      omega
    · rename_i hmod0
      have hlt : j % sh.width - 1 < firstAt sh.shardCount.toNat sh.width s := by
        rw [← startOffset, ← hmod]
        omega
      exact Nat.ne_of_lt ((part_lt_iff hn hw).2 hlt)

/-- token_for_next_shard from the unbiased token `n`: the shard's start in the target round, or the
maximum token past the last round. -/
theorem tokenForNextShardFrom_eq (n : UInt64) {s : Nat} (hs : s < sh.shardCount.toNat) {spans : UInt32}
    (hsp : 0 < spans) :
    tokenForNextShardFrom sh.shardStart sh.shardCount sh.shardingIgnoreMsbBits n s spans =
      if sh.rounds ≤ sh.targetRound n.toNat s spans then Token.maximum
      else tokenAt (sh.targetRound n.toNat s spans * sh.width + sh.startOffset s) := by
  have hn := hv.count_pos
  have hw : 0 < sh.width := width_pos
  have hm := hv.msb_lt
  have hc := hv.startOffset_lt_width hs
  have hsp' : 1 ≤ spans.toNat := by rwa [UInt32.lt_iff_toNat_lt] at hsp
  have hround : n.toNat / sh.width < sh.rounds :=
    Nat.div_lt_of_lt_mul (by rw [Nat.mul_comm, hv.rounds_mul_width]; exact n.toNat_lt)
  -- The shard of `n` is below `s` exactly when `n` is before the shard's start in its round.
  have hbelow : zeroBasedShardOf n sh.shardCount sh.shardingIgnoreMsbBits < s ↔
      n.toNat % sh.width < sh.startOffset s := by
    rw [zeroBasedShardOf_eq _ _ _ (by omega)]
    exact part_lt_iff hn hw
  -- The word built is a legal key: a start at offset 0 is only reached in a later round.
  have hkey : ∀ x : UInt64, x.toNat = sh.targetRound n.toNat s spans * sh.width + sh.startOffset s →
      Token.bias x = tokenAt (sh.targetRound n.toNat s spans * sh.width + sh.startOffset s) := by
    intro x hx
    rw [← hx]
    refine bias_eq_tokenAt (hx ▸ ?_)
    rcases Nat.eq_zero_or_pos (sh.startOffset s) with h0 | h0
    · have : ¬ n.toNat % sh.width < sh.startOffset s := by omega
      have hL : 0 < sh.targetRound n.toNat s spans := by
        rw [targetRound, if_neg this, Nat.sub_zero]
        exact Nat.lt_of_lt_of_le hsp' (Nat.le_add_left _ _)
      rw [h0, Nat.add_zero]
      exact Nat.mul_pos hL hw
    · omega
  unfold tokenForNextShardFrom
  by_cases hm0 : sh.shardingIgnoreMsbBits = 0
  · -- Without ignored bits there is one round, and only its own start of the shard can come next.
    have hm0' : sh.shardingIgnoreMsbBits.toNat = 0 := by rw [hm0]; rfl
    have hR : sh.rounds = 1 := by rw [rounds, hm0']; rfl
    have hW : sh.width = 2 ^ 64 := by rw [width, hm0']
    have hdiv : n.toNat / sh.width = 0 := by rw [hW]; exact Nat.div_eq_of_lt n.toNat_lt
    rw [if_pos hm0, hR]
    by_cases hlt : n.toNat % sh.width < sh.startOffset s
    · have hcode : spans > 1 ∨ s ≤ zeroBasedShardOf n sh.shardCount sh.shardingIgnoreMsbBits ↔ 1 < spans.toNat := by
        rw [gt_iff_lt, UInt32.lt_iff_toNat_lt, ← Nat.not_lt, hbelow]
        simp [hlt]
      have htarget : sh.targetRound n.toNat s spans = spans.toNat - 1 := by
        rw [targetRound, if_pos hlt, hdiv, Nat.zero_add]
      by_cases h1 : 1 < spans.toNat
      · rw [if_pos (hcode.2 h1), if_pos (by omega)]
      · rw [if_neg (fun h => h1 (hcode.1 h)), if_neg (by omega)]
        exact hkey _ (by rw [hv.toNat_getD_shardStart hs, htarget, show spans.toNat - 1 = 0 by omega, Nat.zero_mul,
          Nat.zero_add])
    · have hle : s ≤ zeroBasedShardOf n sh.shardCount sh.shardingIgnoreMsbBits := Nat.not_lt.1 (fun h => hlt (hbelow.1 h))
      rw [if_pos (Or.inr hle), if_pos (by rw [targetRound, if_neg hlt]; omega)]
  · -- With ignored bits the round is the high word and the start the low word of the result.
    have hmpos : 0 < sh.shardingIgnoreMsbBits.toNat :=
      Nat.pos_of_ne_zero fun h => hm0 (UInt32.toNat_inj.1 (by rw [h]; rfl))
    have hk : ((64 : UInt32) - sh.shardingIgnoreMsbBits).toUInt64.toNat % 64 = 64 - sh.shardingIgnoreMsbBits.toNat := by
      rw [UInt32.toNat_toUInt64, UInt32.toNat_sub_of_le _ _ (by rw [UInt32.le_iff_toNat_le]; simp; omega)]
      simp only [UInt32.reduceToNat]
      omega
    have hb : (spans - if zeroBasedShardOf n sh.shardCount sh.shardingIgnoreMsbBits < s then 1 else 0).toNat =
        spans.toNat - if n.toNat % sh.width < sh.startOffset s then 1 else 0 := by
      by_cases hlt : n.toNat % sh.width < sh.startOffset s
      · rw [if_pos (hbelow.2 hlt), if_pos hlt, UInt32.toNat_sub_of_le _ _ (by rw [UInt32.le_iff_toNat_le]; simpa using hsp')]
        rfl
      · rw [if_neg (fun h => hlt (hbelow.1 h)), if_neg hlt]
        simp
    have hleft : (n >>> ((64 : UInt32) - sh.shardingIgnoreMsbBits).toUInt64 +
        (spans - if zeroBasedShardOf n sh.shardCount sh.shardingIgnoreMsbBits < s then 1 else 0).toUInt64).toNat =
        sh.targetRound n.toNat s spans := by
      have hspans := spans.toNat_lt
      have hR : sh.rounds ≤ 2 ^ 31 := Nat.pow_le_pow_right (by decide) (by omega)
      rw [UInt64.toNat_add, UInt64.toNat_shiftRight, hk, Nat.shiftRight_eq_div_pow, UInt32.toNat_toUInt64, hb,
        ← width, targetRound, Nat.mod_eq_of_lt (by omega)]
      have hle : (if n.toNat % sh.width < sh.startOffset s then 1 else 0) ≤ spans.toNat := by
        split <;> omega
      exact (Nat.add_sub_assoc hle _).symm
    have hone : ((1 : UInt32) <<< sh.shardingIgnoreMsbBits).toUInt64.toNat = sh.rounds := by
      rw [UInt32.toNat_toUInt64, UInt32.toNat_shiftLeft, UInt32.toNat_one, Nat.shiftLeft_eq, Nat.one_mul,
        Nat.mod_eq_of_lt hm, rounds]
      exact Nat.mod_eq_of_lt (Nat.pow_lt_pow_right (by decide) hm)
    rw [if_neg hm0]
    simp only [UInt64.le_iff_toNat_le, hone, hleft]
    split
    · rfl
    · rename_i hlt
      apply hkey
      have hlow : (sh.targetRound n.toNat s spans * sh.width) < 2 ^ 64 := by
        rw [← hv.rounds_mul_width]
        exact Nat.mul_lt_mul_of_pos_right (Nat.lt_of_not_le hlt) hw
      rw [UInt64.toNat_or, UInt64.toNat_shiftLeft, hk, hleft, hv.toNat_getD_shardStart hs, Nat.shiftLeft_eq, ← width,
        Nat.mod_eq_of_lt hlow, Nat.mul_comm, width, ← Nat.two_pow_add_eq_or_of_lt (by rw [← width]; exact hc)]

/-- token_for_next_shard of any token: the maximum token after all keys and past the last round. -/
theorem tokenForNextShard_eq (t : Token) {s : Nat} (hs : s < sh.shardCount.toNat) {spans : UInt32}
    (hsp : 0 < spans) :
    sh.tokenForNextShard t s spans =
      if 2 ^ 64 ≤ t.index ∨ sh.rounds ≤ sh.targetRound t.index s spans then Token.maximum
      else tokenAt (sh.targetRound t.index s spans * sh.width + sh.startOffset s) := by
  obtain ⟨kind, d⟩ := t
  cases kind with
  | beforeAllKeys =>
    have h := hv.tokenForNextShardFrom_eq 0 hs hsp
    rw [UInt64.toNat_zero] at h
    exact h.trans (by simp [Token.index])
  | key =>
    have hidx : Token.index ⟨.key, d⟩ = (Token.unbias ⟨.key, d⟩).toNat := rfl
    rw [hidx, if_congr (or_iff_right (Nat.not_le.2 (Token.unbias ⟨.key, d⟩).toNat_lt)) rfl rfl]
    exact hv.tokenForNextShardFrom_eq _ hs hsp
  | afterAllKeys => simp [tokenForNextShard, Dht.tokenForNextShard, Token.index]

/-- Below a position up to 2^64, the shard's starts are the positions at its offset, but position 0. -/
theorem count_isShardStart_add {s : Nat} (hs : s < sh.shardCount.toNat) {x : Nat} (hx : x ≤ 2 ^ 64) :
    Nat.count (IsShardStart sh.owner s) x + (if sh.startOffset s = 0 ∧ 0 < x then 1 else 0) =
      Nat.count (fun j => j % sh.width = sh.startOffset s) x := by
  induction x with
  | zero => simp
  | succ x ih =>
    have ih := ih (by omega)
    have hiff := hv.isShardStart_iff (j := x) hs
    rw [Nat.count_succ, Nat.count_succ, ← ih]
    rcases Nat.eq_zero_or_pos x with rfl | hx0
    · have : ¬ IsShardStart sh.owner s 0 := fun h => Nat.lt_irrefl 0 h.1
      by_cases h0 : sh.startOffset s = 0
      · simp [this, h0]
      · simp [this, h0, Ne.symm h0]
    · by_cases hm : x % sh.width = sh.startOffset s
      · rw [if_pos (hiff.2 ⟨hx0, by omega, hm⟩), if_pos hm]
        simp only [hx0, Nat.succ_pos, and_true]
        omega
      · rw [if_neg (fun h => hm (hiff.1 h).2.2), if_neg hm]
        simp only [hx0, Nat.succ_pos, and_true]
        omega

/-- Each round holds one start of the shard, but the first when the shard starts at offset 0. -/
theorem count_isShardStart_all {s : Nat} (hs : s < sh.shardCount.toNat) :
    Nat.count (IsShardStart sh.owner s) (2 ^ 64 + 1) + (if sh.startOffset s = 0 then 1 else 0) = sh.rounds := by
  have hnot : ¬ IsShardStart sh.owner s (2 ^ 64) := fun h => Nat.lt_irrefl _ ((hv.isShardStart_iff hs).1 h).2.1
  have h := hv.count_isShardStart_add hs (x := 2 ^ 64) le_rfl
  rw [if_congr (and_iff_left (Nat.two_pow_pos 64)) rfl rfl, count_mod_eq width_pos (hv.startOffset_lt_width hs),
    hv.width_dvd, if_neg (Nat.not_lt_zero _), Nat.add_zero] at h
  have hdiv : 2 ^ 64 / sh.width = sh.rounds := by
    rw [← hv.rounds_mul_width, Nat.mul_div_cancel _ width_pos]
  rw [Nat.count_succ, if_neg hnot, Nat.add_zero, h, hdiv]

/-- The starts at or before position `i`. -/
theorem count_isShardStart_succ {s i : Nat} (hs : s < sh.shardCount.toNat) (hi : i < 2 ^ 64) :
    Nat.count (IsShardStart sh.owner s) (i + 1) + (if sh.startOffset s = 0 then 1 else 0) =
      i / sh.width + if sh.startOffset s ≤ i % sh.width then 1 else 0 := by
  have h := hv.count_isShardStart_add hs (x := i + 1) (by omega)
  rw [count_mod_eq_succ width_pos (hv.startOffset_lt_width hs)] at h
  rw [← h]
  simp

/-- The starts before the shard's start in round `L`. -/
theorem count_isShardStart_start {s L : Nat} (hs : s < sh.shardCount.toNat) (hL : L < sh.rounds) :
    Nat.count (IsShardStart sh.owner s) (L * sh.width + sh.startOffset s) +
      (if sh.startOffset s = 0 ∧ 0 < L * sh.width + sh.startOffset s then 1 else 0) = L := by
  have hc := hv.startOffset_lt_width hs
  have hlt : L * sh.width + sh.startOffset s < 2 ^ 64 := by
    rw [← hv.rounds_mul_width]
    calc L * sh.width + sh.startOffset s < L * sh.width + sh.width := Nat.add_lt_add_left hc _
      _ = (L + 1) * sh.width := (Nat.succ_mul L sh.width).symm
      _ ≤ sh.rounds * sh.width := Nat.mul_le_mul_right _ hL
  rw [hv.count_isShardStart_add hs (Nat.le_of_lt hlt), count_mod_eq width_pos hc, Nat.mul_comm,
    Nat.mul_add_div width_pos, Nat.div_eq_of_lt hc, Nat.mul_add_mod, Nat.mod_eq_of_lt hc]
  simp

/-- The shard's start in round `L` is a start of the shard, unless it is position 0. -/
theorem isShardStart_start {s L : Nat} (hs : s < sh.shardCount.toNat) (hL : L < sh.rounds)
    (hpos : 0 < L * sh.width + sh.startOffset s) : IsShardStart sh.owner s (L * sh.width + sh.startOffset s) := by
  have hc := hv.startOffset_lt_width hs
  refine (hv.isShardStart_iff hs).2 ⟨hpos, ?_, ?_⟩
  · rw [← hv.rounds_mul_width]
    calc L * sh.width + sh.startOffset s < L * sh.width + sh.width := Nat.add_lt_add_left hc _
      _ = (L + 1) * sh.width := (Nat.succ_mul L sh.width).symm
      _ ≤ sh.rounds * sh.width := Nat.mul_le_mul_right _ hL
  · rw [Nat.mul_comm, Nat.mul_add_mod, Nat.mod_eq_of_lt hc]

/-- token_for_next_shard returns the `spans`-th start of the shard after `t` (`Nat.nth` numbers all starts from
0), or the maximum token when fewer than `spans` starts follow `t`. -/
theorem tokenForNextShard_spec (t : Token) {s : Nat} (hs : s < sh.shardCount.toNat) {spans : UInt32}
    (hsp : 0 < spans) :
    sh.tokenForNextShard t s spans =
      if Nat.count (IsShardStart sh.owner s) (2 ^ 64 + 1) - Nat.count (IsShardStart sh.owner s) (t.index + 1) <
          spans.toNat then Token.maximum
      else tokenAt (Nat.nth (IsShardStart sh.owner s)
        (Nat.count (IsShardStart sh.owner s) (t.index + 1) + (spans.toNat - 1))) := by
  have hsp' : 1 ≤ spans.toNat := by rwa [UInt32.lt_iff_toNat_lt] at hsp
  have hall := hv.count_isShardStart_all hs
  rw [hv.tokenForNextShard_eq t hs hsp]
  rcases Nat.lt_or_ge t.index (2 ^ 64) with hi | hi
  · -- The position of a key: count the starts by its round and its offset in the round.
    have hsucc := hv.count_isShardStart_succ hs hi
    have hq : t.index / sh.width < sh.rounds :=
      Nat.div_lt_of_lt_mul (by rw [Nat.mul_comm, hv.rounds_mul_width]; exact hi)
    have hz : (if sh.startOffset s = 0 then 1 else 0) ≤ if sh.startOffset s ≤ t.index % sh.width then 1 else 0 := by
      split_ifs <;> omega
    have hL : sh.targetRound t.index s spans + 1 =
        t.index / sh.width + (if sh.startOffset s ≤ t.index % sh.width then 1 else 0) + spans.toNat := by
      rw [targetRound]
      generalize t.index / sh.width = q
      split_ifs <;> omega
    -- omega reads a division as an integer one; name the round instead
    generalize t.index / sh.width = q at hsucc hq hL
    rw [if_congr (or_iff_right (Nat.not_le.2 hi)) rfl rfl]
    by_cases hmax : sh.rounds ≤ sh.targetRound t.index s spans
    · rw [if_pos hmax, if_pos (by omega)]
    · rw [if_neg hmax, if_neg (by omega)]
      have hLR := Nat.lt_of_not_le hmax
      -- The start reached is a start of the shard, with exactly the asked-for number of starts before it.
      have hpos : 0 < sh.targetRound t.index s spans * sh.width + sh.startOffset s := by
        rcases Nat.eq_zero_or_pos (sh.startOffset s) with h0 | h0
        · rw [h0, if_pos (Nat.zero_le _)] at hL
          rw [h0, Nat.add_zero]
          exact Nat.mul_pos (by omega) width_pos
        · omega
      have hstart := hv.count_isShardStart_start hs hLR
      rw [if_congr (and_iff_left hpos) rfl rfl] at hstart
      have hcount : Nat.count (IsShardStart sh.owner s) (t.index + 1) + (spans.toNat - 1) =
          Nat.count (IsShardStart sh.owner s) (sh.targetRound t.index s spans * sh.width + sh.startOffset s) := by
        omega
      rw [hcount, Nat.nth_count (hv.isShardStart_start hs hLR hpos)]
  · -- After all keys there is nothing to count.
    rw [if_pos (Or.inl hi), if_pos]
    have hidx : t.index = 2 ^ 64 := by
      obtain ⟨kind, d⟩ := t
      cases kind <;> simp_all [Token.index]
      exact absurd hi (Nat.not_le.2 (Token.unbias ⟨.key, d⟩).toNat_lt)
    rw [hidx, Nat.sub_self]
    omega

/-- The owners of the positions after `i` in its round: at least `i`'s, and below each shard starting later. -/
theorem owner_of_same_round {i k : Nat} (hi : i < 2 ^ 64) (hik : i < k) (hk : k < (i / sh.width + 1) * sh.width) :
    sh.owner i ≤ sh.owner k ∧ ∀ b, k % sh.width < sh.startOffset b → sh.owner k < b := by
  have hk64 : k < 2 ^ 64 :=
    Nat.lt_of_lt_of_le hk (by
      rw [← hv.rounds_mul_width]
      exact Nat.mul_le_mul_right _ (Nat.div_lt_of_lt_mul (by rw [Nat.mul_comm, hv.rounds_mul_width]; exact hi)))
  obtain ⟨-, hmod⟩ := mod_lt_mod_of_same_round hik hk
  rw [hv.owner_eq hi, hv.owner_eq hk64]
  exact ⟨part_mono (Nat.le_of_lt hmod), fun b hb => (part_lt_iff hv.count_pos width_pos).2 hb⟩

/-- next_shard in the last shard of a round: shard 0 at the start of the next round, if there is one. -/
theorem nextShard_of_lt {t : Token} (hi : t.index < 2 ^ 64) (hlast : sh.shardOf t + 1 < sh.shardCount.toNat) :
    sh.nextShard t = some ⟨sh.shardOf t + 1,
      tokenAt (t.index / sh.width * sh.width + sh.startOffset (sh.shardOf t + 1))⟩ := by
  have h1 : (0 : UInt32) < 1 := by decide
  have hown : sh.shardOf t = part sh.shardCount.toNat sh.width (t.index % sh.width) := by
    rw [hv.shardOf_eq, if_pos hi]
  -- `t` lies before the next shard's start in its round.
  have hbefore : t.index % sh.width < sh.startOffset (sh.shardOf t + 1) :=
    (part_lt_iff hv.count_pos width_pos).1 (by rw [← hown]; exact Nat.lt_succ_self _)
  have htarget : sh.targetRound t.index (sh.shardOf t + 1) 1 = t.index / sh.width := by
    rw [targetRound, if_pos hbefore]
    rfl
  have hq : t.index / sh.width < sh.rounds :=
    Nat.div_lt_of_lt_mul (by rw [Nat.mul_comm, hv.rounds_mul_width]; exact hi)
  have hu : t.index / sh.width * sh.width + sh.startOffset (sh.shardOf t + 1) < 2 ^ 64 :=
    calc t.index / sh.width * sh.width + sh.startOffset (sh.shardOf t + 1)
        < t.index / sh.width * sh.width + sh.width := Nat.add_lt_add_left (hv.startOffset_lt_width hlast) _
      _ = (t.index / sh.width + 1) * sh.width := (Nat.succ_mul _ _).symm
      _ ≤ sh.rounds * sh.width := Nat.mul_le_mul_right _ hq
      _ = 2 ^ 64 := hv.rounds_mul_width
  simp only [nextShard]
  rw [if_neg (Nat.ne_of_lt hlast), hv.tokenForNextShard_eq t hlast h1, htarget,
    if_neg (not_or.2 ⟨Nat.not_le.2 hi, Nat.not_le.2 hq⟩),
    if_neg (by rw [isMaximum_tokenAt]; exact Nat.not_le.2 hu)]

/-- next_shard in the last shard of a round: shard 0 at the start of the next round, if there is one. -/
theorem nextShard_of_last {t : Token} (hi : t.index < 2 ^ 64) (hlast : sh.shardOf t + 1 = sh.shardCount.toNat) :
    sh.nextShard t = if sh.rounds ≤ t.index / sh.width + 1 then none
      else some ⟨0, tokenAt ((t.index / sh.width + 1) * sh.width)⟩ := by
  have h1 : (0 : UInt32) < 1 := by decide
  have htarget : sh.targetRound t.index 0 1 = t.index / sh.width + 1 := by
    rw [targetRound, startOffset, firstAt_zero, if_neg (Nat.not_lt_zero _)]
    rfl
  have h0 : sh.startOffset 0 = 0 := firstAt_zero
  simp only [nextShard]
  rw [if_pos hlast, hv.tokenForNextShard_eq t hv.count_pos h1, htarget,
    if_congr (or_iff_right (Nat.not_le.2 hi)) rfl rfl, h0, Nat.add_zero]
  by_cases hR : sh.rounds ≤ t.index / sh.width + 1
  · rw [if_pos hR, if_pos hR]
    simp [Token.isMaximum, Token.maximum]
  · have hu : (t.index / sh.width + 1) * sh.width < 2 ^ 64 := by
      rw [← hv.rounds_mul_width]
      exact Nat.mul_lt_mul_of_pos_right (Nat.lt_of_not_le hR) width_pos
    rw [if_neg hR, if_neg hR, if_neg (by rw [isMaximum_tokenAt]; exact Nat.not_le.2 hu), Nat.add_zero]

/-- next_shard finds the first token after `t` with another owner, and that owner; it finds none when every
token after `t` has `t`'s owner. -/
theorem nextShard_spec (t : Token) :
    (sh.nextShard t = none ↔ ∀ j, t.index < j → j ≤ 2 ^ 64 → sh.owner j = sh.shardOf t) ∧
    ∀ r, sh.nextShard t = some r → ∃ j, r.token = tokenAt j ∧ t.index < j ∧ j ≤ 2 ^ 64 ∧
      sh.owner j = r.shard ∧ r.shard ≠ sh.shardOf t ∧ ∀ k, t.index < k → k < j → sh.owner k = sh.shardOf t := by
  have hn := hv.count_pos
  have hw : 0 < sh.width := width_pos
  rcases Nat.lt_or_ge t.index (2 ^ 64) with hi | hi
  · have hq : t.index / sh.width < sh.rounds :=
      Nat.div_lt_of_lt_mul (by rw [Nat.mul_comm, hv.rounds_mul_width]; exact hi)
    have hround : (t.index / sh.width + 1) * sh.width ≤ 2 ^ 64 := by
      rw [← hv.rounds_mul_width]
      exact Nat.mul_le_mul_right _ hq
    rcases Nat.lt_or_ge (sh.shardOf t + 1) sh.shardCount.toNat with hlast | hlast
    · -- The next shard starts later in the same round.
      have hnext := hv.nextShard_of_lt hi hlast
      have hc := hv.startOffset_lt_width hlast
      have hbefore : t.index % sh.width < sh.startOffset (sh.shardOf t + 1) := by
        have : sh.shardOf t = part sh.shardCount.toNat sh.width (t.index % sh.width) := by
          rw [hv.shardOf_eq, if_pos hi]
        exact (part_lt_iff hn hw).1 (by rw [← this]; exact Nat.lt_succ_self _)
      generalize hu : t.index / sh.width * sh.width + sh.startOffset (sh.shardOf t + 1) = u at hnext
      have hdm := Nat.div_add_mod' t.index sh.width
      have hiu : t.index < u := by
        rw [← hu]
        omega
      have hu1 : u < (t.index / sh.width + 1) * sh.width := by
        rw [Nat.succ_mul, ← hu]
        exact Nat.add_lt_add_left hc _
      have hu64 : u < 2 ^ 64 := Nat.lt_of_lt_of_le hu1 hround
      have hownu : sh.owner u = sh.shardOf t + 1 := by
        rw [hv.owner_eq hu64, ← hu, Nat.mul_comm, Nat.mul_add_mod, Nat.mod_eq_of_lt hc, startOffset,
          part_firstAt hn hv.count_le_width]
      have hbetween : ∀ k, t.index < k → k < u → sh.owner k = sh.shardOf t := fun k hk hku => by
        obtain ⟨hge, hlt'⟩ := hv.owner_of_same_round hi hk (Nat.lt_trans hku hu1)
        obtain ⟨hkdiv, -⟩ := mod_lt_mod_of_same_round hk (Nat.lt_trans hku hu1)
        have hkmod : k % sh.width < sh.startOffset (sh.shardOf t + 1) := by
          have h1 := Nat.div_add_mod k sh.width
          rw [hkdiv, Nat.mul_comm] at h1
          rw [← hu] at hku
          omega
        have := hlt' _ hkmod
        rw [← hv.shardOf_eq_owner] at hge
        omega
      refine ⟨⟨fun h => (by rw [hnext] at h; cases h), fun hall => ?_⟩, fun r hr => ?_⟩
      · have := hall u hiu (Nat.le_of_lt hu64)
        omega
      · rw [hnext] at hr
        cases hr
        exact ⟨u, rfl, hiu, Nat.le_of_lt hu64, hownu, Nat.succ_ne_self _, hbetween⟩
    · -- The last shard: shard 0 starts the next round, if there is one.
      have hlast' : sh.shardOf t + 1 = sh.shardCount.toNat := by
        have : sh.shardOf t < sh.shardCount.toNat := by
          rw [hv.shardOf_eq, if_pos hi]
          exact part_lt_count hn (Nat.mod_lt _ hw)
        omega
      have hnext := hv.nextShard_of_last hi hlast'
      have hbetween : ∀ k, t.index < k → k < (t.index / sh.width + 1) * sh.width → sh.owner k = sh.shardOf t :=
        fun k hk hku => by
          obtain ⟨hge, -⟩ := hv.owner_of_same_round hi hk hku
          have hlt' : sh.owner k < sh.shardCount.toNat := by
            rw [hv.owner_eq (Nat.lt_of_lt_of_le hku hround)]
            exact part_lt_count hn (Nat.mod_lt _ hw)
          rw [← hv.shardOf_eq_owner] at hge
          omega
      by_cases hR : sh.rounds ≤ t.index / sh.width + 1
      · -- The last round: every later token is the last shard's.
        rw [if_pos hR] at hnext
        have hend : (t.index / sh.width + 1) * sh.width = 2 ^ 64 := by
          have he : t.index / sh.width + 1 = sh.rounds := Nat.le_antisymm hq hR
          rw [← hv.rounds_mul_width, he]
        refine ⟨⟨fun _ j hj hj64 => ?_, fun _ => hnext⟩, fun r hr => by rw [hnext] at hr; cases hr⟩
        rcases Nat.lt_or_ge j (2 ^ 64) with hj' | hj'
        · exact hbetween j hj (by rw [hend]; exact hj')
        · rw [hv.owner_of_le hj']
          omega
      · rw [if_neg hR] at hnext
        have hNpos : 1 < sh.shardCount.toNat := by
          by_contra h1
          have hm0 := hv.msb_of_single (by omega)
          rw [rounds, hm0] at hR
          exact hR (Nat.le_trans (by decide) (Nat.le_add_left 1 _))
        have hdm := Nat.div_add_mod' t.index sh.width
        have hmod := Nat.mod_lt t.index hw
        generalize hu : (t.index / sh.width + 1) * sh.width = u at hnext hbetween
        have hiu : t.index < u := by
          rw [← hu, Nat.succ_mul]
          omega
        have hu64 : u < 2 ^ 64 := by
          rw [← hu, ← hv.rounds_mul_width]
          exact Nat.mul_lt_mul_of_pos_right (Nat.lt_of_not_le hR) hw
        have hownu : sh.owner u = 0 := by
          rw [hv.owner_eq hu64, ← hu, Nat.mul_mod_left, part_zero]
        refine ⟨⟨fun h => (by rw [hnext] at h; cases h), fun hall => ?_⟩, fun r hr => ?_⟩
        · have := hall u hiu (Nat.le_of_lt hu64)
          omega
        · rw [hnext] at hr
          cases hr
          exact ⟨u, rfl, hiu, Nat.le_of_lt hu64, hownu, by show 0 ≠ sh.shardOf t; omega, hbetween⟩
  · -- After all keys nothing follows.
    rw [nextShard_of_le hi]
    exact ⟨⟨fun _ j hj hj64 => absurd hj (by omega), fun _ => rfl⟩, fun r hr => by cases hr⟩

/-- From a position that shard `s` does not own, the next start of `s` is the first position it owns;
past the last round no later key is the shard's. -/
theorem first_owned_of_ne {x s : Nat} (hx : x < 2 ^ 64) (hs : s < sh.shardCount.toNat) (hne : sh.owner x ≠ s) :
    (sh.targetRound x s 1 < sh.rounds →
      x < sh.targetRound x s 1 * sh.width + sh.startOffset s ∧
      sh.targetRound x s 1 * sh.width + sh.startOffset s < 2 ^ 64 ∧
      sh.owner (sh.targetRound x s 1 * sh.width + sh.startOffset s) = s ∧
      ∀ j, x < j → j < sh.targetRound x s 1 * sh.width + sh.startOffset s → sh.owner j ≠ s) ∧
    (sh.rounds ≤ sh.targetRound x s 1 → ∀ j, x < j → j < 2 ^ 64 → sh.owner j ≠ s) := by
  have hn := hv.count_pos
  have hw : 0 < sh.width := width_pos
  have hc := hv.startOffset_lt_width hs
  have hq : x / sh.width < sh.rounds := Nat.div_lt_of_lt_mul (by rw [Nat.mul_comm, hv.rounds_mul_width]; exact hx)
  have hdm := Nat.div_add_mod' x sh.width
  have hxmod := Nat.mod_lt x hw
  -- A position of the shard has its offset in `[startOffset s, startOffset (s + 1))`.
  have howns : ∀ j, j < 2 ^ 64 → (sh.owner j = s ↔ sh.startOffset s ≤ j % sh.width ∧ j % sh.width < sh.startOffset (s + 1)) :=
    fun j hj => by rw [hv.owner_eq hj]; exact part_eq_iff hn hw
  have hlt64 : ∀ L, L < sh.rounds → L * sh.width + sh.startOffset s < 2 ^ 64 := fun L hL =>
    calc L * sh.width + sh.startOffset s < L * sh.width + sh.width := Nat.add_lt_add_left hc _
      _ = (L + 1) * sh.width := (Nat.succ_mul L sh.width).symm
      _ ≤ sh.rounds * sh.width := Nat.mul_le_mul_right _ hL
      _ = 2 ^ 64 := hv.rounds_mul_width
  have hmodu : ∀ L, (L * sh.width + sh.startOffset s) % sh.width = sh.startOffset s := fun L => by
    rw [Nat.mul_comm, Nat.mul_add_mod, Nat.mod_eq_of_lt hc]
  have hownu : ∀ L, L < sh.rounds → sh.owner (L * sh.width + sh.startOffset s) = s := fun L hL => by
    rw [howns _ (hlt64 L hL), hmodu]
    exact ⟨le_rfl, firstAt_lt_firstAt_succ hn hv.count_le_width⟩
  by_cases hbefore : x % sh.width < sh.startOffset s
  · -- Before the shard's start in the round of `x`: the start in this round comes next.
    have htarget : sh.targetRound x s 1 = x / sh.width := by
      rw [targetRound, if_pos hbefore]
      rfl
    rw [htarget]
    refine ⟨fun hL => ⟨by omega, hlt64 _ hL, hownu _ hL, fun j hj hju => ?_⟩, fun hR => absurd hR (Nat.not_le.2 hq)⟩
    have hjr : j < (x / sh.width + 1) * sh.width := by rw [Nat.succ_mul]; omega
    obtain ⟨hjdiv, -⟩ := mod_lt_mod_of_same_round hj hjr
    have h1 := Nat.div_add_mod' j sh.width
    rw [hjdiv] at h1
    have hj64 : j < 2 ^ 64 :=
      Nat.lt_of_lt_of_le hjr (by rw [← hv.rounds_mul_width]; exact Nat.mul_le_mul_right _ hq)
    rw [ne_eq, howns j hj64]
    omega
  · -- At or past the shard's start, and so past its range: the next round's start comes next.
    have hpast : sh.startOffset (s + 1) ≤ x % sh.width := by
      have hown := (howns x hx).not.1 hne
      omega
    have htarget : sh.targetRound x s 1 = x / sh.width + 1 := by
      rw [targetRound, if_neg hbefore]
      rfl
    rw [htarget]
    -- The positions after `x`: the rest of its round, past the shard, then the next round's start.
    have hbetween : ∀ j, x < j → j < (x / sh.width + 1) * sh.width + sh.startOffset s → j < 2 ^ 64 →
        sh.owner j ≠ s := fun j hj hju hj64 => by
      rw [ne_eq, howns j hj64]
      rcases Nat.lt_or_ge j ((x / sh.width + 1) * sh.width) with hjr | hjr
      · obtain ⟨hjdiv, hjmod⟩ := mod_lt_mod_of_same_round hj hjr
        omega
      · have hjdiv : j / sh.width = x / sh.width + 1 :=
          Nat.div_eq_of_lt_le hjr (by rw [Nat.succ_mul]; omega)
        have h1 := Nat.div_add_mod' j sh.width
        rw [hjdiv, Nat.succ_mul] at h1
        rw [Nat.succ_mul] at hju
        omega
    refine ⟨fun hL => ⟨?_, hlt64 _ hL, hownu _ hL, fun j hj hju => hbetween j hj hju (Nat.lt_trans hju (hlt64 _ hL))⟩,
      fun hR j hj hj64 => hbetween j hj ?_ hj64⟩
    · rw [Nat.succ_mul]
      omega
    · have he : x / sh.width + 1 = sh.rounds := Nat.le_antisymm hq hR
      have : (x / sh.width + 1) * sh.width = 2 ^ 64 := by
        rw [← hv.rounds_mul_width, he]
      omega

end Valid

end StaticSharder

end Scylla.Dht
