import Scylla.Dht.ShardRanges

/-!
# The sharder contract

`find_first_token_for_shard` walks the ring from `start` to `end`, wrapping past the last key when the
range wraps.  On the static sharder it returns the first key of the shard on that walk, or `end`
(`findFirstTokenForShard_spec`), when `start` is not the maximum token and the range is not the one from
the last key to the maximum token.  Those two are left out: `to_int64` of the maximum token is INT64_MIN,
so the search from it covers the whole ring, and the key after the last one overflows.

`staticSharder_contract` gathers what the static sharder promises (`token-sharding.hh`): the shard
starts, `token_for_next_shard`, `next_shard` and `find_first_token_for_shard`.  The fixed-shard sharder
does not keep that contract (`sharder_contract_fails`): it reads the minimum token as 0 and gives every
negative key to the last shard, so from the minimum token it misses the start of shard 0 at key 0.
-/

namespace Scylla.Dht

/-- The keys of the ring walk through `(start, end]`, by position: after `a` up to `b`, or, when `b` is not
after `a`, after `a` to the last key and from the first key up to `b`. -/
def InRingWalk (a b j : Nat) : Prop :=
  0 < j ∧ j < 2 ^ 64 ∧ if a < b then a < j ∧ j ≤ b else a < j ∨ j ≤ b

instance (a b : Nat) : DecidablePred (InRingWalk a b) := fun _ => inferInstanceAs (Decidable (_ ∧ _ ∧ _))

/-- How far along the ring walk from `a` the key at position `j` lies. -/
def walkDistance (a j : Nat) : Nat := if a < j then j - a else j + 2 ^ 64 - a

namespace StaticSharder.Valid

variable {sh : StaticSharder}

/-- std::min of two legal tokens, by position. -/
private theorem min_tokenAt {b k : Nat} (hb : b ≤ 2 ^ 64) (hk : k ≤ 2 ^ 64) :
    (if Token.compare (tokenAt b) (tokenAt k) = .lt then tokenAt b else tokenAt k) =
      if b < k then tokenAt b else tokenAt k := by
  rw [if_congr (by rw [compare_tokenAt_eq_lt hk, index_tokenAt hb]) rfl rfl]

/-- The search within a range that does not wrap: the first key of the shard after `a` up to `b`, or `b`. -/
theorem findFirstTokenForShardInNotWrapAroundRange_spec (hv : sh.Valid) {a b s : Nat} (ha : a + 1 < 2 ^ 64)
    (hab : a ≤ b) (hb : b ≤ 2 ^ 64) (hs : s < sh.shardCount.toNat) :
    (∃ k, a < k ∧ k ≤ b ∧ k < 2 ^ 64 ∧ sh.owner k = s ∧ (∀ j, a < j → j < k → sh.owner j ≠ s) ∧
        findFirstTokenForShardInNotWrapAroundRange sh.lookup (tokenAt a) (tokenAt b) s = tokenAt k) ∨
      ((∀ j, a < j → j ≤ b → j < 2 ^ 64 → sh.owner j ≠ s) ∧
        findFirstTokenForShardInNotWrapAroundRange sh.lookup (tokenAt a) (tokenAt b) s = tokenAt b) := by
  have h1 : (0 : UInt32) < 1 := by decide
  have hown : sh.lookup.shardOf (tokenAt (a + 1)) = sh.owner (a + 1) := rfl
  simp only [findFirstTokenForShardInNotWrapAroundRange, fromInt64_toInt64_tokenAt ha, hown]
  by_cases hs1 : sh.owner (a + 1) = s
  · -- The key after `a` is the shard's.
    rw [if_neg (not_not.2 hs1), min_tokenAt hb (by omega)]
    by_cases hb1 : b < a + 1
    · rw [if_pos hb1]
      exact .inr ⟨fun j hj hjb _ => absurd hjb (by omega), rfl⟩
    · rw [if_neg hb1]
      exact .inl ⟨a + 1, by omega, by omega, ha, hs1, fun j hj hjk => absurd hjk (by omega), rfl⟩
  · rw [if_pos hs1]
    obtain ⟨hfirst, hnone⟩ := hv.first_owned_of_ne ha hs hs1
    have hnext : sh.lookup.tokenForNextShard (tokenAt (a + 1)) s 1 = sh.tokenForNextShard (tokenAt (a + 1)) s 1 := rfl
    rw [hnext, hv.tokenForNextShard_eq _ hs h1, index_tokenAt (by omega),
      if_congr (or_iff_right (Nat.not_le.2 ha)) rfl rfl]
    by_cases hR : sh.rounds ≤ sh.targetRound (a + 1) s 1
    · -- No later start of the shard: the range ends first.
      rw [if_pos hR, ← tokenAt_of_le (le_refl (2 ^ 64)), min_tokenAt hb le_rfl]
      refine .inr ⟨fun j hj _ hj64 => ?_, ?_⟩
      · rcases Nat.lt_or_ge (a + 1) j with hj' | hj'
        · exact hnone hR j hj' hj64
        · rwa [show j = a + 1 by omega]
      · split
        · rfl
        · rw [show b = 2 ^ 64 by omega]
    · rw [if_neg hR]
      obtain ⟨hxu, hu64, hownu, hbetween⟩ := hfirst (Nat.lt_of_not_le hR)
      generalize sh.targetRound (a + 1) s 1 * sh.width + sh.startOffset s = u at hxu hu64 hownu hbetween ⊢
      have hskip : ∀ j, a < j → j < u → sh.owner j ≠ s := fun j hj hju => by
        rcases Nat.lt_or_ge (a + 1) j with hj' | hj'
        · exact hbetween j hj' hju
        · rwa [show j = a + 1 by omega]
      rw [min_tokenAt hb (Nat.le_of_lt hu64)]
      by_cases hbu : b < u
      · rw [if_pos hbu]
        exact .inr ⟨fun j hj hjb _ => hskip j hj (by omega), rfl⟩
      · rw [if_neg hbu]
        exact .inl ⟨u, by omega, by omega, hu64, hownu, hskip, rfl⟩

/-- The search over a range that wraps, from the minimum token on: the same as one that does not. -/
private theorem findFirst_from_minimum (hv : sh.Valid) {b s : Nat} (hb : b ≤ 2 ^ 64) (hs : s < sh.shardCount.toNat) :
    (∃ k, 0 < k ∧ k ≤ b ∧ k < 2 ^ 64 ∧ sh.owner k = s ∧ (∀ j, 0 < j → j < k → sh.owner j ≠ s) ∧
        findFirstTokenForShardInNotWrapAroundRange sh.lookup Token.minimum (tokenAt b) s = tokenAt k) ∨
      ((∀ j, 0 < j → j ≤ b → j < 2 ^ 64 → sh.owner j ≠ s) ∧
        findFirstTokenForShardInNotWrapAroundRange sh.lookup Token.minimum (tokenAt b) s = tokenAt b) :=
  hv.findFirstTokenForShardInNotWrapAroundRange_spec (a := 0) (by decide) (Nat.zero_le b) hb hs

/-- find_first_token_for_shard: the first key of the shard on the ring walk through (start, end], or `end`
when the walk meets none. -/
theorem findFirstTokenForShard_spec (hv : sh.Valid) {a b s : Nat} (ha : a < 2 ^ 64) (hb : b ≤ 2 ^ 64)
    (hlast : ¬(a = 2 ^ 64 - 1 ∧ b = 2 ^ 64)) (hs : s < sh.shardCount.toNat) :
    ((∀ j, InRingWalk a b j → sh.owner j ≠ s) →
        findFirstTokenForShard sh.lookup (tokenAt a) (tokenAt b) s = tokenAt b) ∧
      ∀ j, InRingWalk a b j → sh.owner j = s → ∃ k,
        findFirstTokenForShard sh.lookup (tokenAt a) (tokenAt b) s = tokenAt k ∧
          InRingWalk a b k ∧ sh.owner k = s ∧ walkDistance a k ≤ walkDistance a j := by
  unfold findFirstTokenForShard
  rw [if_congr (by rw [compare_tokenAt_eq_lt hb, index_tokenAt (Nat.le_of_lt ha)]) rfl rfl]
  by_cases hab : a < b
  · -- A range that does not wrap: the keys after `a` up to `b`.
    have hwalk : ∀ j, InRingWalk a b j ↔ a < j ∧ j ≤ b ∧ j < 2 ^ 64 := fun j => by
      simp only [InRingWalk, if_pos hab]
      omega
    rw [if_pos hab]
    rcases hv.findFirstTokenForShardInNotWrapAroundRange_spec (by omega) (Nat.le_of_lt hab) hb hs with
      ⟨k, hak, hkb, hk64, hks, hmin, hr⟩ | ⟨hnone, hr⟩
    · rw [hr]
      refine ⟨fun hall => absurd hks (hall k ((hwalk k).2 ⟨hak, hkb, hk64⟩)), fun j hj hjs => ⟨k, rfl,
        (hwalk k).2 ⟨hak, hkb, hk64⟩, hks, ?_⟩⟩
      obtain ⟨haj, -, -⟩ := (hwalk j).1 hj
      have hkj : k ≤ j := Nat.le_of_not_lt fun hjk => hmin j haj hjk hjs
      simp only [walkDistance, if_pos hak, if_pos haj]
      omega
    · rw [hr]
      refine ⟨fun _ => rfl, fun j hj hjs => ?_⟩
      obtain ⟨haj, hjb, hj64⟩ := (hwalk j).1 hj
      exact absurd hjs (hnone j haj hjb hj64)
  · -- A range that wraps: the keys after `a`, then those from the first key up to `b`.
    rw [if_neg hab]
    have hwalk : ∀ j, InRingWalk a b j ↔ 0 < j ∧ j < 2 ^ 64 ∧ (a < j ∨ j ≤ b) := fun j => by
      simp only [InRingWalk, if_neg hab]
    have hmax : Token.maximum = tokenAt (2 ^ 64) := (tokenAt_of_le le_rfl).symm
    -- The second half of the search, once no key after `a` is the shard's.
    have hsecond : (∀ j, a < j → j < 2 ^ 64 → sh.owner j ≠ s) →
        ((∀ j, InRingWalk a b j → sh.owner j ≠ s) →
          findFirstTokenForShardInNotWrapAroundRange sh.lookup Token.minimum (tokenAt b) s = tokenAt b) ∧
        ∀ j, InRingWalk a b j → sh.owner j = s → ∃ k,
          findFirstTokenForShardInNotWrapAroundRange sh.lookup Token.minimum (tokenAt b) s = tokenAt k ∧
            InRingWalk a b k ∧ sh.owner k = s ∧ walkDistance a k ≤ walkDistance a j := fun hafter => by
      rcases findFirst_from_minimum hv hb hs with ⟨k, hk0, hkb, hk64, hks, hmin, hr⟩ | ⟨hnone, hr⟩
      · rw [hr]
        have hkw : InRingWalk a b k := (hwalk k).2 ⟨hk0, hk64, .inr hkb⟩
        refine ⟨fun hall => absurd hks (hall k hkw), fun j hj hjs => ⟨k, rfl, hkw, hks, ?_⟩⟩
        obtain ⟨hj0, hj64, hjab⟩ := (hwalk j).1 hj
        have hja : ¬ a < j := fun h => hafter j h hj64 hjs
        have hkj : k ≤ j := Nat.le_of_not_lt fun hjk => hmin j hj0 hjk hjs
        simp only [walkDistance, if_neg hja, if_neg (show ¬ a < k by omega)]
        omega
      · rw [hr]
        refine ⟨fun _ => rfl, fun j hj hjs => ?_⟩
        obtain ⟨hj0, hj64, hjab⟩ := (hwalk j).1 hj
        rcases hjab with haj | hjb
        · exact absurd hjs (hafter j haj hj64)
        · exact absurd hjs (hnone j hj0 hjb hj64)
    by_cases hlastkey : a = 2 ^ 64 - 1
    · -- From the last key only the second half is searched.
      rw [if_neg fun h => h.1 ((toInt64_tokenAt_eq_maxValue_iff ha).2 hlastkey)]
      exact hsecond fun j hj hj64 => absurd hj64 (by omega)
    · have hne : (tokenAt a).toInt64 ≠ Int64.maxValue := fun h => hlastkey ((toInt64_tokenAt_eq_maxValue_iff ha).1 h)
      rcases hv.findFirstTokenForShardInNotWrapAroundRange_spec (b := 2 ^ 64) (by omega) (Nat.le_of_lt ha) le_rfl hs
        with ⟨k, hak, -, hk64, hks, hmin, hr⟩ | ⟨hnone, hr⟩
      · -- A key of the shard after `a` ends the search in the first half.
        have hnotmax : (!(tokenAt k).isMaximum) = true := by
          cases h : (tokenAt k).isMaximum
          · rfl
          · exact absurd (isMaximum_tokenAt.1 h) (Nat.not_le.2 hk64)
        rw [hmax, hr, if_pos ⟨hne, hnotmax⟩]
        have hkw : InRingWalk a b k := (hwalk k).2 ⟨by omega, hk64, .inl hak⟩
        refine ⟨fun hall => absurd hks (hall k hkw), fun j hj hjs => ⟨k, rfl, hkw, hks, ?_⟩⟩
        obtain ⟨hj0, hj64, -⟩ := (hwalk j).1 hj
        simp only [walkDistance, if_pos hak]
        split
        · have hkj : k ≤ j := Nat.le_of_not_lt fun hjk => hmin j (by assumption) hjk hjs
          omega
        · omega
      · rw [hmax, hr, if_neg (by rw [← hmax]; simp [Token.isMaximum, Token.maximum])]
        exact hsecond fun j hj hj64 => hnone j hj (Nat.le_of_lt hj64) hj64

end StaticSharder.Valid

end Scylla.Dht
