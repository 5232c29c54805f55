import Scylla.Dht.Token

/-!
# Sharders

`dht/token.cc`, `dht/i_partitioner.cc`, `dht/fixed_shard.cc`: which shard (core) of a node owns a token.

The static sharder unbiases the token and cuts it into `2 ^ sharding_ignore_msb_bits` rounds; within a
round it reads the low bits as a fraction of the round and scales it by the shard count
(`zeroBasedShardOf`).  `init_zero_based_shard_start` inverts that scaling once per shard, and
`token_for_next_shard` jumps to the start of a shard in the right round from those starts.  The
fixed-shard sharder, used for the Raft tables of strongly consistent tables, reads the shard from the top
16 bits of the token instead.  `find_first_token_for_shard` calls the virtual `shard_of` and
`token_for_next_shard` of either (`ShardLookup`).

Counts, shard ids and `spans` are `unsigned` in the source; `spans` is a `UInt32` here because
`spans - unsigned(shard > s)` may wrap, the shard values are `Nat` (they are below the count), tokens
are `UInt64` where the source shifts them, and the 128-bit product of `zero_based_shard_of` is a `Nat`,
which it does not exceed.
-/

namespace Scylla.Dht

/-- zero_based_shard_of: the token with its ignored top bits shifted out, read as a fraction of 2^64 and
multiplied by the shard count. -/
def zeroBasedShardOf (token : UInt64) (shards shardingIgnoreMsbBits : UInt32) : Nat :=
  (token <<< shardingIgnoreMsbBits.toUInt64).toNat * shards.toNat / 2 ^ 64

/-- The loop of init_zero_based_shard_start that steps a token up until its shard is `s`.  After 2^64
steps the token has taken every value, so the source loops forever exactly when this is `none`. -/
def advanceToShard (shards shardingIgnoreMsbBits : UInt32) (s : Nat) : Nat → UInt64 → Option UInt64
  | 0, _ => none
  | fuel + 1, token =>
    if zeroBasedShardOf token shards shardingIgnoreMsbBits ≠ s then
      advanceToShard shards shardingIgnoreMsbBits s fuel (token + 1)
    else some token

/-- init_zero_based_shard_start: the least value of the low bits that each shard owns, from the rounded
quotient `s * 2^64 / shards`, stepped past rounding errors. -/
def initZeroBasedShardStart (shards shardingIgnoreMsbBits : UInt32) : Option (List UInt64) :=
  if shards = 1 then some [0]
  else
    (List.range shards.toNat).mapM fun s =>
      -- `(uint128_t(s) << 64) / shards` is below 2^64, since `s < shards`
      let token : UInt64 := (s * 2 ^ 64 / shards.toNat).toUInt64 >>> shardingIgnoreMsbBits.toUInt64
      advanceToShard shards shardingIgnoreMsbBits s (2 ^ 64) token

/-- dht::shard_of -/
def shardOf (shardCount shardingIgnoreMsbBits : UInt32) (t : Token) : Nat :=
  match t.kind with
  | .beforeAllKeys => Token.shardOfMinimumToken
  | .afterAllKeys => (shardCount - 1).toNat
  | .key => zeroBasedShardOf t.unbias shardCount shardingIgnoreMsbBits

/-- The part of dht::token_for_next_shard after its switch on the token kind, from the unbiased token `n`
(0 for the minimum token). -/
def tokenForNextShardFrom (shardStart : List UInt64) (shardCount shardingIgnoreMsbBits : UInt32)
    (n : UInt64) (shard : Nat) (spans : UInt32) : Token :=
  let s := zeroBasedShardOf n shardCount shardingIgnoreMsbBits
  if shardingIgnoreMsbBits = 0 then
    -- the source's branch without ignored bits, which avoids shifts by 64
    if spans > 1 ∨ shard ≤ s then Token.maximum
    else Token.bias (shardStart.getD shard 0)
  else
    let leftPart : UInt64 := n >>> (64 - shardingIgnoreMsbBits).toUInt64 +
      (spans - if s < shard then 1 else 0).toUInt64
    if ((1 : UInt32) <<< shardingIgnoreMsbBits).toUInt64 ≤ leftPart then Token.maximum
    else Token.bias (leftPart <<< (64 - shardingIgnoreMsbBits).toUInt64 ||| shardStart.getD shard 0)

/-- dht::token_for_next_shard -/
def tokenForNextShard (shardStart : List UInt64) (shardCount shardingIgnoreMsbBits : UInt32) (t : Token)
    (shard : Nat) (spans : UInt32) : Token :=
  match t.kind with
  | .beforeAllKeys => tokenForNextShardFrom shardStart shardCount shardingIgnoreMsbBits 0 shard spans
  | .afterAllKeys => Token.maximum
  | .key => tokenForNextShardFrom shardStart shardCount shardingIgnoreMsbBits t.unbias shard spans

/-- dht::shard_and_token -/
structure ShardAndToken where
  shard : Nat
  token : Token
  deriving DecidableEq, Repr

/-- The virtual functions of a static_sharder that find_first_token_for_shard calls; fixed_shard_sharder
overrides both. -/
structure ShardLookup where
  shardOf : Token → Nat
  tokenForNextShard : Token → Nat → UInt32 → Token

/-- dht::static_sharder: its shard count, the ignored top bits, and the first low-bit value of each shard. -/
structure StaticSharder where
  shardCount : UInt32
  shardingIgnoreMsbBits : UInt32
  shardStart : List UInt64
  deriving DecidableEq, Repr

namespace StaticSharder

/-- The constructor static_sharder(shard_count, sharding_ignore_msb_bits), through sharder::sharder, which
ignores no bits for one shard.  It does not return when init_zero_based_shard_start loops. -/
def new (shardCount shardingIgnoreMsbBits : UInt32) : Option StaticSharder :=
  let m := if shardCount > 1 then shardingIgnoreMsbBits else 0
  (initZeroBasedShardStart shardCount m).map fun st => ⟨shardCount, m, st⟩

/-- static_sharder::shard_of, which is also shard_for_reads. -/
def shardOf (sh : StaticSharder) (t : Token) : Nat := Dht.shardOf sh.shardCount sh.shardingIgnoreMsbBits t

/-- static_sharder::token_for_next_shard, which is also token_for_next_shard_for_reads. -/
def tokenForNextShard (sh : StaticSharder) (t : Token) (shard : Nat) (spans : UInt32) : Token :=
  Dht.tokenForNextShard sh.shardStart sh.shardCount sh.shardingIgnoreMsbBits t shard spans

/-- static_sharder::next_shard: the start of the next shard's range after `t`. -/
def nextShard (sh : StaticSharder) (t : Token) : Option ShardAndToken :=
  let shard := sh.shardOf t
  let nextShard := if shard + 1 = sh.shardCount.toNat then 0 else shard + 1
  let nextToken := sh.tokenForNextShard t nextShard 1
  if nextToken.isMaximum then none else some ⟨nextShard, nextToken⟩

def lookup (sh : StaticSharder) : ShardLookup := ⟨sh.shardOf, sh.tokenForNextShard⟩

end StaticSharder

/-- fixed_shard_partitioner::shard_shift: the shard takes the top 16 bits of a token. -/
def FixedShardPartitioner.shardShift : Nat := 64 - 16

/-- fixed_shard_partitioner::shard_of: the top bits of the raw token as an unsigned word. -/
def FixedShardPartitioner.shardOf (t : Token) : Nat :=
  (t.raw.toUInt64 >>> FixedShardPartitioner.shardShift.toUInt64).toNat

/-- dht::fixed_shard_sharder: a static sharder of the node's shard count with no ignored bits, whose
virtual functions read the shard from the token. -/
structure FixedShardSharder where
  shardCount : UInt32
  deriving DecidableEq, Repr

namespace FixedShardSharder

/-- fixed_shard_sharder::shard_of: a shard beyond the count, and so every negative key, goes to the last. -/
def shardOf (sh : FixedShardSharder) (t : Token) : Nat :=
  if t.isMinimum then Token.shardOfMinimumToken
  else if t.isMaximum then (sh.shardCount - 1).toNat
  else min (FixedShardPartitioner.shardOf t) (sh.shardCount - 1).toNat

/-- fixed_shard_sharder::token_for_next_shard_for_reads: each shard has one range, starting at its shard
bits; the minimum token is read as 0. -/
def tokenForNextShardForReads (sh : FixedShardSharder) (t : Token) (shard : Nat) (spans : UInt32) : Token :=
  if spans > 1 ∨ sh.shardCount.toNat ≤ shard ∨ t.isMaximum then Token.maximum
  else
    let tokenValue : Int64 := if t.isMinimum then 0 else t.raw
    let start : Int64 := Int64.ofNat shard <<< FixedShardPartitioner.shardShift.toInt64
    if tokenValue < start then Token.ofInt64 start else Token.maximum

/-- fixed_shard_sharder::token_for_next_shard -/
def tokenForNextShard (sh : FixedShardSharder) (t : Token) (shard : Nat) (spans : UInt32) : Token :=
  sh.tokenForNextShardForReads t shard spans

/-- fixed_shard_sharder::next_shard: the next shard by number, never the first one again. -/
def nextShard (sh : FixedShardSharder) (t : Token) : Option ShardAndToken :=
  let shard := sh.shardOf t
  if sh.shardCount.toNat ≤ shard + 1 then none
  else
    let nextToken := sh.tokenForNextShardForReads t (shard + 1) 1
    if nextToken.isMaximum then none else some ⟨shard + 1, nextToken⟩

def lookup (sh : FixedShardSharder) : ShardLookup := ⟨sh.shardOf, sh.tokenForNextShard⟩

end FixedShardSharder

/-- find_first_token_for_shard_in_not_wrap_around_range: from the key after `start`, the start of the
shard's next range if the key is not the shard's, cut at `stop` by std::min. -/
def findFirstTokenForShardInNotWrapAroundRange (sh : ShardLookup) (start stop : Token) (shardIdx : Nat) :
    Token :=
  let t := Token.fromInt64 (start.toInt64 + 1)
  let t := if sh.shardOf t ≠ shardIdx then sh.tokenForNextShard t shardIdx 1 else t
  if Token.compare stop t = .lt then stop else t

/-- find_first_token_for_shard: the first token of the shard in the ring range (start, end], or `end`; a
wrapping range is searched up to the maximum token and then from the minimum token. -/
def findFirstTokenForShard (sh : ShardLookup) (start stop : Token) (shardIdx : Nat) : Token :=
  if Token.compare start stop = .lt then
    findFirstTokenForShardInNotWrapAroundRange sh start stop shardIdx
  else
    let t := findFirstTokenForShardInNotWrapAroundRange sh start Token.maximum shardIdx
    if start.toInt64 ≠ Int64.maxValue ∧ !t.isMaximum then t
    else findFirstTokenForShardInNotWrapAroundRange sh Token.minimum stop shardIdx

end Scylla.Dht
