import Mathlib

/-!
# Tokens

A partition key's token is a 64-bit integer; two more tokens stand before and after all keys.
A raw token is the bare integer, INT64_MIN standing for the disengaged one.  `unbias` moves the
integers to unsigned order, and the compaction group of a token is the top bits of that
(`compactionGroupOfRaw_eq`), so it grows with the token (`compactionGroupOfRaw_mono`).

The legal tokens are the minimum token, the keys other than INT64_MIN and the maximum token; `tokenAt`
lists them by their ring position `Token.index`, from 0 to 2^64, and they compare as their positions
(`Token.compare_eq_lt_iff`).
-/

namespace Scylla.Dht

/-- dht::token_kind -/
inductive TokenKind where
  | beforeAllKeys
  | key
  | afterAllKeys
  deriving DecidableEq, Repr

/-- dht::token -/
structure Token where
  kind : TokenKind
  data : Int64
  deriving DecidableEq, Repr

/-- The order of token kinds: before all keys, keys, after all keys. -/
def TokenKind.rank : TokenKind → Nat
  | .beforeAllKeys => 0
  | .key => 1
  | .afterAllKeys => 2

namespace Token

/-- token::minimum -/
def minimum : Token := ⟨.beforeAllKeys, Int64.minValue⟩

/-- token::maximum -/
def maximum : Token := ⟨.afterAllKeys, Int64.minValue⟩

/-- token(raw_token): the disengaged raw token is the token before all keys. -/
def ofRaw (raw : Int64) : Token := ⟨if raw ≠ Int64.minValue then .key else .beforeAllKeys, raw⟩

def isMinimum (t : Token) : Bool := t.kind == .beforeAllKeys

def isMaximum (t : Token) : Bool := t.kind == .afterAllKeys

/-- token::raw -/
def raw (t : Token) : Int64 := if t.isMaximum then Int64.maxValue else t.data

/-- token::unbias -/
def unbias (t : Token) : UInt64 := t.data.toUInt64 + Int64.minValue.toUInt64

/-- `token <= raw_token`, through raw_token's comparison with a token: every raw token is below the
token after all keys, and the others compare by their data. -/
def leRaw (t : Token) (r : Int64) : Bool := t.kind != .afterAllKeys && decide (t.data ≤ r)

/-- token::operator<=>: by kind, and keys by their data. -/
def compare (a b : Token) : Ordering :=
  if a.kind.rank < b.kind.rank then .lt
  else if b.kind.rank < a.kind.rank then .gt
  else if a.kind = .key then
    if a.data < b.data then .lt else if a.data = b.data then .eq else .gt
  else .eq

/-- token::midpoint: the midpoint of the two data words taken as unsigned integers. -/
def midpoint (t1 t2 : Token) : Token :=
  let l1 := t1.data.toUInt64
  let l2 := t2.data.toUInt64
  ⟨.key, (l1 + (l2 - l1) / 2).toInt64⟩

@[simp] theorem data_ofRaw (raw : Int64) : (ofRaw raw).data = raw := rfl

@[simp] theorem isMaximum_ofRaw (raw : Int64) : (ofRaw raw).isMaximum = false := by
  unfold ofRaw isMaximum
  split <;> rfl

@[simp] theorem raw_ofRaw (raw : Int64) : (ofRaw raw).raw = raw := by
  simp [Token.raw]

/-- A token lies after a key below INT64_MAX exactly when it is not at or below the key's integer in
the order of raw tokens. -/
theorem compare_eq_gt_iff {t s : Token} (hs : s.kind = .key) (hmax : s.data < Int64.maxValue) :
    (compare t s == .gt) = !(t.isMinimum || decide (t.raw ≤ s.data)) := by
  obtain ⟨kind, d⟩ := t
  cases kind with
  | beforeAllKeys => simp [compare, TokenKind.rank, hs, isMinimum]
  | afterAllKeys =>
    have hnle : ¬ Int64.maxValue ≤ s.data := Int64.not_le.2 hmax
    simp [compare, TokenKind.rank, hs, isMinimum, raw, isMaximum, hnle]
  | key =>
    -- Two keys compare by their integers.
    simp only [compare, TokenKind.rank, hs, Nat.lt_irrefl, if_false, if_true, isMinimum, raw, isMaximum]
    by_cases hlt : d < s.data
    · simp [hlt, Int64.le_of_lt hlt]
    · by_cases heq : d = s.data
      · simp [heq]
      · have hnle : ¬ d ≤ s.data := fun h => hlt (Int64.lt_of_le_of_ne h heq)
        simp [hlt, heq, hnle]

/-- Unbiasing adds 2^63 to the integer. -/
theorem toNat_unbias (t : Token) : (t.unbias.toNat : Int) = t.data.toInt + 2 ^ 63 := by
  have hm : Int64.minValue.toUInt64.toNat = 2 ^ 63 := by decide
  have hx : t.data.toUInt64.toNat = t.data.toBitVec.toNat := (Int64.toNat_toBitVec _).symm
  have hi := BitVec.toInt_eq_toNat_cond t.data.toBitVec
  have hlt := t.data.toBitVec.isLt
  rw [Int64.toInt_toBitVec] at hi
  rw [unbias, UInt64.toNat_add, hm, hx]
  split_ifs at hi <;> omega

/-- Between tokens in order, the unsigned midpoint is the signed one. -/
theorem toInt_midpoint {a b : Token} (h : a.data ≤ b.data) :
    (midpoint a b).data.toInt = a.data.toInt + (b.data.toInt - a.data.toInt) / 2 := by
  have ha := BitVec.toInt_eq_toNat_cond a.data.toBitVec
  have hb := BitVec.toInt_eq_toNat_cond b.data.toBitVec
  have hm := BitVec.toInt_eq_toNat_cond (midpoint a b).data.toBitVec
  have hle := Int64.le_iff_toInt_le.1 h
  rw [Int64.toInt_toBitVec] at ha hb hm
  -- The unsigned words: the difference wraps back to `b - a`, and the sum to the signed midpoint.
  have hmid : (midpoint a b).data.toBitVec.toNat =
      (a.data.toUInt64.toNat + (2 ^ 64 - a.data.toUInt64.toNat + b.data.toUInt64.toNat) % 2 ^ 64 / 2) %
        2 ^ 64 := by
    show (a.data.toUInt64 + (b.data.toUInt64 - a.data.toUInt64) / 2).toNat = _
    rw [UInt64.toNat_add, UInt64.toNat_div, UInt64.toNat_sub]
    rfl
  have hA : a.data.toBitVec.toNat = a.data.toUInt64.toNat := rfl
  have hB : b.data.toBitVec.toNat = b.data.toUInt64.toNat := rfl
  have hAl := a.data.toUInt64.toNat_lt
  have hBl := b.data.toUInt64.toNat_lt
  rw [hmid] at hm
  rw [hA] at ha
  rw [hB] at hb
  split_ifs at ha hb hm <;> omega

/-- token::bias: an unsigned value moved back to a key. -/
def bias (n : UInt64) : Token := ⟨.key, (n - Int64.minValue.toUInt64).toInt64⟩

/-- token::to_int64, which is long_token: the data word, whatever the kind. -/
def toInt64 (t : Token) : Int64 := t.data

/-- token::from_int64: a key through the private constructor, which does not coerce INT64_MIN. -/
def fromInt64 (i : Int64) : Token := ⟨.key, i⟩

/-- token::token(int64_t), which coerces INT64_MIN, no legal key, into INT64_MAX. -/
def ofInt64 (d : Int64) : Token := ⟨.key, if d = Int64.minValue then Int64.maxValue else d⟩

/-- token::shard_of_minimum_token -/
def shardOfMinimumToken : Nat := 0

/-- The position of a token on the ring: 0 before all keys, then a key's unbiased value, and 2^64 after
all keys.  The legal keys have the positions in between. -/
def index (t : Token) : Nat :=
  match t.kind with
  | .beforeAllKeys => 0
  | .key => t.unbias.toNat
  | .afterAllKeys => 2 ^ 64

@[simp] theorem unbias_bias (n : UInt64) : (bias n).unbias = n := by
  show (n - Int64.minValue.toUInt64).toInt64.toUInt64 + Int64.minValue.toUInt64 = n
  rw [UInt64.toUInt64_toInt64, UInt64.sub_add_cancel]

end Token

/-- The legal token at a ring position. -/
def tokenAt (j : Nat) : Token :=
  if j = 0 then Token.minimum else if j < 2 ^ 64 then Token.bias j.toUInt64 else Token.maximum

theorem tokenAt_of_pos {j : Nat} (h0 : 0 < j) (h : j < 2 ^ 64) : tokenAt j = Token.bias j.toUInt64 := by
  rw [tokenAt, if_neg (Nat.pos_iff_ne_zero.1 h0), if_pos h]

theorem tokenAt_of_le {j : Nat} (h : 2 ^ 64 ≤ j) : tokenAt j = Token.maximum := by
  rw [tokenAt, if_neg (by omega), if_neg (by omega)]

@[simp] theorem index_tokenAt {j : Nat} (h : j ≤ 2 ^ 64) : (tokenAt j).index = j := by
  unfold tokenAt
  split_ifs with h0 hlt
  · simp [h0, Token.index, Token.minimum]
  · show (Token.bias j.toUInt64).unbias.toNat = j
    rw [Token.unbias_bias, UInt64.toNat_ofNat_of_lt' hlt]
  · simp [Token.index, Token.maximum]
    omega

/-- A key's data is its position less 2^63; the minimum token's data INT64_MIN continues it to 0. -/
theorem toInt_data_tokenAt {j : Nat} (h : j < 2 ^ 64) : (tokenAt j).data.toInt = j - 2 ^ 63 := by
  unfold tokenAt
  split_ifs with h0
  · simp [h0, Token.minimum]
  · have hu := Token.toNat_unbias (Token.bias j.toUInt64)
    rw [Token.unbias_bias, UInt64.toNat_ofNat_of_lt' h] at hu
    omega

theorem Token.toNat_unbias_lt_iff {a b : Token} : a.unbias.toNat < b.unbias.toNat ↔ a.data < b.data := by
  have ha := Token.toNat_unbias a
  have hb := Token.toNat_unbias b
  rw [Int64.lt_iff_toInt_lt]
  omega

theorem Token.toNat_unbias_pos_iff {a : Token} : 0 < a.unbias.toNat ↔ a.data ≠ Int64.minValue := by
  have ha := Token.toNat_unbias a
  have hle := Int64.le_toInt a.data
  rw [ne_eq, ← Int64.toInt_inj, Int64.toInt_minValue]
  omega

/-- Tokens compare as their ring positions, unless the right one is the illegal key INT64_MIN, which
shares position 0 with the minimum token. -/
theorem Token.compare_eq_lt_iff {a b : Token} (hb : b.kind = .key → b.data ≠ Int64.minValue) :
    Token.compare a b = .lt ↔ a.index < b.index := by
  obtain ⟨ka, da⟩ := a
  obtain ⟨kb, db⟩ := b
  have hlt : ∀ t : Token, t.unbias.toNat < 2 ^ 64 := fun t => t.unbias.toNat_lt
  cases ka <;> cases kb
  all_goals simp only [Token.compare, Token.index, TokenKind.rank]
  · simp
  · simpa [Token.toNat_unbias_pos_iff] using hb rfl
  · simp
  · simp
  · simp only [Nat.lt_irrefl, if_false, if_true]
    rw [Token.toNat_unbias_lt_iff]
    split_ifs <;> simp_all
  · simpa using hlt ⟨.key, da⟩
  · simp
  · have := hlt ⟨.key, db⟩
    simp only [Nat.reduceLT, if_false, if_true, reduceCtorEq, false_iff, Nat.not_lt]
    omega
  · simp

theorem legal_tokenAt (j : Nat) : (tokenAt j).kind = .key → (tokenAt j).data ≠ Int64.minValue := by
  intro hk
  rcases Nat.eq_zero_or_pos j with rfl | h0
  · simp [tokenAt, Token.minimum] at hk
  · rcases Nat.lt_or_ge j (2 ^ 64) with h | h
    · rw [← Token.toNat_unbias_pos_iff, tokenAt_of_pos h0 h, Token.unbias_bias,
        UInt64.toNat_ofNat_of_lt' h]
      exact h0
    · simp [tokenAt_of_le h, Token.maximum] at hk

theorem compare_tokenAt_eq_lt {t : Token} {j : Nat} (hj : j ≤ 2 ^ 64) :
    Token.compare t (tokenAt j) = .lt ↔ t.index < j := by
  rw [Token.compare_eq_lt_iff (legal_tokenAt j), index_tokenAt hj]

theorem isMaximum_tokenAt {j : Nat} : (tokenAt j).isMaximum ↔ 2 ^ 64 ≤ j := by
  rcases Nat.lt_or_ge j (2 ^ 64) with h | h
  · unfold tokenAt
    split_ifs <;> simp [Token.isMaximum, Token.minimum, Token.bias] <;> omega
  · simp [tokenAt_of_le h, Token.isMaximum, Token.maximum]
    omega

theorem bias_eq_tokenAt {n : UInt64} (h : 0 < n.toNat) : Token.bias n = tokenAt n.toNat := by
  rw [tokenAt_of_pos h n.toNat_lt]
  simp

/-- The key after a token below the last key, as find_first_token_for_shard steps to it. -/
theorem fromInt64_toInt64_tokenAt {j : Nat} (h : j + 1 < 2 ^ 64) :
    Token.fromInt64 ((tokenAt j).toInt64 + 1) = tokenAt (j + 1) := by
  have hk : (tokenAt (j + 1)).kind = .key := by
    rw [tokenAt_of_pos (Nat.succ_pos j) h]
    rfl
  -- No overflow: the data of a key below the last one grows by one.
  have hd : ((tokenAt j).data + 1).toInt = (tokenAt (j + 1)).data.toInt := by
    rw [Int64.toInt_add, Int64.toInt_one, toInt_data_tokenAt (by omega), toInt_data_tokenAt h]
    have h1 : -2 ^ 63 ≤ (j : Int) - 2 ^ 63 + 1 := by omega
    have h2 : (j : Int) - 2 ^ 63 + 1 < 2 ^ 63 := by omega
    rw [Int.bmod_eq_of_le h1 h2]
    push_cast
    omega
  calc Token.fromInt64 ((tokenAt j).toInt64 + 1) = ⟨(tokenAt (j + 1)).kind, (tokenAt (j + 1)).data⟩ := by
        rw [hk, ← Int64.toInt_inj.1 hd]
        rfl
    _ = tokenAt (j + 1) := rfl

theorem toInt64_tokenAt_eq_maxValue_iff {j : Nat} (h : j < 2 ^ 64) :
    (tokenAt j).toInt64 = Int64.maxValue ↔ j = 2 ^ 64 - 1 := by
  rw [Token.toInt64, ← Int64.toInt_inj, toInt_data_tokenAt h, Int64.toInt_maxValue]
  omega

/-- compaction_group_of(most_significant_bits, const token&) -/
def compactionGroupOf (mostSignificantBits : Nat) (t : Token) : Nat :=
  if mostSignificantBits = 0 then 0
  else
    match t.kind with
    | .beforeAllKeys => 0
    -- The source shifts an int; the model's value is exact below 31 bits.
    | .afterAllKeys => 2 ^ mostSignificantBits - 1
    | .key => (t.unbias >>> (64 - mostSignificantBits).toUInt64).toNat

/-- compaction_group_of(most_significant_bits, dht::raw_token), which unbiases the raw token
through its conversion to a token. -/
def compactionGroupOfRaw (mostSignificantBits : Nat) (t : Int64) : Nat :=
  if mostSignificantBits = 0 then 0
  else ((Token.ofRaw t).unbias >>> (64 - mostSignificantBits).toUInt64).toNat

theorem compactionGroupOfRaw_eq {L : Nat} (hL : L ≤ 64) (t : Int64) :
    compactionGroupOfRaw L t = if L = 0 then 0 else (t.toInt + 2 ^ 63).toNat / 2 ^ (64 - L) := by
  unfold compactionGroupOfRaw
  split
  · rfl
  · have hs : (64 - L).toUInt64.toNat % 64 = 64 - L := by
      simp [Nat.toUInt64]
      omega
    have hu := Token.toNat_unbias (Token.ofRaw t)
    simp only [Token.data_ofRaw] at hu
    rw [UInt64.toNat_shiftRight, hs, Nat.shiftRight_eq_div_pow,
      show (Token.ofRaw t).unbias.toNat = (t.toInt + 2 ^ 63).toNat by omega]

theorem compactionGroupOfRaw_mono {L : Nat} (hL : L ≤ 64) {x y : Int64} (h : x ≤ y) :
    compactionGroupOfRaw L x ≤ compactionGroupOfRaw L y := by
  rw [compactionGroupOfRaw_eq hL, compactionGroupOfRaw_eq hL]
  by_cases h0 : L = 0
  · simp [h0]
  · have := Int64.le_iff_toInt_le.1 h
    simp only [h0, if_false]
    exact Nat.div_le_div_right (by omega)

theorem compactionGroupOf_ofRaw (L : Nat) (x : Int64) :
    compactionGroupOf L (Token.ofRaw x) = compactionGroupOfRaw L x := by
  unfold compactionGroupOf compactionGroupOfRaw
  split
  · rfl
  · by_cases hx : x = Int64.minValue
    · -- The disengaged raw token is the token before all keys, whose unbiased value is 0.
      have hk : (Token.ofRaw x).kind = .beforeAllKeys := by simp [Token.ofRaw, hx]
      have hu : (Token.ofRaw x).unbias = 0 := by subst hx; decide
      simp [hk, hu]
    · simp [Token.ofRaw, hx]

end Scylla.Dht
