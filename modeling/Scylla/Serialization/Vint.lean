import Mathlib
import Scylla.Lib.Word

/-!
# Variable-length integers

`vint-serialization.cc`: the unsigned vint of the native protocol writes a `uint64_t` in one to nine bytes, most
significant first; the leading ones of the first byte count the bytes that follow, and a zero bit ends them
unless all nine are used.  The signed vint is the unsigned vint of the zigzag image of an `int64_t`.

The writer is branch free: it rotates each byte into the low byte and sends the writes it does not want to a
thread-local byte.  The reader loads the eight bytes after the first at once and shifts the unwanted ones out,
in two halves since a shift by 64 is undefined.  `Output` holds the memory that `serialize` writes, and
`deserialize` reads the memory at `v.data()` as a function, since it neither checks the length of its view nor,
when it may over-read, which bytes it loads.

* `serializedSize_le_iff`: `serialized_size(x)` is the least `n ≥ 1` with `x < 2^(7n)`, or nine.
* `serialize_bytes`: `serialize` writes `encoding x`, of `serialized_size(x)` bytes, at `out` and nothing else.
* `toNat_deserialize`: what `deserialize` computes from the first `1 + count_extra_bytes` bytes, whatever
  follows them; `deserialize_encoding` reads every encoding back.
* `decodeZigzag_encodeZigzag`, `encodeZigzag_decodeZigzag`: the zigzag mapping is a bijection, through the
  order `0, -1, 1, -2, 2, …` of the protocol's comment (`toNat_encodeZigzag`, `toInt_decodeZigzag`).
-/

namespace Scylla.Vint

open Word

/-! ### The code -/

/-- `encode_zigzag`; the right shift is arithmetic. -/
def encodeZigzag (n : Int64) : UInt64 := (n.toUInt64 <<< 1) ^^^ (n >>> 63).toUInt64

def decodeZigzag (n : UInt64) : Int64 := ((n >>> 1) ^^^ -(n &&& 1)).toInt64

/-- `first_byte_value_mask`: the bits of the first byte not used for the length, with the sentinel zero bit. -/
def firstByteValueMask (extraBytesSize : Nat) : UInt64 := 0xff >>> extraBytesSize.toUInt64

/-- `count_extra_bytes`: the number of bytes after the first. -/
def countExtraBytes (firstByte : UInt8) : Nat := countlZero 8 (~~~firstByte).toNat

/-- `unsigned_vint::serialized_size`.  The division truncates toward zero as in C++, so that `magnitude = 0`
gives nine bytes. -/
def serializedSize (value : UInt64) : Nat :=
  let magnitude : Int := countlZero 64 (value ||| 1).toNat
  (9 - (magnitude - 1).tdiv 7).toNat

def serializedSizeFromFirstByte (firstByte : UInt8) : Nat := 1 + countlZero 8 (~~~firstByte).toNat

/-- `std::rotl` on a 64-bit word; a negative count rotates right, which is a rotation left modulo 64. -/
def rotl (x : UInt64) (s : Int) : UInt64 := UInt64.ofBitVec (x.toBitVec.rotateLeft (s % 64).toNat)

/-- The memory that `serialize` writes: the output buffer, and the thread-local byte `garbage`. -/
structure Output where
  bytes : Nat → UInt8
  garbage : UInt8

def Output.write (o : Output) (p : Nat) (b : UInt8) : Output := { o with bytes := Function.update o.bytes p b }

/-- The unrolled loop of `unsigned_vint::serialize` with `k` iterations left: rotate the next byte of `value`
into the low byte, and write it at `out` while extra bytes remain, to `garbage` after. -/
def serializeLoop : Nat → UInt64 → Nat → Int → Output → Output
  | 0, _, _, _, o => o
  | k + 1, value, out, extraBytesSize, o =>
    let value := rotl value 8
    let o := if 0 < extraBytesSize then o.write out value.toUInt8 else { o with garbage := value.toUInt8 }
    serializeLoop k value (out + 1) (extraBytesSize - 1) o

/-- `unsigned_vint::serialize` at position `out`: the size, and the memory after the writes. -/
def serialize (value : UInt64) (out : Nat) (o : Output) : Nat × Output :=
  let size := serializedSize value
  let extraBytesSize : Int := size - 1
  let mask := firstByteValueMask extraBytesSize.toNat
  let shift := extraBytesSize.toNat * 8 % 64
  let o := o.write out (((value >>> shift.toUInt64) &&& mask) ||| ~~~mask).toUInt8
  let value := rotl value ((8 - extraBytesSize) * 8)
  (size, serializeLoop 8 value (out + 1) extraBytesSize o)

/-- `unsigned_vint::deserialize` on a little-endian machine; `src i` is the byte at `v.data() + i`. -/
def deserialize (src : Nat → UInt8) (canOverread : Bool) : UInt64 :=
  let firstByte := src 0
  let extraBytesSize := countExtraBytes firstByte
  -- `uint64_t(first_byte)` sign-extends the `int8_t`.
  let result := firstByte.toInt8.toInt64.toUInt64 &&& firstByteValueMask extraBytesSize
  -- The eight bytes of `value` in memory; without over-read only `extra_bytes_size` of them are copied.
  let loaded := (List.range 8).map fun i =>
    if canOverread || decide (i < extraBytesSize) then src (i + 1) else 0
  let value := UInt64.ofNat (ofBeBytes loaded)
  let shift := 64 - extraBytesSize * 8
  let value := (value >>> (shift / 2).toUInt64) >>> (shift / 2).toUInt64
  let result := result <<< (extraBytesSize * 8 % 64).toUInt64
  result ||| value

def signedSerialize (value : Int64) (out : Nat) (o : Output) : Nat × Output :=
  serialize (encodeZigzag value) out o

def signedSerializedSize (value : Int64) : Nat := serializedSize (encodeZigzag value)

def signedDeserialize (src : Nat → UInt8) (canOverread : Bool) : Int64 :=
  decodeZigzag (deserialize src canOverread)

/-! ### Zigzag -/

/-- The position of an integer in the order `0, -1, 1, -2, 2, …` of the native protocol. -/
def zigzag (n : Int) : Nat := if 0 ≤ n then 2 * n.toNat else 2 * (-n).toNat - 1

/-- The integer at a position of that order. -/
def unzigzag (u : Nat) : Int := if u % 2 = 0 then ((u / 2 : Nat) : Int) else -((u / 2 : Nat) : Int) - 1

theorem unzigzag_zigzag (n : Int) : unzigzag (zigzag n) = n := by
  unfold zigzag unzigzag
  split_ifs <;> omega

theorem zigzag_unzigzag (u : Nat) : zigzag (unzigzag u) = u := by
  unfold zigzag unzigzag
  split_ifs <;> omega

/-- An arithmetic shift by 63 spreads the sign bit over the word. -/
theorem sshiftRight_sixtyThree (x : BitVec 64) :
    x.sshiftRight 63 = if x.msb then BitVec.allOnes 64 else 0 := by
  apply BitVec.eq_of_getLsbD_eq
  intro i hi
  have hbit : (if 63 + i < 64 then x.getLsbD (63 + i) else x.msb) = x.msb := by
    split_ifs with h
    · rw [BitVec.msb_eq_getLsbD_last, show 63 + i = 64 - 1 by omega]
    · rfl
  rw [BitVec.getLsbD_sshiftRight, hbit]
  split_ifs with h
  · simp only [h, BitVec.getLsbD_allOnes, hi, decide_true, Bool.and_true, Bool.not_eq_true',
      decide_eq_false_iff_not, Nat.not_le]
  · simp [h]

theorem toNat_shiftRight_sixtyThree (n : Int64) :
    (n >>> 63).toUInt64.toNat = if n.toInt < 0 then 2 ^ 64 - 1 else 0 := by
  have h : (n >>> 63).toUInt64.toNat = (n.toBitVec.sshiftRight 63).toNat := by
    simp [← Int64.toNat_toBitVec]
  rw [h, sshiftRight_sixtyThree, BitVec.msb_eq_toInt, Int64.toInt_toBitVec]
  by_cases hn : n.toInt < 0
  · simp only [hn, decide_true, if_true, BitVec.toNat_allOnes]
  · simp only [hn, decide_false, Bool.false_eq_true, if_false]
    rfl

/-- A two's complement word read as an integer. -/
theorem toInt_eq_toNat_cond (n : Int64) :
    n.toInt = if 2 * n.toUInt64.toNat < 2 ^ 64 then (n.toUInt64.toNat : Int) else n.toUInt64.toNat - 2 ^ 64 := by
  rw [← Int64.toInt_toBitVec, BitVec.toInt_eq_toNat_cond, Int64.toNat_toBitVec]
  push_cast
  rfl

theorem toNat_encodeZigzag (n : Int64) : (encodeZigzag n).toNat = zigzag n.toInt := by
  have ha := n.toUInt64.toNat_lt
  have hint := toInt_eq_toNat_cond n
  have hshl : (n.toUInt64 <<< 1).toNat = 2 * n.toUInt64.toNat % 2 ^ 64 := by
    rw [UInt64.toNat_shiftLeft, Nat.shiftLeft_eq]
    simp [Nat.mul_comm]
  rw [encodeZigzag, UInt64.toNat_xor, hshl, toNat_shiftRight_sixtyThree, zigzag]
  split_ifs with hneg hpos hpos
  · omega
  · -- A negative word: the shifted word flipped bit by bit.
    rw [xor_two_pow_sub_one (Nat.mod_lt _ (by positivity))]
    omega
  · rw [Nat.xor_zero]
    omega
  · omega

theorem toInt_decodeZigzag (u : UInt64) : (decodeZigzag u).toInt = unzigzag u.toNat := by
  have hu := u.toNat_lt
  have hx : ((u >>> 1) ^^^ -(u &&& 1)).toNat =
      if u.toNat % 2 = 0 then u.toNat / 2 else 2 ^ 64 - 1 - u.toNat / 2 := by
    rw [UInt64.toNat_xor, UInt64.toNat_neg, UInt64.toNat_and, UInt64.toNat_shiftRight]
    simp only [UInt64.reduceToNat, Nat.reduceMod, Nat.shiftRight_eq_div_pow, pow_one, Nat.and_one_is_mod,
      UInt64.size]
    split_ifs with h
    · rw [h, Nat.sub_zero, Nat.mod_self, Nat.xor_zero]
    · rw [show u.toNat % 2 = 1 by omega, Nat.mod_eq_of_lt (by omega), show (18446744073709551616 : Nat) = 2 ^ 64 from rfl,
        xor_two_pow_sub_one (by omega)]
  have hint : (decodeZigzag u).toInt = BitVec.toInt ((u >>> 1) ^^^ -(u &&& 1)).toBitVec := rfl
  rw [hint, BitVec.toInt_eq_toNat_cond, UInt64.toNat_toBitVec, hx, unzigzag]
  split_ifs <;> omega

theorem decodeZigzag_encodeZigzag (n : Int64) : decodeZigzag (encodeZigzag n) = n :=
  Int64.toInt_inj.1 (by rw [toInt_decodeZigzag, toNat_encodeZigzag, unzigzag_zigzag])

theorem encodeZigzag_decodeZigzag (u : UInt64) : encodeZigzag (decodeZigzag u) = u :=
  UInt64.toNat_inj.1 (by rw [toNat_encodeZigzag, toInt_decodeZigzag, zigzag_unzigzag])

/-! ### The size -/

/-- `value | 1` has at most `k ≥ 1` bits exactly when `value < 2 ^ k`. -/
theorem size_or_one_le_iff (x : Nat) {k : Nat} (hk : 0 < k) : (x ||| 1).size ≤ k ↔ x < 2 ^ k := by
  rw [Nat.size_le]
  constructor
  · exact lt_of_le_of_lt Nat.left_le_or
  · intro h
    exact Nat.or_lt_two_pow h (Nat.one_lt_two_pow hk.ne')

/-- `value | 1` has between one and 64 bits. -/
theorem size_or_one_bounds (x : UInt64) : 0 < (x.toNat ||| 1).size ∧ (x.toNat ||| 1).size ≤ 64 :=
  ⟨Nat.size_pos.2 (lt_of_lt_of_le Nat.one_pos Nat.right_le_or),
    (size_or_one_le_iff _ (by norm_num)).2 x.toNat_lt⟩

/-- `serialized_size` in terms of the bits `b` of `value | 1`: nine bytes for `b = 64`, where
`magnitude - 1 = -1` truncates to zero, and `9 - (63 - b) / 7` below. -/
theorem serializedSize_eq (x : UInt64) :
    serializedSize x = if (x.toNat ||| 1).size = 64 then 9 else 9 - (63 - (x.toNat ||| 1).size) / 7 := by
  have hle := (size_or_one_bounds x).2
  unfold serializedSize countlZero
  dsimp only
  rw [UInt64.toNat_or, UInt64.toNat_one]
  generalize (x.toNat ||| 1).size = b at *
  split_ifs with h
  · subst h
    rfl
  · rw [show ((64 - b : Nat) : Int) - 1 = ((63 - b : Nat) : Int) by omega, Int.natCast_tdiv_eq_ediv]
    omega

theorem serializedSize_le_iff (x : UInt64) {n : Nat} (h₀ : 0 < n) (h₉ : n < 9) :
    serializedSize x ≤ n ↔ x.toNat < 2 ^ (7 * n) := by
  have hle := (size_or_one_bounds x).2
  rw [← size_or_one_le_iff x.toNat (by omega), serializedSize_eq]
  split_ifs <;> omega

theorem one_le_serializedSize (x : UInt64) : 1 ≤ serializedSize x := by
  have hpos := (size_or_one_bounds x).1
  rw [serializedSize_eq]
  split_ifs <;> omega

theorem serializedSize_le_nine (x : UInt64) : serializedSize x ≤ 9 := by
  rw [serializedSize_eq]
  split_ifs <;> omega

/-- Below nine bytes, the value fits in the seven bits per byte that the format leaves it. -/
theorem lt_of_serializedSize_lt (x : UInt64) (h : serializedSize x < 9) :
    x.toNat < 2 ^ (7 * serializedSize x) :=
  (serializedSize_le_iff x (one_le_serializedSize x) h).1 le_rfl

/-! ### What `serialize` writes -/

/-- The bytes of `x` in the format: the first byte holds `size - 1` leading ones, a zero bit unless all nine
bytes are used, and the high bits of `x`; the other `size - 1` bytes are the low bytes of `x`, most
significant first. -/
def encoding (x : UInt64) : List UInt8 :=
  let e := serializedSize x - 1
  UInt8.ofNat (256 - 2 ^ (8 - e) + x.toNat / 256 ^ e) :: beBytes e x.toNat

@[simp] theorem length_encoding (x : UInt64) : (encoding x).length = serializedSize x := by
  have := one_le_serializedSize x
  simp only [encoding, List.length_cons, length_beBytes]
  omega

/-- The memory `m` with the bytes of `l` written from position `p` on. -/
def overwrite (m : Nat → UInt8) (p : Nat) (l : List UInt8) (j : Nat) : UInt8 :=
  if p ≤ j then l.getD (j - p) (m j) else m j

@[simp] theorem overwrite_nil (m : Nat → UInt8) (p : Nat) : overwrite m p [] = m := by
  funext j
  simp [overwrite]

theorem overwrite_cons (m : Nat → UInt8) (p : Nat) (b : UInt8) (l : List UInt8) :
    overwrite m p (b :: l) = overwrite (Function.update m p b) (p + 1) l := by
  funext j
  unfold overwrite
  rcases lt_trichotomy j p with h | rfl | h
  · rw [if_neg (by omega), if_neg (by omega), Function.update_of_ne (by omega)]
  · simp
  · rw [if_pos h.le, if_pos (show p + 1 ≤ j by omega), Function.update_of_ne (by omega),
      show j - p = (j - (p + 1)) + 1 by omega, List.getD_cons_succ]

/-- The value below the length bits fits in the bits of the first byte they leave, below the sentinel. -/
theorem high_mul_two_lt (x : UInt64) :
    x.toNat / 256 ^ (serializedSize x - 1) * 2 < 2 ^ (8 - (serializedSize x - 1)) := by
  have h₁ := one_le_serializedSize x
  have h₉ := serializedSize_le_nine x
  rcases h₉.lt_or_eq with h | h
  · -- `x < 2 ^ (7 * size)`, and `256 ^ (size - 1) = 2 ^ (8 * (size - 1))`.
    obtain ⟨e, he⟩ : ∃ e, serializedSize x = e + 1 := ⟨_, (Nat.sub_add_cancel h₁).symm⟩
    have hx := lt_of_serializedSize_lt x h
    rw [he] at hx h ⊢
    rw [Nat.add_sub_cancel]
    have hpow : 2 ^ (7 * (e + 1)) = 2 ^ (7 - e) * 256 ^ e := by
      rw [show (256 : Nat) = 2 ^ 8 from rfl, ← pow_mul, ← pow_add]
      congr 1
      omega
    have hdiv : x.toNat / 256 ^ e < 2 ^ (7 - e) := by
      rw [Nat.div_lt_iff_lt_mul (by positivity), ← hpow]
      exact hx
    calc x.toNat / 256 ^ e * 2 < 2 ^ (7 - e) * 2 := by omega
      _ = 2 ^ (8 - e) := by rw [← pow_succ]; congr 1; omega
  · rw [h]
    show x.toNat / 256 ^ 8 * 2 < 2 ^ 0
    rw [Nat.div_eq_of_lt (show x.toNat < 256 ^ 8 from x.toNat_lt)]
    decide


theorem toNat_firstByteValueMask {e : Nat} (he : e ≤ 8) : (firstByteValueMask e).toNat = 2 ^ (8 - e) - 1 := by
  interval_cases e <;> rfl

/-- The first byte that `serialize` writes for `e` extra bytes, when the bits of the value above them fit
below the length bits. -/
theorem firstByte_eq (x : UInt64) {e : Nat} (he : e ≤ 8) (hy : x.toNat / 256 ^ e < 2 ^ (8 - e)) :
    (((x >>> (e * 8 % 64).toUInt64) &&& firstByteValueMask e) ||| ~~~firstByteValueMask e).toUInt8 =
      UInt8.ofNat (256 - 2 ^ (8 - e) + x.toNat / 256 ^ e) := by
  have hm := toNat_firstByteValueMask he
  have hp : 1 ≤ 2 ^ (8 - e) := Nat.one_le_two_pow
  have hp8 : 2 ^ (8 - e) ≤ 2 ^ 8 := Nat.pow_le_pow_right (by norm_num) (by omega)
  -- The shifted value under the mask is the part of `x` above the extra bytes.
  have hlow : ((x >>> (e * 8 % 64).toUInt64) &&& firstByteValueMask e).toNat = x.toNat / 256 ^ e := by
    rw [UInt64.toNat_and, UInt64.toNat_shiftRight, hm, Nat.and_two_pow_sub_one_eq_mod,
      Nat.shiftRight_eq_div_pow]
    rcases he.lt_or_eq with he | rfl
    · have hs : (e * 8 % 64).toUInt64.toNat % 64 = 8 * e := by
        simp only [Nat.toUInt64_eq, UInt64.toNat_ofNat']
        omega
      rw [hs, pow_mul, show (2 : Nat) ^ 8 = 256 from rfl, Nat.mod_eq_of_lt hy]
    · rw [Nat.div_eq_of_lt (show x.toNat < 256 ^ 8 from x.toNat_lt), Nat.sub_self, pow_zero, Nat.mod_one]
  -- The complemented mask puts ones above those bits.
  have hsplit : 2 ^ (8 - e) * (2 ^ e - 1) = 256 - 2 ^ (8 - e) := by
    rw [Nat.mul_sub_one, ← pow_add, Nat.sub_add_cancel he]
    rfl
  have hhigh : (~~~firstByteValueMask e).toNat % 2 ^ 8 = 2 ^ (8 - e) * (2 ^ e - 1) := by
    rw [UInt64.toNat_not, hm, hsplit]
    simp only [UInt64.size]
    omega
  apply UInt8.toNat_inj.1
  rw [UInt64.toNat_toUInt8, UInt64.toNat_or, Nat.or_mod_two_pow, hlow, hhigh,
    Nat.mod_eq_of_lt (lt_of_lt_of_le hy hp8), Nat.or_comm, ← Nat.two_pow_add_eq_or_of_lt hy,
    UInt8.toNat_ofNat', hsplit, Nat.mod_eq_of_lt (by omega)]


/-- Once the extra bytes are used up, the loop writes only to `garbage`. -/
theorem serializeLoop_bytes_of_nonpos :
    ∀ (k : Nat) (v : UInt64) (out : Nat) (e : Int) (o : Output), e ≤ 0 → (serializeLoop k v out e o).bytes = o.bytes
  | 0, _, _, _, _, _ => rfl
  | k + 1, v, out, e, o, he => by
    rw [serializeLoop, if_neg (by omega), serializeLoop_bytes_of_nonpos k _ _ _ _ (by omega)]

/-- The byte that lands in the low byte after rotating `x` left by `64 - 8 e`: byte `e` of `x`. -/
theorem toUInt8_rotateLeft (x : UInt64) {e : Nat} (he : e < 8) :
    (UInt64.ofBitVec (x.toBitVec.rotateLeft (64 - 8 * e))).toUInt8 = UInt8.ofNat (x.toNat / 256 ^ e) := by
  apply UInt8.toNat_inj.1
  rw [UInt64.toNat_toUInt8, UInt8.toNat_ofNat']
  show (x.toBitVec.rotateLeft (64 - 8 * e)).toNat % 2 ^ 8 = _
  rw [toNat_rotateLeft_mod_two_pow _ (by omega) (by omega), show 64 - (64 - 8 * e) = 8 * e by omega, pow_mul]
  rfl

/-- The loop writes the low `e` bytes of `x`, most significant first, when it starts from `x` rotated so
that the first of them comes next. -/
theorem serializeLoop_bytes (x : UInt64) :
    ∀ (k e out : Nat) (o : Output), e ≤ k → e ≤ 8 →
      (serializeLoop k (UInt64.ofBitVec (x.toBitVec.rotateLeft (64 - 8 * e))) out e o).bytes =
        overwrite o.bytes out (beBytes e x.toNat)
  | k, 0, out, o, _, _ => by
    rw [serializeLoop_bytes_of_nonpos k _ out ((0 : Nat) : Int) o (by simp), beBytes, overwrite_nil]
  | 0, e + 1, _, _, h, _ => absurd h (by omega)
  | k + 1, e + 1, out, o, hk, he => by
    -- One more rotation by a byte brings the next byte down.
    have hrot : rotl (UInt64.ofBitVec (x.toBitVec.rotateLeft (64 - 8 * (e + 1)))) 8 =
        UInt64.ofBitVec (x.toBitVec.rotateLeft (64 - 8 * e)) := by
      rw [rotl]
      congr 1
      rw [rotateLeft_rotateLeft]
      congr 1
      omega
    rw [serializeLoop, hrot, if_pos (by omega), show ((e + 1 : Nat) : Int) - 1 = (e : Int) by omega,
      serializeLoop_bytes x k e (out + 1) _ (by omega) (by omega), Output.write, beBytes_succ, overwrite_cons,
      toUInt8_rotateLeft x (by omega)]


theorem serialize_fst (x : UInt64) (out : Nat) (o : Output) : (serialize x out o).1 = serializedSize x := rfl

/-- `serialize` writes the encoding at `out` and leaves every other byte of the buffer as it was. -/
theorem serialize_bytes (x : UInt64) (out : Nat) (o : Output) :
    (serialize x out o).2.bytes = overwrite o.bytes out (encoding x) := by
  have h₁ := one_le_serializedSize x
  have h₉ := serializedSize_le_nine x
  obtain ⟨e, he⟩ : ∃ e, serializedSize x = e + 1 := ⟨_, (Nat.sub_add_cancel h₁).symm⟩
  have hy : x.toNat / 256 ^ e < 2 ^ (8 - e) := by
    have := high_mul_two_lt x
    rw [he, Nat.add_sub_cancel] at this
    omega
  have hext : (serializedSize x : Int) - 1 = (e : Int) := by omega
  -- The first rotation puts the top extra byte one rotation away from the low byte.
  have hrot : rotl x ((8 - (e : Int)) * 8) = UInt64.ofBitVec (x.toBitVec.rotateLeft (64 - 8 * e)) := by
    rw [rotl, ← BitVec.rotateLeft_mod_eq_rotateLeft (r := 64 - 8 * e)]
    congr 2
    omega
  unfold serialize
  dsimp only
  rw [hext, Int.toNat_natCast, hrot, serializeLoop_bytes x 8 e _ _ (by omega) (by omega), Output.write,
    firstByte_eq x (by omega) hy, encoding, he, Nat.add_sub_cancel, overwrite_cons]


/-! ### What `deserialize` reads -/

/-- The sign extension of `uint64_t(first_byte)` is masked off. -/
theorem toNat_toInt64_toUInt64_and (b : UInt8) {m : UInt64} (hm : m.toNat < 2 ^ 8) :
    (b.toInt8.toInt64.toUInt64 &&& m).toNat = b.toNat &&& m.toNat := by
  apply Nat.eq_of_testBit_eq
  intro i
  rw [UInt64.toNat_and, Nat.testBit_and, Nat.testBit_and]
  by_cases hi : i < 8
  · have hs : (b.toInt8.toInt64.toUInt64).toNat = (b.toBitVec.signExtend 64).toNat := rfl
    rw [hs, BitVec.testBit_toNat, BitVec.getLsbD_signExtend, ← UInt8.toNat_toBitVec, BitVec.testBit_toNat]
    simp [hi, show i < 64 by omega]
  · have : m.toNat.testBit i = false :=
      Nat.testBit_lt_two_pow (lt_of_lt_of_le hm (Nat.pow_le_pow_right (by norm_num) (by omega)))
    simp [this]

/-- The eight loaded bytes: the `e` bytes after the first, then others. -/
theorem loaded_eq (src : Nat → UInt8) (c : Bool) {e : Nat} (he : e ≤ 8) :
    ((List.range 8).map fun i => if c || decide (i < e) then src (i + 1) else 0) =
      (List.range e).map (fun i => src (i + 1)) ++
        (List.range (8 - e)).map (fun i => if c || decide (e + i < e) then src (e + i + 1) else 0) := by
  rw [show List.range 8 = List.range (e + (8 - e)) by congr 1; omega, List.range_add, List.map_append,
    List.map_map]
  congr 1
  apply List.map_congr_left
  intro i hi
  rw [List.mem_range] at hi
  simp [hi]

/-- The two half shifts drop the last `8 - e` of the loaded bytes. -/
theorem toNat_shiftRight_half_twice (v : UInt64) {e : Nat} (he : e ≤ 8) :
    ((v >>> ((64 - e * 8) / 2).toUInt64) >>> ((64 - e * 8) / 2).toUInt64).toNat = v.toNat / 256 ^ (8 - e) := by
  have hs : ((64 - e * 8) / 2).toUInt64.toNat % 64 = 4 * (8 - e) := by
    simp only [Nat.toUInt64_eq, UInt64.toNat_ofNat']
    omega
  rw [UInt64.toNat_shiftRight, UInt64.toNat_shiftRight, hs, Nat.shiftRight_eq_div_pow, Nat.shiftRight_eq_div_pow,
    Nat.div_div_eq_div_mul, ← pow_add, show 4 * (8 - e) + 4 * (8 - e) = 8 * (8 - e) by omega, pow_mul]
  rfl

/-- The bits of the first byte, shifted above the `e` extra bytes. -/
theorem toNat_shiftLeft_high {r : UInt64} {e : Nat} (he : e ≤ 8) (hr : r.toNat < 2 ^ (8 - e)) :
    (r <<< (e * 8 % 64).toUInt64).toNat = r.toNat * 256 ^ e := by
  rw [UInt64.toNat_shiftLeft, Nat.shiftLeft_eq]
  rcases he.lt_or_eq with he | rfl
  · have hs : (e * 8 % 64).toUInt64.toNat % 64 = 8 * e := by
      simp only [Nat.toUInt64_eq, UInt64.toNat_ofNat']
      omega
    have hlt : r.toNat * 2 ^ (8 * e) < 2 ^ 64 := by
      calc r.toNat * 2 ^ (8 * e) < 2 ^ (8 - e) * 2 ^ (8 * e) := Nat.mul_lt_mul_of_pos_right hr (by positivity)
        _ = 2 ^ (8 - e + 8 * e) := (pow_add _ _ _).symm
        _ ≤ 2 ^ 64 := Nat.pow_le_pow_right (by norm_num) (by omega)
    rw [hs, Nat.mod_eq_of_lt hlt, pow_mul]
    rfl
  · -- Nine bytes: the first byte holds no bits of the value.
    have : r.toNat = 0 := by simpa using hr
    simp [this]


theorem countExtraBytes_le (b : UInt8) : countExtraBytes b ≤ 8 := Nat.sub_le _ _

/-- What `deserialize` computes: the bits of the first byte below its leading ones, above the
`count_extra_bytes` bytes that follow it, whatever lies after those and whether or not it over-reads. -/
theorem toNat_deserialize (src : Nat → UInt8) (canOverread : Bool) :
    (deserialize src canOverread).toNat =
      (src 0).toNat % 2 ^ (8 - countExtraBytes (src 0)) * 256 ^ countExtraBytes (src 0) +
        ofBeBytes ((List.range (countExtraBytes (src 0))).map fun i => src (i + 1)) := by
  have he := countExtraBytes_le (src 0)
  unfold deserialize
  dsimp only
  generalize countExtraBytes (src 0) = e at *
  rw [loaded_eq src canOverread he]
  generalize hB : (List.range e).map (fun i => src (i + 1)) = B
  generalize hR : (List.range (8 - e)).map
    (fun i => if canOverread || decide (e + i < e) then src (e + i + 1) else 0) = R
  have hBlen : B.length = e := by rw [← hB, List.length_map, List.length_range]
  have hRlen : R.length = 8 - e := by rw [← hR, List.length_map, List.length_range]
  have hBlt : ofBeBytes B < 2 ^ (8 * e) := by
    rw [pow_mul]
    exact hBlen ▸ ofBeBytes_lt B
  -- The loaded word, shifted down to the `e` bytes after the first.
  have hv : ((UInt64.ofNat (ofBeBytes (B ++ R)) >>> ((64 - e * 8) / 2).toUInt64) >>>
      ((64 - e * 8) / 2).toUInt64).toNat = ofBeBytes B := by
    have hlt : ofBeBytes (B ++ R) < 2 ^ 64 := by
      have := ofBeBytes_lt (B ++ R)
      rwa [List.length_append, hBlen, hRlen, show e + (8 - e) = 8 by omega] at this
    have hpos : 0 < 256 ^ (8 - e) := by positivity
    rw [toNat_shiftRight_half_twice _ he, UInt64.toNat_ofNat', Nat.mod_eq_of_lt hlt, ofBeBytes_append, hRlen,
      Nat.add_comm, Nat.add_mul_div_right _ _ hpos, Nat.div_eq_of_lt (hRlen ▸ ofBeBytes_lt R), Nat.zero_add]
  -- The bits of the first byte below its leading ones.
  have hm8 : (firstByteValueMask e).toNat < 2 ^ 8 := by
    rw [toNat_firstByteValueMask he]
    have : 2 ^ (8 - e) ≤ 2 ^ 8 := Nat.pow_le_pow_right (by norm_num) (by omega)
    omega
  have hr : ((src 0).toInt8.toInt64.toUInt64 &&& firstByteValueMask e).toNat = (src 0).toNat % 2 ^ (8 - e) := by
    rw [toNat_toInt64_toUInt64_and _ hm8, toNat_firstByteValueMask he, Nat.and_two_pow_sub_one_eq_mod]
  rw [UInt64.toNat_or, toNat_shiftLeft_high he (by rw [hr]; exact Nat.mod_lt _ (by positivity)), hr, hv,
    show (256 : Nat) ^ e = 2 ^ (8 * e) by rw [pow_mul]; rfl, Nat.mul_comm, Nat.two_pow_add_eq_or_of_lt hBlt]


/-- A first byte of `e` leading ones, a zero bit and bits below it announces `e` extra bytes. -/
theorem countExtraBytes_ofNat {e y : Nat} (he : e ≤ 8) (hy : y * 2 < 2 ^ (8 - e)) :
    countExtraBytes (UInt8.ofNat (256 - 2 ^ (8 - e) + y)) = e := by
  have hp8 : 2 ^ (8 - e) ≤ 2 ^ 8 := Nat.pow_le_pow_right (by norm_num) (by omega)
  have hnot : (~~~UInt8.ofNat (256 - 2 ^ (8 - e) + y)).toNat = 2 ^ (8 - e) - 1 - y := by
    rw [UInt8.toNat_not, UInt8.toNat_ofNat', Nat.mod_eq_of_lt (by omega)]
    simp only [UInt8.size]
    omega
  rw [countExtraBytes, hnot]
  rcases he.lt_or_eq with he | rfl
  · -- The complement has its highest one bit at `7 - e`.
    have hpow : 2 ^ (8 - e) = 2 ^ (7 - e) * 2 := by rw [← pow_succ]; congr 1; omega
    rw [countlZero_of_le_of_lt (m := 7 - e) (by omega) (by rw [show 7 - e + 1 = 8 - e by omega]; omega)]
    omega
  · rw [show 2 ^ (8 - 8) - 1 - y = 0 by simp, countlZero_zero]


theorem encoding_getElem_zero (x : UInt64) (h : 0 < (encoding x).length) :
    (encoding x)[0] =
      UInt8.ofNat (256 - 2 ^ (8 - (serializedSize x - 1)) + x.toNat / 256 ^ (serializedSize x - 1)) := rfl

/-- `deserialize` reads back every encoding, from any memory that holds it at `v.data()`. -/
theorem deserialize_encoding (x : UInt64) {src : Nat → UInt8}
    (h : ∀ i (hi : i < (encoding x).length), src i = (encoding x)[i]) (canOverread : Bool) :
    deserialize src canOverread = x := by
  have h₁ := one_le_serializedSize x
  have hy := high_mul_two_lt x
  generalize hee : serializedSize x - 1 = e at hy
  have he : e ≤ 8 := by have := serializedSize_le_nine x; omega
  have h0 : src 0 = UInt8.ofNat (256 - 2 ^ (8 - e) + x.toNat / 256 ^ e) := by
    rw [h 0 (by simp; omega), encoding_getElem_zero, hee]
  have hcount : countExtraBytes (src 0) = e := by rw [h0, countExtraBytes_ofNat he hy]
  -- The bytes after the first are the low bytes of `x`.
  have htail : (List.range e).map (fun i => src (i + 1)) = beBytes e x.toNat := by
    apply List.ext_getElem (by simp)
    intro i hi _
    rw [List.getElem_map, List.getElem_range, h (i + 1) (by simp at hi ⊢; omega)]
    simp only [encoding, hee, List.getElem_cons_succ]
  -- Below its leading ones the first byte holds the bits of `x` above those bytes.
  have hfirst : (src 0).toNat % 2 ^ (8 - e) = x.toNat / 256 ^ e := by
    have hsplit : 256 - 2 ^ (8 - e) = 2 ^ (8 - e) * (2 ^ e - 1) := by
      rw [Nat.mul_sub_one, ← pow_add, Nat.sub_add_cancel he]
      rfl
    have hp8 : 2 ^ (8 - e) ≤ 2 ^ 8 := Nat.pow_le_pow_right (by norm_num) (by omega)
    rw [h0, UInt8.toNat_ofNat', Nat.mod_eq_of_lt (show 256 - 2 ^ (8 - e) + x.toNat / 256 ^ e < 2 ^ 8 by omega),
      hsplit, Nat.mul_add_mod_self_left, Nat.mod_eq_of_lt (by omega)]
  apply UInt64.toNat_inj.1
  rw [toNat_deserialize, hcount, hfirst, htail, ofBeBytes_beBytes_mod, Nat.div_add_mod']


theorem overwrite_add {m : Nat → UInt8} {p : Nat} {l : List UInt8} {i : Nat} (hi : i < l.length) :
    overwrite m p l (p + i) = l[i] := by
  simp [overwrite, List.getElem?_eq_getElem hi]

/-- `deserialize` reads nothing beyond the `serialized_size_from_first_byte` bytes at `v.data()`. -/
theorem deserialize_congr {src src' : Nat → UInt8}
    (h : ∀ i < serializedSizeFromFirstByte (src 0), src i = src' i) (c c' : Bool) :
    deserialize src c = deserialize src' c' := by
  have h0 : src 0 = src' 0 := h 0 (by unfold serializedSizeFromFirstByte; omega)
  apply UInt64.toNat_inj.1
  rw [toNat_deserialize, toNat_deserialize, ← h0]
  congr 2
  apply List.map_congr_left
  intro i hi
  rw [List.mem_range] at hi
  exact h (i + 1) (by unfold serializedSizeFromFirstByte; unfold countExtraBytes at hi; omega)

/-- The length that the first byte of an encoding announces is its length. -/
theorem serializedSizeFromFirstByte_eq (x : UInt64) {src : Nat → UInt8}
    (h : ∀ i (hi : i < (encoding x).length), src i = (encoding x)[i]) :
    serializedSizeFromFirstByte (src 0) = serializedSize x := by
  have h₁ := one_le_serializedSize x
  have h₉ := serializedSize_le_nine x
  have h0 : src 0 = _ := h 0 (by simp; omega)
  rw [encoding_getElem_zero] at h0
  show 1 + countExtraBytes (src 0) = serializedSize x
  rw [h0, countExtraBytes_ofNat (by omega) (high_mul_two_lt x)]
  omega

theorem deserialize_serialize (x : UInt64) (out : Nat) (o : Output) (canOverread : Bool) :
    deserialize (fun i => (serialize x out o).2.bytes (out + i)) canOverread = x :=
  deserialize_encoding x (fun i hi => by rw [serialize_bytes, overwrite_add hi]) canOverread

theorem signedDeserialize_signedSerialize (y : Int64) (out : Nat) (o : Output) (canOverread : Bool) :
    signedDeserialize (fun i => (signedSerialize y out o).2.bytes (out + i)) canOverread = y := by
  rw [signedDeserialize, signedSerialize, deserialize_serialize, decodeZigzag_encodeZigzag]

/-! ### The codec -/

/-- The unsigned and signed vints: `serialized_size` lies between one and nine and is the least `n` with
`x < 2^(7n)` below nine; `serialize` writes exactly that many bytes, the encoding, and returns their number;
`deserialize` reads the value back from any memory that holds the encoding at `v.data()`, whatever follows,
and reads no further than the `count_extra_bytes + 1` bytes that the first byte announces; the signed vint
round trips, through a zigzag mapping that is a bijection. -/
theorem vint_roundTrip :
    (∀ x : UInt64, 1 ≤ serializedSize x ∧ serializedSize x ≤ 9 ∧
      ∀ n, 0 < n → n < 9 → (serializedSize x ≤ n ↔ x.toNat < 2 ^ (7 * n))) ∧
    (∀ (x : UInt64) (out : Nat) (o : Output), (serialize x out o).1 = serializedSize x ∧
      (encoding x).length = serializedSize x ∧ (serialize x out o).2.bytes = overwrite o.bytes out (encoding x)) ∧
    (∀ (x : UInt64) (src : Nat → UInt8), (∀ i (hi : i < (encoding x).length), src i = (encoding x)[i]) →
      ∀ canOverread, deserialize src canOverread = x ∧ countExtraBytes (src 0) + 1 = serializedSize x ∧
        serializedSizeFromFirstByte (src 0) = serializedSize x) ∧
    (∀ src src' : Nat → UInt8, (∀ i < serializedSizeFromFirstByte (src 0), src i = src' i) →
      ∀ c c', deserialize src c = deserialize src' c') ∧
    (∀ (y : Int64) (out : Nat) (o : Output) (canOverread : Bool),
      signedDeserialize (fun i => (signedSerialize y out o).2.bytes (out + i)) canOverread = y) ∧
    Function.LeftInverse decodeZigzag encodeZigzag ∧ Function.RightInverse decodeZigzag encodeZigzag := by
  refine ⟨fun x => ⟨one_le_serializedSize x, serializedSize_le_nine x, fun n h₀ h₉ => serializedSize_le_iff x h₀ h₉⟩,
    fun x out o => ⟨serialize_fst x out o, length_encoding x, serialize_bytes x out o⟩,
    fun x src h c => ⟨deserialize_encoding x h c, ?_, serializedSizeFromFirstByte_eq x h⟩,
    fun _ _ h c c' => deserialize_congr h c c', signedDeserialize_signedSerialize,
    decodeZigzag_encodeZigzag, encodeZigzag_decodeZigzag⟩
  -- `serialized_size_from_first_byte` is `count_extra_bytes + 1`.
  have := serializedSizeFromFirstByte_eq x h
  unfold serializedSizeFromFirstByte at this
  unfold countExtraBytes
  omega

/-- The three bytes of `256000` from the protocol's comment, `[110]00011 11101000 00000000`, are read back. -/
theorem vint_roundTrip_example :
    serializedSize 256000 = 3 ∧ deserialize (overwrite (fun _ => 0) 0 [0xC3, 0xE8, 0x00]) false = 256000 :=
  ⟨by decide, (vint_roundTrip.2.2.1 256000 _ (by decide) false).1⟩

end Scylla.Vint
