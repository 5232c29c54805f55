import Mathlib
import Scylla.Lib.Word
import Scylla.Lib.BinaryFloat

/-!
# Byte-comparable forms of the fixed-length types

`types/comparable_bytes.cc` encodes a serialized value so that `compare_unsigned` on the encodings orders values as
the type's `compare` does, and so that an encoding can be decoded from the front of a longer byte string.  For
`tinyint`, `smallint` and `int` (`integer_type_impl`) and for `float` and `double` (`floating_type_impl`) the
encoding is the value's word with some bits flipped, and decoding flips them back.

* The integers: flipping the sign bit turns the two's complement order into the unsigned order
  (`compareUnsigned_encode_integer`).
* The floats: a negative value has all its bits flipped, a positive one its sign bit.  For every pattern that is not a
  NaN the encodings order values as `compare` does (`compareUnsigned_encode_float`).  `compare` puts every NaN above
  everything else, but a NaN whose sign bit is set is encoded as a negative number, below every value that is not a
  NaN (`encode_negative_nan_misordered`).
* Every encoding decodes to the value it came from, leaving what follows it (`fromComparableBytes_encode`).
-/

namespace Scylla

/-- `marshal_exception`, raised by a read past the end of a value. -/
inductive MarshalException where
  | notEnoughBytes (expected got : Nat)
  deriving DecidableEq, Repr

/-- `compare_unsigned` (`bytes.hh`): `memcmp` over the common length, then the shorter first. -/
def compareUnsigned (v₁ v₂ : List UInt8) : Ordering := List.compareLex compare v₁ v₂

/-- `read_simple_native<T>` for a `T` of `k` bytes: the word the next `k` bytes spell, and the rest.  The callers
XOR it with masks converted to big-endian and write it back in the order it was read, so it is read here most
significant byte first. -/
def readSimpleNative (k : Nat) (v : List UInt8) : Except MarshalException (Nat × List UInt8) :=
  if k ≤ v.length then .ok (Word.ofBeBytes (v.take k), v.drop k) else .error (.notEnoughBytes k v.length)

/-- `convert_signed_fixed_length_integer<T>`: flip the sign bit, to encode and to decode. -/
def convertSignedFixedLengthInteger (k : Nat) (src : List UInt8) :
    Except MarshalException (List UInt8 × List UInt8) := do
  let (value, rest) ← readSimpleNative k src
  let signMask := 2 ^ (8 * k - 1)
  return (Word.beBytes k (value ^^^ signMask), rest)

/-- `convert_fixed_length_float<T, src_is_byte_comparable>`: a value with the sign bit set is negative and has all
its bits flipped, any other only its sign bit; in the byte-comparable form the sign bit reads the other way. -/
def convertFixedLengthFloat (k : Nat) (srcIsByteComparable : Bool) (src : List UInt8) :
    Except MarshalException (List UInt8 × List UInt8) := do
  let (valueBe, rest) ← readSimpleNative k src
  let signMaskBe := 2 ^ (8 * k - 1)
  let negativeValue := valueBe &&& signMaskBe != 0
  let negativeValue := if srcIsByteComparable then !negativeValue else negativeValue
  return (Word.beBytes k (valueBe ^^^ if negativeValue then 2 ^ (8 * k) - 1 else signMaskBe), rest)

/-- The `compare_visitor` of a floating type (`types.cc`): NaNs are equal to each other and greater than
everything else, `-0 < 0`, and other values compare as numbers. -/
def compareFloat (f : BinaryFormat) (a b : Nat) : Ordering :=
  if f.isNaN a && f.isNaN b then .eq
  else if f.isNaN a then .gt
  else if f.isNaN b then .lt
  else if f.signBit a && !f.signBit b then .lt
  else if !f.signBit a && f.signBit b then .gt
  else if f.value a = f.value b then .eq
  else if f.value a < f.value b then .lt
  else .gt

/-- The types whose byte-comparable form is a word of their own width. -/
inductive FixedType where
  | tinyint
  | smallint
  | int
  | float
  | double
  deriving DecidableEq, Repr

namespace FixedType

/-- `sizeof(T)`. -/
def size : FixedType → Nat
  | tinyint => 1
  | smallint => 2
  | int => 4
  | float => 4
  | double => 8

/-- IEEE 754 single precision. -/
def binary32 : BinaryFormat := ⟨8, 23⟩

/-- IEEE 754 double precision. -/
def binary64 : BinaryFormat := ⟨11, 52⟩

/-- `to_comparable_bytes_visitor`: the comparable bytes of the value at the front of `src`, and the rest. -/
def toComparableBytes : FixedType → List UInt8 → Except MarshalException (List UInt8 × List UInt8)
  | tinyint, src => convertSignedFixedLengthInteger 1 src
  | smallint, src => convertSignedFixedLengthInteger 2 src
  | int, src => convertSignedFixedLengthInteger 4 src
  | float, src => convertFixedLengthFloat 4 false src
  | double, src => convertFixedLengthFloat 8 false src

/-- `from_comparable_bytes_visitor`: the serialized value at the front of `src`, and the rest. -/
def fromComparableBytes : FixedType → List UInt8 → Except MarshalException (List UInt8 × List UInt8)
  | tinyint, src => convertSignedFixedLengthInteger 1 src
  | smallint, src => convertSignedFixedLengthInteger 2 src
  | int, src => convertSignedFixedLengthInteger 4 src
  | float, src => convertFixedLengthFloat 4 true src
  | double, src => convertFixedLengthFloat 8 true src

end FixedType

/-- A serialized value of a fixed-length type: exactly the bytes `read_simple_exactly<T>` accepts. -/
structure FixedValue (t : FixedType) where
  bytes : List UInt8
  length_eq : bytes.length = t.size
  deriving DecidableEq

namespace FixedType

/-- The `compare_visitor` of the type, on two values: `a <=> b` on the signed integers (`simple_type_impl`), and
`compareFloat` on the floats. -/
def compare : (t : FixedType) → FixedValue t → FixedValue t → Ordering
  | tinyint, a, b => Ord.compare (Word.toSigned 8 (Word.ofBeBytes a.bytes)) (Word.toSigned 8 (Word.ofBeBytes b.bytes))
  | smallint, a, b =>
    Ord.compare (Word.toSigned 16 (Word.ofBeBytes a.bytes)) (Word.toSigned 16 (Word.ofBeBytes b.bytes))
  | int, a, b => Ord.compare (Word.toSigned 32 (Word.ofBeBytes a.bytes)) (Word.toSigned 32 (Word.ofBeBytes b.bytes))
  | float, a, b => compareFloat binary32 (Word.ofBeBytes a.bytes) (Word.ofBeBytes b.bytes)
  | double, a, b => compareFloat binary64 (Word.ofBeBytes a.bytes) (Word.ofBeBytes b.bytes)

/-- `comparable_bytes(type, serialized)`: the encoding of a value. -/
def encode (t : FixedType) (a : FixedValue t) : List UInt8 :=
  match t.toComparableBytes a.bytes with
  | .ok (c, _) => c
  | .error _ => []

end FixedType

/-! ### Words -/

section Words

variable {k : Nat}

theorem two_pow_eight_mul (k : Nat) : 2 ^ (8 * k) = 256 ^ k := by
  rw [pow_mul]
  norm_num

theorem readSimpleNative_append {l s : List UInt8} (h : l.length = k) :
    readSimpleNative k (l ++ s) = .ok (Word.ofBeBytes l, s) := by
  unfold readSimpleNative
  rw [if_pos (by simp [h]), List.take_left' h, List.drop_left' h]

theorem convertSignedFixedLengthInteger_append {l s : List UInt8} (h : l.length = k) :
    convertSignedFixedLengthInteger k (l ++ s) = .ok (Word.beBytes k (Word.ofBeBytes l ^^^ 2 ^ (8 * k - 1)), s) := by
  simp only [convertSignedFixedLengthInteger, readSimpleNative_append h]
  rfl

/-- The mask a float is flipped with: all bits for a negative value, the sign bit for any other. -/
theorem convertFixedLengthFloat_append {l s : List UInt8} {c : Bool} (h : l.length = k) :
    convertFixedLengthFloat k c (l ++ s) =
      .ok (Word.beBytes k (Word.ofBeBytes l ^^^
        if (if c then !(Word.ofBeBytes l).testBit (8 * k - 1) else (Word.ofBeBytes l).testBit (8 * k - 1))
        then 2 ^ (8 * k) - 1 else 2 ^ (8 * k - 1)), s) := by
  have hsign : ∀ x j : Nat, (x &&& 2 ^ j != 0) = x.testBit j := by
    intro x j
    rw [Nat.and_two_pow]
    cases x.testBit j <;> simp
  simp only [convertFixedLengthFloat, readSimpleNative_append h, hsign]
  rfl

/-- Both masks hold the sign bit, so a flipped word has the opposite sign bit. -/
theorem testBit_xor_mask {x : Nat} (hk : 0 < k) (neg : Bool) :
    (x ^^^ if neg then 2 ^ (8 * k) - 1 else 2 ^ (8 * k - 1)).testBit (8 * k - 1) = !x.testBit (8 * k - 1) := by
  rw [Nat.testBit_xor]
  cases neg
  · simp
  · simp only [if_true, Nat.testBit_two_pow_sub_one]
    simp [show 8 * k - 1 < 8 * k by omega]

end Words

/-! ### The order of the encodings -/

/-- The sign flip turns the two's complement order of `k`-byte words into the unsigned order of their bytes. -/
theorem compareUnsigned_signFlip {k x y : Nat} (hk : 0 < k) (hx : x < 256 ^ k) (hy : y < 256 ^ k) :
    compareUnsigned (Word.beBytes k (x ^^^ 2 ^ (8 * k - 1))) (Word.beBytes k (y ^^^ 2 ^ (8 * k - 1))) =
      compare (Word.toSigned (8 * k) x) (Word.toSigned (8 * k) y) := by
  rw [← two_pow_eight_mul] at hx hy
  have hm : 2 ^ (8 * k - 1) < 2 ^ (8 * k) := Nat.pow_lt_pow_right (by omega) (by omega)
  unfold compareUnsigned
  rw [Word.compareLex_beBytes, Word.compare_xor_top (by omega) hx hy]
  · rw [← two_pow_eight_mul]
    exact Nat.xor_lt_two_pow hx hm
  · rw [← two_pow_eight_mul]
    exact Nat.xor_lt_two_pow hy hm

section Floats

variable {f : BinaryFormat} {k : Nat}

/-- The order the float encoding realizes: negative patterns below the others, by decreasing magnitude. -/
def floatKey (f : BinaryFormat) (x : Nat) : Int :=
  if f.signBit x then -(f.magnitude x : Int) - 1 else f.magnitude x

theorem sign_index (hw : 8 * k = f.width) : 8 * k - 1 = f.e + f.m := by
  unfold BinaryFormat.width at hw
  omega

theorem pos_of_width (hw : 8 * k = f.width) : 0 < k := by
  unfold BinaryFormat.width at hw
  omega

/-- The encoded word of a float is its key shifted up by half the range. -/
theorem floatWord_eq (hw : 8 * k = f.width) {x : Nat} (hx : x < 2 ^ (8 * k)) :
    ((x ^^^ if f.signBit x then 2 ^ (8 * k) - 1 else 2 ^ (8 * k - 1) : Nat) : Int) =
      floatKey f x + 2 ^ (8 * k - 1) := by
  have hi := sign_index hw
  have hdec := f.eq_sign_add_magnitude (hw ▸ hx)
  have hmag := f.magnitude_lt x
  have htop : 2 ^ (8 * k) = 2 * 2 ^ (f.e + f.m) := by
    rw [hw, BinaryFormat.width, Nat.add_assoc, pow_add, pow_one]
  have hcast : ((2 ^ (f.e + f.m) : Nat) : Int) = 2 ^ (f.e + f.m) := by
    push_cast
    rfl
  unfold floatKey
  rw [hi, ← hcast]
  cases hs : f.signBit x
  · -- A positive pattern is its magnitude; the sign bit goes on top.
    rw [hs, if_neg Bool.false_ne_true, Nat.zero_add] at hdec
    have hword : x ^^^ 2 ^ (f.e + f.m) = 2 ^ (f.e + f.m) + f.magnitude x := by
      conv_lhs => rw [hdec]
      exact Word.xor_two_pow_of_lt hmag
    rw [if_neg Bool.false_ne_true, if_neg Bool.false_ne_true, hword]
    omega
  · -- A negative pattern, all bits flipped: the magnitude is counted down from just below the sign bit.
    rw [hs, if_pos rfl] at hdec
    have hword : x ^^^ (2 ^ (8 * k) - 1) = 2 ^ (f.e + f.m) - 1 - f.magnitude x := by
      rw [Word.xor_two_pow_sub_one hx, htop]
      omega
    rw [if_pos rfl, if_pos rfl, hword]
    omega

/-- The source's last step, `a == b ? equal : a < b ? less : greater`, is `compare`. -/
theorem ite_eq_lt_eq_compare {a b : Int} :
    (if a = b then Ordering.eq else if a < b then .lt else .gt) = compare a b := by
  rcases lt_trichotomy a b with h | rfl | h
  · rw [if_neg (ne_of_lt h), if_pos h, compare_lt_iff_lt.2 h]
  · rw [if_pos rfl, compare_eq_iff_eq.2 rfl]
  · rw [if_neg (ne_of_gt h), if_neg (not_lt.2 h.le), compare_gt_iff_gt.2 h]

/-- On patterns that are no NaN, `compare` is the order of the keys. -/
theorem compareFloat_eq_compare_floatKey {x y : Nat} (hx : f.isNaN x = false) (hy : f.isNaN y = false) :
    compareFloat f x y = compare (floatKey f x) (floatKey f y) := by
  unfold compareFloat floatKey BinaryFormat.value
  simp only [hx, hy, Bool.and_false, Bool.false_eq_true, if_false]
  cases hsx : f.signBit x <;> cases hsy : f.signBit y <;> simp only [Bool.not_false, Bool.not_true,
    Bool.and_true, Bool.and_false, Bool.false_eq_true, if_true, if_false]
  · -- Two positive patterns: by units, that is by magnitude.
    rw [ite_eq_lt_eq_compare]
    apply Word.compare_eq_compare_of_iff
    · rw [Int.ofNat_lt, Int.ofNat_lt]
      exact f.units_lt_units_iff
    · rw [Int.ofNat_inj, Int.ofNat_inj]
      exact f.units_eq_units_iff
  · -- A positive pattern above a negative one, `0` above `-0` included.
    rw [compare_gt_iff_gt.2 (by omega)]
  · rw [compare_lt_iff_lt.2 (by omega)]
  · -- Two negative patterns: the larger magnitude is the smaller value.
    rw [ite_eq_lt_eq_compare]
    apply Word.compare_eq_compare_of_iff
    · rw [neg_lt_neg_iff, Int.ofNat_lt, sub_lt_sub_iff_right, neg_lt_neg_iff, Int.ofNat_lt]
      exact f.units_lt_units_iff
    · rw [neg_inj, Int.ofNat_inj, sub_left_inj, neg_inj, Int.ofNat_inj]
      exact f.units_eq_units_iff

theorem testBit_sign (hw : 8 * k = f.width) (x : Nat) : x.testBit (8 * k - 1) = f.signBit x := by
  rw [sign_index hw]
  rfl

theorem floatWord_lt (hk : 0 < k) (x : Nat) (neg : Bool) (hx : x < 2 ^ (8 * k)) :
    (x ^^^ if neg then 2 ^ (8 * k) - 1 else 2 ^ (8 * k - 1)) < 2 ^ (8 * k) := by
  refine Nat.xor_lt_two_pow hx ?_
  split
  · exact Nat.sub_lt (by positivity) Nat.one_pos
  · exact Nat.pow_lt_pow_right (by omega) (Nat.sub_lt_self Nat.one_pos (by omega))

/-- The encoded words of two floats compare as their keys. -/
theorem compare_floatWord (hw : 8 * k = f.width) {x y : Nat} (hx : x < 2 ^ (8 * k)) (hy : y < 2 ^ (8 * k)) :
    compare (x ^^^ if f.signBit x then 2 ^ (8 * k) - 1 else 2 ^ (8 * k - 1))
        (y ^^^ if f.signBit y then 2 ^ (8 * k) - 1 else 2 ^ (8 * k - 1)) =
      compare (floatKey f x) (floatKey f y) := by
  apply Word.compare_eq_compare_of_iff
  · rw [← Int.ofNat_lt, floatWord_eq hw hx, floatWord_eq hw hy]
    exact add_lt_add_iff_right _
  · rw [← Int.ofNat_inj, floatWord_eq hw hx, floatWord_eq hw hy]
    exact add_left_inj _

/-- The float encoding orders the patterns that are no NaN as `compare` does. -/
theorem compareUnsigned_floatFlip (hw : 8 * k = f.width) {x y : Nat} (hx : x < 2 ^ (8 * k)) (hy : y < 2 ^ (8 * k))
    (hnx : f.isNaN x = false) (hny : f.isNaN y = false) :
    compareUnsigned (Word.beBytes k (x ^^^ if f.signBit x then 2 ^ (8 * k) - 1 else 2 ^ (8 * k - 1)))
        (Word.beBytes k (y ^^^ if f.signBit y then 2 ^ (8 * k) - 1 else 2 ^ (8 * k - 1))) =
      compareFloat f x y := by
  unfold compareUnsigned
  rw [Word.compareLex_beBytes, compare_floatWord hw hx hy, compareFloat_eq_compare_floatKey hnx hny]
  · rw [← two_pow_eight_mul]
    exact floatWord_lt (pos_of_width hw) _ _ hx
  · rw [← two_pow_eight_mul]
    exact floatWord_lt (pos_of_width hw) _ _ hy

/-- A NaN with its sign bit set is encoded below every pattern that is no NaN, while `compare` puts it above. -/
theorem negative_nan_floatFlip (hw : 8 * k = f.width) {x y : Nat} (hx : x < 2 ^ (8 * k)) (hy : y < 2 ^ (8 * k))
    (hnan : f.isNaN x = true) (hsign : f.signBit x = true) (hny : f.isNaN y = false) :
    compareFloat f x y = .gt ∧
      compareUnsigned (Word.beBytes k (x ^^^ if f.signBit x then 2 ^ (8 * k) - 1 else 2 ^ (8 * k - 1)))
        (Word.beBytes k (y ^^^ if f.signBit y then 2 ^ (8 * k) - 1 else 2 ^ (8 * k - 1))) = .lt := by
  refine ⟨?_, ?_⟩
  · unfold compareFloat
    simp [hnan, hny]
  · unfold compareUnsigned
    rw [Word.compareLex_beBytes, compare_floatWord hw hx hy, compare_lt_iff_lt]
    · -- The NaN's key is below every other negative key, and all of them are below the positive ones.
      have hmag := f.magnitude_lt_of_isNaN hnan hny
      unfold floatKey
      rw [hsign, if_pos rfl]
      split <;> omega
    · rw [← two_pow_eight_mul]
      exact floatWord_lt (pos_of_width hw) _ _ hx
    · rw [← two_pow_eight_mul]
      exact floatWord_lt (pos_of_width hw) _ _ hy

end Floats

/-! ### Decoding -/

section Decoding

variable {k : Nat}

/-- Decoding an integer's encoding flips its sign bit back. -/
theorem convertSignedFixedLengthInteger_signFlip (hk : 0 < k) {x : Nat} (hx : x < 256 ^ k) (s : List UInt8) :
    convertSignedFixedLengthInteger k (Word.beBytes k (x ^^^ 2 ^ (8 * k - 1)) ++ s) = .ok (Word.beBytes k x, s) := by
  have hz : x ^^^ 2 ^ (8 * k - 1) < 256 ^ k := by
    rw [← two_pow_eight_mul] at hx ⊢
    exact Nat.xor_lt_two_pow hx (Nat.pow_lt_pow_right (by omega) (by omega))
  rw [convertSignedFixedLengthInteger_append (Word.length_beBytes _ _), Word.ofBeBytes_beBytes hz, Nat.xor_assoc,
    Nat.xor_self, Nat.xor_zero]

/-- Decoding a float's encoding reads its sign from the flipped sign bit and flips the same bits back. -/
theorem convertFixedLengthFloat_floatFlip (hk : 0 < k) {x : Nat} (hx : x < 256 ^ k) (s : List UInt8) :
    convertFixedLengthFloat k true
        (Word.beBytes k (x ^^^ if x.testBit (8 * k - 1) then 2 ^ (8 * k) - 1 else 2 ^ (8 * k - 1)) ++ s) =
      .ok (Word.beBytes k x, s) := by
  have hz : (x ^^^ if x.testBit (8 * k - 1) then 2 ^ (8 * k) - 1 else 2 ^ (8 * k - 1)) < 256 ^ k := by
    rw [← two_pow_eight_mul] at hx ⊢
    exact floatWord_lt hk _ _ hx
  rw [convertFixedLengthFloat_append (Word.length_beBytes _ _), Word.ofBeBytes_beBytes hz, testBit_xor_mask hk,
    if_pos rfl, Bool.not_not, Nat.xor_assoc, Nat.xor_self, Nat.xor_zero]

end Decoding

/-! ### The types -/

namespace FixedType

/-- `std::isnan` on a value of a floating type; the integer types have no NaN. -/
def isNaN : (t : FixedType) → FixedValue t → Bool
  | float, a => binary32.isNaN (Word.ofBeBytes a.bytes)
  | double, a => binary64.isNaN (Word.ofBeBytes a.bytes)
  | tinyint, _ => false
  | smallint, _ => false
  | int, _ => false

theorem word_lt {t : FixedType} (a : FixedValue t) : Word.ofBeBytes a.bytes < 256 ^ t.size := by
  rw [← a.length_eq]
  exact Word.ofBeBytes_lt _

theorem beBytes_word {t : FixedType} (a : FixedValue t) : Word.beBytes t.size (Word.ofBeBytes a.bytes) = a.bytes := by
  rw [← a.length_eq]
  exact Word.beBytes_ofBeBytes _

/-- The encoding of an integer type: its word with the sign bit flipped. -/
theorem encode_of_signFlip {t : FixedType} (a : FixedValue t)
    (hconv : ∀ src, t.toComparableBytes src = convertSignedFixedLengthInteger t.size src) :
    t.encode a = Word.beBytes t.size (Word.ofBeBytes a.bytes ^^^ 2 ^ (8 * t.size - 1)) := by
  have h := convertSignedFixedLengthInteger_append (s := []) a.length_eq
  rw [List.append_nil] at h
  unfold encode
  rw [hconv, h]

/-- The encoding of a floating type: its word with all bits flipped if the sign bit is set, the sign bit
otherwise. -/
theorem encode_of_floatFlip {t : FixedType} (a : FixedValue t)
    (hconv : ∀ src, t.toComparableBytes src = convertFixedLengthFloat t.size false src) :
    t.encode a = Word.beBytes t.size (Word.ofBeBytes a.bytes ^^^
      if (Word.ofBeBytes a.bytes).testBit (8 * t.size - 1) then 2 ^ (8 * t.size) - 1 else 2 ^ (8 * t.size - 1)) := by
  have h := convertFixedLengthFloat_append (s := []) (c := false) a.length_eq
  rw [List.append_nil] at h
  unfold encode
  rw [hconv, h]
  rfl

/-- The encoding takes exactly the value from the front of the bytes. -/
theorem toComparableBytes_append (t : FixedType) (a : FixedValue t) (s : List UInt8) :
    t.toComparableBytes (a.bytes ++ s) = .ok (t.encode a, s) := by
  cases t with
  | tinyint => rw [encode_of_signFlip a (fun _ => rfl)]; exact convertSignedFixedLengthInteger_append a.length_eq
  | smallint => rw [encode_of_signFlip a (fun _ => rfl)]; exact convertSignedFixedLengthInteger_append a.length_eq
  | int => rw [encode_of_signFlip a (fun _ => rfl)]; exact convertSignedFixedLengthInteger_append a.length_eq
  | float => rw [encode_of_floatFlip a (fun _ => rfl)]; exact convertFixedLengthFloat_append a.length_eq
  | double => rw [encode_of_floatFlip a (fun _ => rfl)]; exact convertFixedLengthFloat_append a.length_eq

/-- An integer type decodes its encodings. -/
theorem fromComparableBytes_encode_of_signFlip {t : FixedType} (a : FixedValue t) (hk : 0 < t.size)
    (henc : ∀ src, t.toComparableBytes src = convertSignedFixedLengthInteger t.size src)
    (hdec : ∀ src, t.fromComparableBytes src = convertSignedFixedLengthInteger t.size src) (s : List UInt8) :
    t.fromComparableBytes (t.encode a ++ s) = .ok (a.bytes, s) := by
  rw [encode_of_signFlip a henc, hdec, convertSignedFixedLengthInteger_signFlip hk (word_lt a), beBytes_word]

/-- A floating type decodes its encodings. -/
theorem fromComparableBytes_encode_of_floatFlip {t : FixedType} (a : FixedValue t) (hk : 0 < t.size)
    (henc : ∀ src, t.toComparableBytes src = convertFixedLengthFloat t.size false src)
    (hdec : ∀ src, t.fromComparableBytes src = convertFixedLengthFloat t.size true src) (s : List UInt8) :
    t.fromComparableBytes (t.encode a ++ s) = .ok (a.bytes, s) := by
  rw [encode_of_floatFlip a henc, hdec, convertFixedLengthFloat_floatFlip hk (word_lt a), beBytes_word]

/-- Every encoding decodes to the value it came from and leaves what follows it. -/
theorem fromComparableBytes_encode (t : FixedType) (a : FixedValue t) (s : List UInt8) :
    t.fromComparableBytes (t.encode a ++ s) = .ok (a.bytes, s) := by
  cases t with
  | tinyint => exact fromComparableBytes_encode_of_signFlip a (by decide) (fun _ => rfl) (fun _ => rfl) s
  | smallint => exact fromComparableBytes_encode_of_signFlip a (by decide) (fun _ => rfl) (fun _ => rfl) s
  | int => exact fromComparableBytes_encode_of_signFlip a (by decide) (fun _ => rfl) (fun _ => rfl) s
  | float => exact fromComparableBytes_encode_of_floatFlip a (by decide) (fun _ => rfl) (fun _ => rfl) s
  | double => exact fromComparableBytes_encode_of_floatFlip a (by decide) (fun _ => rfl) (fun _ => rfl) s

/-- The encodings of two values that are no NaN compare as the values do. -/
theorem compareUnsigned_encode (t : FixedType) (a b : FixedValue t) (ha : t.isNaN a = false)
    (hb : t.isNaN b = false) : compareUnsigned (t.encode a) (t.encode b) = t.compare a b := by
  have hxa := word_lt a
  have hxb := word_lt b
  cases t with
  | tinyint =>
    rw [encode_of_signFlip a (fun _ => rfl), encode_of_signFlip b (fun _ => rfl)]
    exact compareUnsigned_signFlip (by decide) hxa hxb
  | smallint =>
    rw [encode_of_signFlip a (fun _ => rfl), encode_of_signFlip b (fun _ => rfl)]
    exact compareUnsigned_signFlip (by decide) hxa hxb
  | int =>
    rw [encode_of_signFlip a (fun _ => rfl), encode_of_signFlip b (fun _ => rfl)]
    exact compareUnsigned_signFlip (by decide) hxa hxb
  | float =>
    have hw : 8 * float.size = binary32.width := rfl
    rw [encode_of_floatFlip a (fun _ => rfl), encode_of_floatFlip b (fun _ => rfl), testBit_sign hw,
      testBit_sign hw]
    rw [← two_pow_eight_mul] at hxa hxb
    exact compareUnsigned_floatFlip hw hxa hxb ha hb
  | double =>
    have hw : 8 * double.size = binary64.width := rfl
    rw [encode_of_floatFlip a (fun _ => rfl), encode_of_floatFlip b (fun _ => rfl), testBit_sign hw,
      testBit_sign hw]
    rw [← two_pow_eight_mul] at hxa hxb
    exact compareUnsigned_floatFlip hw hxa hxb ha hb

/-- A `float` NaN whose sign bit is set is encoded below every `float` that is no NaN, which `compare` puts
below it. -/
theorem encode_negative_nan_misordered (a b : FixedValue float) (ha : float.isNaN a = true)
    (hsign : binary32.signBit (Word.ofBeBytes a.bytes) = true) (hb : float.isNaN b = false) :
    float.compare a b = .gt ∧ compareUnsigned (float.encode a) (float.encode b) = .lt := by
  have hw : 8 * float.size = binary32.width := rfl
  have hxa := word_lt a
  have hxb := word_lt b
  rw [← two_pow_eight_mul] at hxa hxb
  rw [encode_of_floatFlip a (fun _ => rfl), encode_of_floatFlip b (fun _ => rfl), testBit_sign hw, testBit_sign hw]
  exact negative_nan_floatFlip hw hxa hxb ha hsign hb

/-- The NaN `0.0f / 0.0f` yields on x86, `FF C0 00 00`, against `1.0f`, `3F 80 00 00`: `compare` puts the NaN
above, its encoding sorts below. -/
theorem negative_nan_float_misordered :
    let nan : FixedValue float := ⟨[0xFF, 0xC0, 0x00, 0x00], rfl⟩
    let one : FixedValue float := ⟨[0x3F, 0x80, 0x00, 0x00], rfl⟩
    float.isNaN nan = true ∧ float.compare nan one = .gt ∧
      compareUnsigned (float.encode nan) (float.encode one) = .lt := by
  decide

end FixedType

end Scylla
