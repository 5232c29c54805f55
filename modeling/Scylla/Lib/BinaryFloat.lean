import Mathlib

/-!
# Bit patterns of binary floating-point formats

A binary interchange format (IEEE 754 §3.4) with `e` exponent bits and `m` trailing significand bits packs a
number into `1 + e + m` bits: the sign, the biased exponent and the trailing significand.  Here a pattern is the
natural number those bits spell.

For every pattern that is not a NaN, `value` is its number in units of the least subnormal, an integer; infinity,
with the all-ones exponent, lands above every finite value.  For a finite pattern the number the standard assigns
is `value` times `2 ^ (1 - bias - m)` (`toRat_eq_value`), so comparing values compares the numbers.  The units grow
strictly with the bits after the sign (`units_lt_units_iff`): the order of the numbers is the sign-magnitude order
of their patterns.
-/

/-- A binary floating-point format: `e` exponent bits and `m` trailing significand bits. -/
structure BinaryFormat where
  e : Nat
  m : Nat
  deriving DecidableEq, Repr

namespace BinaryFormat

variable (f : BinaryFormat)

/-- The number of bits of a pattern. -/
def width : Nat := 1 + f.e + f.m

def signBit (x : Nat) : Bool := x.testBit (f.e + f.m)

/-- The bits after the sign. -/
def magnitude (x : Nat) : Nat := x % 2 ^ (f.e + f.m)

def expField (x : Nat) : Nat := f.magnitude x / 2 ^ f.m

def mantField (x : Nat) : Nat := x % 2 ^ f.m

/-- The all-ones exponent with a nonzero trailing significand. -/
def isNaN (x : Nat) : Bool := f.expField x == 2 ^ f.e - 1 && f.mantField x != 0

/-- A magnitude in units of the least subnormal: the trailing significand below the smallest normal exponent,
`(2 ^ m + significand) * 2 ^ (exponent - 1)` from it on. -/
def unitsOf (n : Nat) : Nat :=
  if n / 2 ^ f.m = 0 then n % 2 ^ f.m else (2 ^ f.m + n % 2 ^ f.m) * 2 ^ (n / 2 ^ f.m - 1)

def units (x : Nat) : Nat := f.unitsOf (f.magnitude x)

/-- The signed number of units of a pattern that is not a NaN. -/
def value (x : Nat) : Int := if f.signBit x then -(f.units x : Int) else f.units x

/-- The exponent bias. -/
def bias : Nat := 2 ^ (f.e - 1) - 1

/-- The number a finite pattern stands for: `(-1) ^ s × 2 ^ (E - bias) × (1 + T / 2 ^ m)` for a biased exponent
`E ≥ 1`, and `(-1) ^ s × 2 ^ (1 - bias) × (T / 2 ^ m)` for `E = 0`. -/
def toRat (x : Nat) : ℚ :=
  (if f.signBit x then -1 else 1) *
    if f.expField x = 0 then (2 : ℚ) ^ (1 - (f.bias : ℤ)) * (f.mantField x / 2 ^ f.m)
    else (2 : ℚ) ^ ((f.expField x : ℤ) - f.bias) * (1 + f.mantField x / 2 ^ f.m)

/-! ### The order of the units -/

/-- One more bit pattern is one more unit at the exponent in force, and the step from the largest trailing
significand to the next exponent keeps growing. -/
theorem unitsOf_lt_succ (n : Nat) : f.unitsOf n < f.unitsOf (n + 1) := by
  have hP : 0 < 2 ^ f.m := by positivity
  obtain ⟨E, M, hM, rfl⟩ : ∃ E M, M < 2 ^ f.m ∧ n = 2 ^ f.m * E + M :=
    ⟨n / 2 ^ f.m, n % 2 ^ f.m, Nat.mod_lt _ hP, (Nat.div_add_mod n _).symm⟩
  have hdiv : (2 ^ f.m * E + M) / 2 ^ f.m = E := by
    rw [Nat.mul_add_div hP, Nat.div_eq_of_lt hM, Nat.add_zero]
  have hmod : (2 ^ f.m * E + M) % 2 ^ f.m = M := by
    rw [Nat.mul_add_mod, Nat.mod_eq_of_lt hM]
  by_cases hnext : M + 1 < 2 ^ f.m
  · -- The same exponent, one more unit of it.
    have hdiv' : (2 ^ f.m * E + M + 1) / 2 ^ f.m = E := by
      rw [Nat.add_assoc, Nat.mul_add_div hP, Nat.div_eq_of_lt hnext, Nat.add_zero]
    have hmod' : (2 ^ f.m * E + M + 1) % 2 ^ f.m = M + 1 := by
      rw [Nat.add_assoc, Nat.mul_add_mod, Nat.mod_eq_of_lt hnext]
    unfold unitsOf
    rw [hdiv, hmod, hdiv', hmod']
    split
    · omega
    · exact Nat.mul_lt_mul_of_pos_right (by omega) (by positivity)
  · -- The trailing significand wraps around to the next exponent.
    have hM' : M + 1 = 2 ^ f.m := by omega
    have hdiv' : (2 ^ f.m * E + M + 1) / 2 ^ f.m = E + 1 := by
      rw [Nat.add_assoc, hM', ← Nat.mul_succ, Nat.mul_div_cancel_left _ hP]
    have hmod' : (2 ^ f.m * E + M + 1) % 2 ^ f.m = 0 := by
      rw [Nat.add_assoc, hM', ← Nat.mul_succ, Nat.mul_mod_right]
    unfold unitsOf
    rw [hdiv, hmod, hdiv', hmod', if_neg (Nat.succ_ne_zero E), Nat.add_zero, Nat.add_sub_cancel]
    split
    · rename_i hE
      rw [hE, pow_zero, Nat.mul_one]
      omega
    · rename_i hE
      obtain ⟨k, rfl⟩ : ∃ k, E = k + 1 := ⟨E - 1, by omega⟩
      rw [Nat.add_sub_cancel, pow_succ]
      nlinarith [Nat.one_le_two_pow (n := k)]

theorem unitsOf_strictMono : StrictMono f.unitsOf := strictMono_nat_of_lt_succ f.unitsOf_lt_succ

theorem units_lt_units_iff {x y : Nat} : f.units x < f.units y ↔ f.magnitude x < f.magnitude y :=
  f.unitsOf_strictMono.lt_iff_lt

theorem units_eq_units_iff {x y : Nat} : f.units x = f.units y ↔ f.magnitude x = f.magnitude y :=
  f.unitsOf_strictMono.injective.eq_iff

/-! ### Sign and magnitude -/

theorem magnitude_lt (x : Nat) : f.magnitude x < 2 ^ (f.e + f.m) := Nat.mod_lt _ (by positivity)

/-- A pattern is its sign bit above its magnitude. -/
theorem eq_sign_add_magnitude {x : Nat} (h : x < 2 ^ f.width) :
    x = (if f.signBit x then 2 ^ (f.e + f.m) else 0) + f.magnitude x := by
  have hpos : 0 < 2 ^ (f.e + f.m) := by positivity
  have hw : 2 ^ f.width = 2 * 2 ^ (f.e + f.m) := by rw [width, Nat.add_assoc, pow_add, pow_one]
  have hq : x / 2 ^ (f.e + f.m) < 2 := by
    rw [Nat.div_lt_iff_lt_mul hpos]
    rw [hw] at h
    omega
  have hsign : f.signBit x = decide (x / 2 ^ (f.e + f.m) = 1) := by
    unfold signBit
    rw [Nat.testBit_eq_decide_div_mod_eq, Nat.mod_eq_of_lt hq]
  unfold magnitude
  conv_lhs => rw [← Nat.div_add_mod x (2 ^ (f.e + f.m))]
  rw [hsign]
  generalize x / 2 ^ (f.e + f.m) = q at hq ⊢
  obtain rfl | rfl : q = 0 ∨ q = 1 := by omega
  · simp
  · simp

theorem mantField_eq_mod (x : Nat) : f.mantField x = f.magnitude x % 2 ^ f.m := by
  unfold mantField magnitude
  rw [Nat.mod_mod_of_dvd _ (Nat.pow_dvd_pow 2 (Nat.le_add_left _ _))]

/-- The bits after the sign are the exponent above the trailing significand. -/
theorem magnitude_eq (x : Nat) : f.magnitude x = 2 ^ f.m * f.expField x + f.mantField x := by
  rw [mantField_eq_mod, expField, Nat.div_add_mod]

theorem expField_le (x : Nat) : f.expField x ≤ 2 ^ f.e - 1 := by
  have h := f.magnitude_lt x
  unfold expField
  have : f.magnitude x / 2 ^ f.m < 2 ^ f.e := by
    rw [Nat.div_lt_iff_lt_mul (by positivity), ← pow_add]
    exact h
  omega

/-- A NaN has a larger magnitude than every pattern that is no NaN. -/
theorem magnitude_lt_of_isNaN {x y : Nat} (hx : f.isNaN x = true) (hy : f.isNaN y = false) :
    f.magnitude y < f.magnitude x := by
  simp only [isNaN, Bool.and_eq_true, beq_iff_eq, bne_iff_ne, ne_eq, Bool.and_eq_false_imp] at hx hy
  rw [f.magnitude_eq x, f.magnitude_eq y, hx.1]
  have hEy := f.expField_le y
  have hMy : f.mantField y < 2 ^ f.m := Nat.mod_lt _ (by positivity)
  rcases Nat.lt_or_eq_of_le hEy with hlt | heq
  · -- A smaller exponent: everything it holds stays below the next exponent.
    have : 2 ^ f.m * (f.expField y + 1) ≤ 2 ^ f.m * (2 ^ f.e - 1) := Nat.mul_le_mul_left _ hlt
    rw [Nat.mul_succ] at this
    omega
  · -- The same exponent: `y` is an infinity, with no trailing significand.
    have hzero : f.mantField y = 0 := by simpa using hy heq
    rw [heq, hzero]
    omega

/-! ### The numbers the patterns stand for -/

/-- For a finite pattern, the number the standard assigns is its signed units times the least subnormal. -/
theorem toRat_eq_value (x : Nat) : f.toRat x = f.value x * 2 ^ (1 - (f.bias : ℤ) - f.m) := by
  have hP : (2 : ℚ) ^ f.m ≠ 0 := by positivity
  have hsplit : (2 : ℚ) ^ (1 - (f.bias : ℤ) - f.m) = 2 ^ (1 - (f.bias : ℤ)) / 2 ^ f.m := by
    rw [zpow_sub₀ two_ne_zero, zpow_natCast]
  have habs : (f.units x : ℚ) * 2 ^ (1 - (f.bias : ℤ) - f.m) =
      if f.expField x = 0 then (2 : ℚ) ^ (1 - (f.bias : ℤ)) * (f.mantField x / 2 ^ f.m)
      else (2 : ℚ) ^ ((f.expField x : ℤ) - f.bias) * (1 + f.mantField x / 2 ^ f.m) := by
    rw [hsplit]
    unfold units unitsOf
    rw [← mantField_eq_mod, ← expField]
    split
    · ring
    · rename_i hE
      -- `2 ^ (E - bias) = 2 ^ (E - 1) * 2 ^ (1 - bias)` for a normal exponent `E ≥ 1`.
      have hexp : (2 : ℚ) ^ ((f.expField x : ℤ) - f.bias) = 2 ^ (f.expField x - 1) * 2 ^ (1 - (f.bias : ℤ)) := by
        rw [← zpow_natCast, ← zpow_add₀ two_ne_zero]
        congr 1
        push_cast [Nat.one_le_iff_ne_zero.2 hE]
        ring
      rw [hexp]
      push_cast
      field_simp
  unfold toRat value
  rw [← habs]
  split <;> push_cast <;> ring

/-- Finite patterns compare as their values. -/
theorem toRat_lt_toRat_iff {x y : Nat} : f.toRat x < f.toRat y ↔ f.value x < f.value y := by
  rw [toRat_eq_value, toRat_eq_value, mul_lt_mul_iff_of_pos_right (by positivity), Int.cast_lt]

end BinaryFormat
