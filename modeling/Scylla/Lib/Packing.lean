import Mathlib

/-!
# Packing fixed-width items

Items of fixed width packed one after the other: a buffer of bits is a natural number, bit `k` of
the buffer being bit `k` of the number; `getBits st off len` reads the `len` bits from position
`off`, and `setBits st off len v` replaces them with the low `len` bits of `v`; `log2ceil` is the
width a field needs.  Items grouped by `g` are found by quotient and remainder, and stepping to the
next item steps the remainder or carries into the quotient (`add_one_div_of_lt`,
`add_one_div_of_eq`).
-/

namespace Packing

/-- The `len` bits of `st` from position `off`. -/
def getBits (st off len : Nat) : Nat := (st >>> off) % 2 ^ len

/-- `st` with the `len` bits from position `off` replaced by the low bits of `v`. -/
def setBits (st off len v : Nat) : Nat :=
  st % 2 ^ off + (v % 2 ^ len) <<< off + (st >>> (off + len)) <<< (off + len)

/-- The bits a field needs for the values below `n`, as seastar's log2ceil computes it for an
unsigned type of `digits` bits: the width less the leading zeros of `n - 1`, which wraps to all
ones for 0. -/
def log2ceil (digits n : Nat) : Nat :=
  if n = 1 then 0 else digits - (digits - 1 - Nat.log2 ((n + 2 ^ digits - 1) % 2 ^ digits))

theorem log2ceil_le (digits n : Nat) : log2ceil digits n ≤ digits := by
  unfold log2ceil
  split <;> omega

/-! ## Stepping through groups -/

variable {j g : Nat}

theorem add_one_div_of_lt (h : j % g + 1 < g) : (j + 1) / g = j / g ∧ (j + 1) % g = j % g + 1 := by
  have hg : 0 < g := by omega
  have hj := Nat.mod_add_div j g
  exact (Nat.div_mod_unique hg).2 ⟨by omega, h⟩

theorem add_one_div_of_eq (h : j % g + 1 = g) : (j + 1) / g = j / g + 1 ∧ (j + 1) % g = 0 := by
  have hg : 0 < g := by omega
  have hj := Nat.mod_add_div j g
  refine (Nat.div_mod_unique hg).2 ⟨?_, hg⟩
  rw [Nat.mul_add_one]
  omega

end Packing
