import Mathlib

/-!
# Fixed-width words and their bytes

A `k`-byte unsigned word `n < 256 ^ k` as the source writes it to a byte stream, most significant byte first, and
the two masks that flip its bits.

* `beBytes k n` and `ofBeBytes` are inverse to each other (`ofBeBytes_beBytes`, `beBytes_ofBeBytes`).
* Comparing the bytes of two words of the same width lexicographically, as unsigned bytes, compares the words
  (`compareLex_beBytes`).
* XOR with the all-ones mask reverses the order of the words (`xor_two_pow_sub_one`); XOR with the top bit moves the
  lower half above the upper half (`xor_two_pow_of_lt`, `two_pow_add_xor`), which makes the unsigned order of the
  flipped words the two's complement order of the words (`compare_xor_top`).
* A word's bytes depend only on its remainder by `256 ^ k` (`beBytes_mod`, `ofBeBytes_beBytes_mod`).
* Rotations compose (`rotateLeft_rotateLeft`), and the low bits of a rotation are high bits of the word
  (`toNat_rotateLeft_mod_two_pow`); `countlZero` is `std::countl_zero`.
-/

namespace Word

/-- The `k` bytes of `n`, most significant first. -/
def beBytes : Nat → Nat → List UInt8
  | 0, _ => []
  | k + 1, n => UInt8.ofNat (n / 256 ^ k) :: beBytes k (n % 256 ^ k)

/-- The word that a sequence of bytes spells, most significant first. -/
def ofBeBytes : List UInt8 → Nat
  | [] => 0
  | b :: bs => b.toNat * 256 ^ bs.length + ofBeBytes bs

@[simp] theorem length_beBytes (k n : Nat) : (beBytes k n).length = k := by
  induction k generalizing n with
  | zero => rfl
  | succ k ih => simp [beBytes, ih]

theorem ofBeBytes_lt (l : List UInt8) : ofBeBytes l < 256 ^ l.length := by
  induction l with
  | nil => simp [ofBeBytes]
  | cons b bs ih =>
    have hb : b.toNat < 256 := b.toNat_lt
    -- The leading byte contributes at most `255 * 256 ^ n`, the rest less than `256 ^ n`.
    calc ofBeBytes (b :: bs) = b.toNat * 256 ^ bs.length + ofBeBytes bs := rfl
      _ < b.toNat * 256 ^ bs.length + 256 ^ bs.length := by omega
      _ = (b.toNat + 1) * 256 ^ bs.length := by ring
      _ ≤ 256 * 256 ^ bs.length := Nat.mul_le_mul_right _ hb
      _ = 256 ^ (b :: bs).length := by rw [List.length_cons, pow_succ, Nat.mul_comm]

/-- A byte below `256` is read back as itself. -/
theorem toNat_ofNat_of_lt {q : Nat} (h : q < 256) : (UInt8.ofNat q).toNat = q := by
  rw [UInt8.toNat_ofNat', Nat.mod_eq_of_lt (by simpa using h)]

theorem ofBeBytes_beBytes {k n : Nat} (h : n < 256 ^ k) : ofBeBytes (beBytes k n) = n := by
  induction k generalizing n with
  | zero => simp_all [beBytes, ofBeBytes]
  | succ k ih =>
    have hq : n / 256 ^ k < 256 := by
      rw [Nat.div_lt_iff_lt_mul (by positivity)]
      rwa [pow_succ, Nat.mul_comm] at h
    simp only [beBytes, ofBeBytes, length_beBytes]
    rw [toNat_ofNat_of_lt hq, ih (Nat.mod_lt _ (by positivity)), Nat.mul_comm, Nat.div_add_mod]

theorem beBytes_ofBeBytes (l : List UInt8) : beBytes l.length (ofBeBytes l) = l := by
  induction l with
  | nil => rfl
  | cons b bs ih =>
    have hr := ofBeBytes_lt bs
    have hpos : 0 < 256 ^ bs.length := by positivity
    -- The leading byte is the quotient by `256 ^ n`, the rest the remainder.
    have hdiv : (b.toNat * 256 ^ bs.length + ofBeBytes bs) / 256 ^ bs.length = b.toNat := by
      rw [Nat.mul_comm, Nat.mul_add_div hpos, Nat.div_eq_of_lt hr, Nat.add_zero]
    have hmod : (b.toNat * 256 ^ bs.length + ofBeBytes bs) % 256 ^ bs.length = ofBeBytes bs := by
      rw [Nat.mul_comm, Nat.mul_add_mod, Nat.mod_eq_of_lt hr]
    simp only [List.length_cons, beBytes, ofBeBytes, hdiv, hmod, ih, UInt8.ofNat_toNat]

/-- Two numbers written as a leading digit and a rest below `d` compare as the leading digits do, and as the
rests when the leading digits agree. -/
theorem compare_digit {d qa qb ra rb : Nat} (ha : ra < d) (hb : rb < d) :
    compare (qa * d + ra) (qb * d + rb) = (compare qa qb).then (compare ra rb) := by
  rcases lt_trichotomy qa qb with hq | rfl | hq
  · have hlt : qa * d + ra < qb * d + rb := by nlinarith
    rw [compare_lt_iff_lt.2 hlt, compare_lt_iff_lt.2 hq]
    rfl
  · rw [compare_eq_iff_eq.2 (rfl : qa = qa)]
    show compare (qa * d + ra) (qa * d + rb) = compare ra rb
    rcases lt_trichotomy ra rb with hr | rfl | hr
    · rw [compare_lt_iff_lt.2 (by omega), compare_lt_iff_lt.2 hr]
    · rw [compare_eq_iff_eq.2 (rfl : qa * d + ra = qa * d + ra), compare_eq_iff_eq.2 (rfl : ra = ra)]
    · rw [compare_gt_iff_gt.2 (by omega), compare_gt_iff_gt.2 hr]
  · have hgt : qb * d + rb < qa * d + ra := by nlinarith
    rw [compare_gt_iff_gt.2 hgt, compare_gt_iff_gt.2 hq]
    rfl

/-- The unsigned lexicographic order of the bytes of two words of one width is the order of the words. -/
theorem compareLex_beBytes {k a b : Nat} (ha : a < 256 ^ k) (hb : b < 256 ^ k) :
    List.compareLex compare (beBytes k a) (beBytes k b) = compare a b := by
  induction k generalizing a b with
  | zero =>
    simp only [pow_zero, Nat.lt_one_iff] at ha hb
    subst ha hb
    rfl
  | succ k ih =>
    have hpos : 0 < 256 ^ k := by positivity
    have hq : ∀ n, n < 256 ^ (k + 1) → n / 256 ^ k < 256 := fun n hn => by
      rw [Nat.div_lt_iff_lt_mul hpos]
      rwa [pow_succ, Nat.mul_comm] at hn
    have hbyte : compare (UInt8.ofNat (a / 256 ^ k)) (UInt8.ofNat (b / 256 ^ k)) =
        compare (a / 256 ^ k) (b / 256 ^ k) := by
      simp only [compare, compareOfLessAndEq, UInt8.lt_iff_toNat_lt, UInt8.ext_iff,
        toNat_ofNat_of_lt (hq a ha), toNat_ofNat_of_lt (hq b hb)]
    simp only [beBytes]
    rw [List.compareLex_cons_cons, hbyte, ih (Nat.mod_lt _ hpos) (Nat.mod_lt _ hpos),
      ← compare_digit (Nat.mod_lt a hpos) (Nat.mod_lt b hpos), Nat.div_add_mod', Nat.div_add_mod']

/-! ### Masks -/

/-- Flipping every bit of a `w`-bit word reverses the order. -/
theorem xor_two_pow_sub_one {x w : Nat} (h : x < 2 ^ w) : x ^^^ (2 ^ w - 1) = 2 ^ w - 1 - x := by
  apply Nat.eq_of_testBit_eq
  intro i
  rw [Nat.sub_sub, Nat.add_comm 1 x, Nat.testBit_two_pow_sub_succ h, Nat.testBit_xor, Nat.testBit_two_pow_sub_one]
  by_cases hi : i < w
  · simp [hi]
  · have hx : x.testBit i = false := Nat.testBit_lt_two_pow (lt_of_lt_of_le h (Nat.pow_le_pow_right (by omega)
      (Nat.le_of_not_lt hi)))
    simp [hi, hx]

/-- Setting the top bit of a word in the lower half. -/
theorem xor_two_pow_of_lt {r k : Nat} (h : r < 2 ^ k) : r ^^^ 2 ^ k = 2 ^ k + r := by
  apply Nat.eq_of_testBit_eq
  intro i
  rw [Nat.testBit_xor, Nat.testBit_two_pow]
  rcases lt_trichotomy i k with hi | rfl | hi
  · rw [Nat.testBit_two_pow_add_gt hi]
    simp [Nat.ne_of_gt hi]
  · rw [Nat.testBit_two_pow_add_eq, Nat.testBit_lt_two_pow h]
    simp
  · -- Above the top bit both sides are zero.
    have hlt : 2 ^ k + r < 2 ^ i := by
      have : 2 ^ (k + 1) ≤ 2 ^ i := Nat.pow_le_pow_right (by omega) hi
      rw [pow_succ] at this
      omega
    rw [Nat.testBit_lt_two_pow hlt, Nat.testBit_lt_two_pow (lt_of_le_of_lt (Nat.le_add_left r _) hlt)]
    simp [Nat.ne_of_lt hi]

/-- Clearing the top bit of a word in the upper half. -/
theorem two_pow_add_xor {r k : Nat} (h : r < 2 ^ k) : (2 ^ k + r) ^^^ 2 ^ k = r := by
  rw [← xor_two_pow_of_lt h, Nat.xor_assoc, Nat.xor_self, Nat.xor_zero]

/-! ### Two's complement -/

/-- The two's complement reading of a `w`-bit word. -/
def toSigned (w x : Nat) : Int := if x < 2 ^ (w - 1) then x else (x : Int) - 2 ^ w

/-- Two comparisons agree when their strict orders and their equalities do. -/
theorem compare_eq_compare_of_iff {α β : Type} [LinearOrder α] [LinearOrder β] {a b : α} {c d : β}
    (hlt : a < b ↔ c < d) (heq : a = b ↔ c = d) : compare a b = compare c d := by
  rcases lt_trichotomy a b with h | h | h
  · rw [compare_lt_iff_lt.2 h, compare_lt_iff_lt.2 (hlt.1 h)]
  · rw [compare_eq_iff_eq.2 h, compare_eq_iff_eq.2 (heq.1 h)]
  · have hcd : d < c := by
      rcases lt_trichotomy c d with h' | h' | h'
      · exact absurd (hlt.2 h') (not_lt.2 h.le)
      · exact absurd (heq.2 h') (ne_of_gt h)
      · exact h'
    rw [compare_gt_iff_gt.2 h, compare_gt_iff_gt.2 hcd]

/-- Flipping the top bit shifts the two's complement value up by half the range. -/
theorem xor_top_eq_toSigned {w x : Nat} (hw : 0 < w) (h : x < 2 ^ w) :
    ((x ^^^ 2 ^ (w - 1) : Nat) : Int) = toSigned w x + 2 ^ (w - 1) := by
  obtain ⟨k, rfl⟩ : ∃ k, w = k + 1 := ⟨w - 1, by omega⟩
  rw [Nat.add_sub_cancel] at *
  unfold toSigned
  rw [Nat.add_sub_cancel]
  split
  · rename_i hlow
    rw [xor_two_pow_of_lt hlow]
    push_cast
    ring
  · -- The upper half: the word is the top bit above a remainder.
    rename_i hhigh
    obtain ⟨r, hr, rfl⟩ : ∃ r, r < 2 ^ k ∧ x = 2 ^ k + r := ⟨x - 2 ^ k, by rw [pow_succ] at h; omega, by omega⟩
    rw [two_pow_add_xor hr, pow_succ]
    push_cast
    ring

/-- The unsigned order of words with the top bit flipped is the two's complement order of the words. -/
theorem compare_xor_top {w x y : Nat} (hw : 0 < w) (hx : x < 2 ^ w) (hy : y < 2 ^ w) :
    compare (x ^^^ 2 ^ (w - 1)) (y ^^^ 2 ^ (w - 1)) = compare (toSigned w x) (toSigned w y) := by
  have hx' := xor_top_eq_toSigned hw hx
  have hy' := xor_top_eq_toSigned hw hy
  apply compare_eq_compare_of_iff
  · rw [← Int.ofNat_lt, hx', hy']
    exact add_lt_add_iff_right _
  · rw [← Int.ofNat_inj, hx', hy']
    exact add_left_inj _

/-! ### Bytes of a word modulo its width -/

/-- The `k` bytes of a number are those of its remainder by `256 ^ k`. -/
theorem beBytes_mod (k n : Nat) : beBytes k (n % 256 ^ k) = beBytes k n := by
  induction k generalizing n with
  | zero => rfl
  | succ k ih =>
    simp only [beBytes]
    have hdiv : n % 256 ^ (k + 1) / 256 ^ k = n / 256 ^ k % 256 := by
      rw [pow_succ, Nat.mod_mul_right_div_self]
    have hmod : n % 256 ^ (k + 1) % 256 ^ k = n % 256 ^ k :=
      Nat.mod_mod_of_dvd n (pow_dvd_pow 256 (Nat.le_succ k))
    rw [hdiv, hmod, UInt8.ofNat_mod_size]

/-- The leading byte of `k + 1` bytes, and the `k` bytes below it. -/
theorem beBytes_succ (k n : Nat) : beBytes (k + 1) n = UInt8.ofNat (n / 256 ^ k) :: beBytes k n := by
  rw [beBytes, beBytes_mod]

theorem ofBeBytes_append (l₁ l₂ : List UInt8) :
    ofBeBytes (l₁ ++ l₂) = ofBeBytes l₁ * 256 ^ l₂.length + ofBeBytes l₂ := by
  induction l₁ with
  | nil => simp [ofBeBytes]
  | cons b bs ih =>
    simp only [List.cons_append, ofBeBytes, List.length_append, ih, pow_add]
    ring

theorem ofBeBytes_beBytes_mod (k n : Nat) : ofBeBytes (beBytes k n) = n % 256 ^ k := by
  rw [← beBytes_mod, ofBeBytes_beBytes (Nat.mod_lt _ (by positivity))]

/-! ### Rotations -/

/-- Below the width, the bit that a rotation brings to position `i`. -/
theorem getLsbD_rotateLeft_of_lt {w : Nat} {x : BitVec w} {r i : Nat} (hi : i < w) :
    (x.rotateLeft r).getLsbD i = x.getLsbD (if i < r % w then w - r % w + i else i - r % w) := by
  rw [BitVec.getLsbD_rotateLeft]
  split_ifs with h
  · simp [h]
  · simp [h, hi]

theorem rotateLeft_rotateLeft {w : Nat} (x : BitVec w) (a b : Nat) :
    (x.rotateLeft a).rotateLeft b = x.rotateLeft (a + b) := by
  rcases Nat.eq_zero_or_pos w with rfl | hw
  · exact Subsingleton.elim _ _
  have ha := Nat.mod_lt a hw
  have hb := Nat.mod_lt b hw
  have hc := Nat.mod_lt (a + b) hw
  -- The two amounts add up to the sum's, or overshoot it by the width.
  have hab : (a + b) % w = a % w + b % w ∨ (a + b) % w + w = a % w + b % w := by
    rw [Nat.add_mod]
    rcases Nat.lt_or_ge (a % w + b % w) w with h | h
    · exact .inl (Nat.mod_eq_of_lt h)
    · right
      rw [Nat.mod_eq_sub_mod h, Nat.mod_eq_of_lt (by omega)]
      omega
  apply BitVec.eq_of_getLsbD_eq
  intro i hi
  have hj : (if i < b % w then w - b % w + i else i - b % w) < w := by split_ifs <;> omega
  rw [getLsbD_rotateLeft_of_lt hi, getLsbD_rotateLeft_of_lt hj, getLsbD_rotateLeft_of_lt hi]
  congr 1
  generalize a % w = a' at *
  generalize b % w = b' at *
  generalize (a + b) % w = c at *
  split_ifs at hj ⊢ <;> omega

theorem rotateLeft_zero {w : Nat} (x : BitVec w) : x.rotateLeft 0 = x := by
  apply BitVec.eq_of_toNat_eq
  simp [BitVec.toNat_rotateLeft, Nat.mod_eq_of_lt x.isLt, Nat.shiftRight_eq_div_pow,
    Nat.div_eq_of_lt x.isLt]

/-- The low `k` bits of a rotation left by `j ≥ k`: the top `j` bits of the word come down. -/
theorem toNat_rotateLeft_mod_two_pow {w : Nat} (x : BitVec w) {j k : Nat} (hk : k ≤ j) (hj : j ≤ w) :
    (x.rotateLeft j).toNat % 2 ^ k = x.toNat / 2 ^ (w - j) % 2 ^ k := by
  rcases hj.lt_or_eq with hj | rfl
  · have hlow : x.toNat <<< j % 2 ^ w % 2 ^ k = 0 := by
      rw [Nat.mod_mod_of_dvd _ (pow_dvd_pow 2 (hk.trans hj.le)), Nat.shiftLeft_eq]
      exact Nat.mod_eq_zero_of_dvd (Dvd.dvd.mul_left (pow_dvd_pow 2 hk) _)
    rw [BitVec.toNat_rotateLeft, Nat.mod_eq_of_lt hj, Nat.or_mod_two_pow, hlow, Nat.zero_or,
      Nat.shiftRight_eq_div_pow]
  · rw [← BitVec.rotateLeft_mod_eq_rotateLeft, Nat.mod_self, rotateLeft_zero, Nat.sub_self, pow_zero,
      Nat.div_one]

/-! ### Leading zeros -/

/-- `std::countl_zero` of a `w`-bit word: the zero bits above its highest one bit. -/
def countlZero (w n : Nat) : Nat := w - n.size

/-- A word whose highest one bit is bit `m`. -/
theorem countlZero_of_le_of_lt {w m n : Nat} (h₁ : 2 ^ m ≤ n) (h₂ : n < 2 ^ (m + 1)) :
    countlZero w n = w - (m + 1) := by
  rw [countlZero, le_antisymm (Nat.size_le.2 h₂) (Nat.lt_size.2 h₁)]

theorem countlZero_zero (w : Nat) : countlZero w 0 = w := by
  simp [countlZero, Nat.size_zero]


end Word
