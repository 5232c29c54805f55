import Mathlib
import Scylla.Types.ComparableBytes
import Scylla.Types.EscapeZeros

/-!
# Escaping keeps the order

`types/comparable_bytes.cc` on `escape_zeros`: "This translation preserves order, and since the encoding for 0 is
higher than the separator, it also ensures that shorter components are treated as smaller."  Comparable bytes are
compared unsigned, byte by byte (`compareUnsigned`).  The escaping of a value followed by anything that starts
below 0xFE (a separator, or the end) compares as the value, then as what follows
(`compareUnsigned_escape_append`), and so does what `escape_zeros` writes, in any fragmentation
(`compareUnsigned_escapeZeros`).

The proof follows the transducer byte by byte.  `escapeFrom e v` is the escaping of `v` from the escaped state `e`
with its final byte, and a byte `b` writes `escapeByte e b` and moves to the state `b = 0` (`escapeFrom_cons`).
Two escapings that meet a different byte first differ in its output; one that meets the end first writes its final
byte, which is below what the other writes (`compareUnsigned_escapeFrom_nil_cons`): from the escaped state the other
writes 0xFE or 0xFF and the continuation starts below 0xFE.
-/

namespace Scylla

/-- Bytes are compared as numbers. -/
theorem compare_uInt8 (a b : UInt8) : compare a b = compare a.toNat b.toNat := by
  simp only [compare, compareOfLessAndEq, UInt8.lt_iff_toNat_lt, UInt8.ext_iff]

theorem compare_uInt8_of_lt {a b : UInt8} (h : a.toNat < b.toNat) : compare a b = .lt := by
  rw [compare_uInt8, Nat.compare_eq_lt.2 h]

theorem compare_uInt8_of_gt {a b : UInt8} (h : b.toNat < a.toNat) : compare a b = .gt := by
  rw [compare_uInt8, Nat.compare_eq_gt.2 h]

theorem compare_uInt8_self (a : UInt8) : compare a a = .eq := Std.ReflCmp.compare_self

/-- Two different bytes compare strictly, so what follows them is not looked at. -/
theorem then_compare_uInt8_of_ne {a b : UInt8} (h : a ≠ b) (o : Ordering) : (compare a b).then o = compare a b := by
  rcases Nat.lt_or_gt_of_ne fun hab : a.toNat = b.toNat => h (UInt8.toNat_inj.1 hab) with hlt | hgt
  · rw [compare_uInt8_of_lt hlt]; rfl
  · rw [compare_uInt8_of_gt hgt]; rfl

theorem escape_lt_of_ne {b : UInt8} (hb : b ≠ ESCAPE) : ESCAPE.toNat < b.toNat :=
  Nat.pos_of_ne_zero fun h => hb (UInt8.toNat_inj.1 h)

theorem compareUnsigned_cons_cons (a b : UInt8) (l l' : List UInt8) :
    compareUnsigned (a :: l) (b :: l') = (compare a b).then (compareUnsigned l l') :=
  List.compareLex_cons_cons

theorem compareUnsigned_swap (l l' : List UInt8) : compareUnsigned l l' = (compareUnsigned l' l).swap := by
  show List.compareLex compare l l' = (List.compareLex compare l' l).swap
  exact Std.OrientedCmp.eq_swap

theorem compareUnsigned_self (l : List UInt8) : compareUnsigned l l = .eq := by
  show List.compareLex compare l l = .eq
  exact Std.ReflCmp.compare_self

theorem compareUnsigned_append_left (p l l' : List UInt8) :
    compareUnsigned (p ++ l) (p ++ l') = compareUnsigned l l' := by
  induction p with
  | nil => rfl
  | cons a p ih =>
    rw [List.cons_append, List.cons_append, compareUnsigned_cons_cons, compare_uInt8_self, ih]
    rfl

/-! ### The escaping from a state -/

/-- The escaping of `v` from the escaped state `escaped`, with the final byte. -/
def escapeFrom (escaped : Bool) (v : List UInt8) : List UInt8 :=
  escapeRun escaped v ++ [if endsEscaped escaped v then ESCAPED_0_CONT else ESCAPE]

/-- What escaping writes for the byte `b` from the escaped state `escaped`. -/
def escapeByte (escaped : Bool) (b : UInt8) : List UInt8 :=
  if b = ESCAPE then [if escaped then ESCAPED_0_CONT else ESCAPE]
  else if escaped then [ESCAPED_0_DONE, b] else [b]

theorem escape_eq_escapeFrom (v : List UInt8) : escape v = escapeFrom false v := rfl

theorem escapeFrom_nil (escaped : Bool) :
    escapeFrom escaped [] = [if escaped then ESCAPED_0_CONT else ESCAPE] := rfl

theorem escapeFrom_cons (escaped : Bool) (b : UInt8) (bs : List UInt8) :
    escapeFrom escaped (b :: bs) = escapeByte escaped b ++ escapeFrom (decide (b = ESCAPE)) bs := by
  by_cases hb : b = ESCAPE <;> cases escaped <;> simp [escapeFrom, escapeByte, escapeRun, endsEscaped, hb]

/-- A zero writes what the end writes, and moves to the escaped state. -/
theorem escapeFrom_escape_cons (escaped : Bool) (bs : List UInt8) :
    escapeFrom escaped (ESCAPE :: bs) = (if escaped then ESCAPED_0_CONT else ESCAPE) :: escapeFrom true bs := by
  simp [escapeFrom_cons, escapeByte]

theorem escapeFrom_false_cons {b : UInt8} (hb : b ≠ ESCAPE) (bs : List UInt8) :
    escapeFrom false (b :: bs) = b :: escapeFrom false bs := by
  simp [escapeFrom_cons, escapeByte, hb]

theorem escapeFrom_true_cons {b : UInt8} (hb : b ≠ ESCAPE) (bs : List UInt8) :
    escapeFrom true (b :: bs) = ESCAPED_0_DONE :: b :: escapeFrom false bs := by
  simp [escapeFrom_cons, escapeByte, hb]

/-- From the escaped state the escaping starts with 0xFE or 0xFF. -/
theorem exists_escapeFrom_true (v : List UInt8) : ∃ h t, escapeFrom true v = h :: t ∧ 0xFE ≤ h.toNat := by
  cases v with
  | nil => exact ⟨ESCAPED_0_CONT, [], escapeFrom_nil true, by decide⟩
  | cons b bs =>
    by_cases hb : b = ESCAPE
    · subst hb
      exact ⟨ESCAPED_0_CONT, _, escapeFrom_escape_cons true bs, by decide⟩
    · exact ⟨ESCAPED_0_DONE, _, escapeFrom_true_cons hb bs, by decide⟩

/-- A continuation that starts below 0xFE sorts before what the escaped state writes. -/
theorem compareUnsigned_escapeFrom_true {x : List UInt8} (hx : ∀ c ∈ x.head?, c.toNat < 0xFE) (v y : List UInt8) :
    compareUnsigned x (escapeFrom true v ++ y) = .lt := by
  obtain ⟨h, t, he, hh⟩ := exists_escapeFrom_true v
  rw [he, List.cons_append]
  cases x with
  | nil => rfl
  | cons c cs =>
    rw [compareUnsigned_cons_cons, compare_uInt8_of_lt (lt_of_lt_of_le (hx c rfl) hh)]
    rfl

/-! ### The order -/

/-- The escaping that ends first sorts first: its final byte is below what the other writes. -/
theorem compareUnsigned_escapeFrom_nil_cons (escaped : Bool) {x : List UInt8}
    (hx : ∀ c ∈ x.head?, c.toNat < 0xFE) (b : UInt8) (bs y : List UInt8) :
    compareUnsigned (escapeFrom escaped [] ++ x) (escapeFrom escaped (b :: bs) ++ y) = .lt := by
  rw [escapeFrom_nil, List.singleton_append]
  by_cases hb : b = ESCAPE
  · -- The same first byte; the other goes on in the escaped state.
    subst hb
    rw [escapeFrom_escape_cons, List.cons_append, compareUnsigned_cons_cons, compare_uInt8_self]
    exact compareUnsigned_escapeFrom_true hx bs y
  · cases escaped
    · -- 0x00 against the byte itself.
      rw [escapeFrom_false_cons hb, List.cons_append, compareUnsigned_cons_cons, if_neg Bool.false_ne_true,
        compare_uInt8_of_lt (escape_lt_of_ne hb)]
      rfl
    · -- 0xFE against 0xFF.
      rw [escapeFrom_true_cons hb, List.cons_append, compareUnsigned_cons_cons]
      rfl

/-- Two different first bytes write outputs that differ as the bytes do. -/
theorem compareUnsigned_escapeFrom_cons_cons_of_ne (escaped : Bool) {b b' : UInt8} (hne : b ≠ b')
    (bs bs' x y : List UInt8) :
    compareUnsigned (escapeFrom escaped (b :: bs) ++ x) (escapeFrom escaped (b' :: bs') ++ y) = compare b b' := by
  by_cases hb : b = ESCAPE <;> by_cases hb' : b' = ESCAPE
  · exact absurd (hb.trans hb'.symm) hne
  · -- A zero against a non-zero byte: 0x00 below it, or 0xFE below 0xFF.
    subst hb
    have hlt := compare_uInt8_of_lt (escape_lt_of_ne hb')
    cases escaped
    · rw [escapeFrom_escape_cons, escapeFrom_false_cons hb', if_neg Bool.false_ne_true]
      simp only [List.cons_append, compareUnsigned_cons_cons, hlt]
      rfl
    · rw [escapeFrom_escape_cons, escapeFrom_true_cons hb', hlt]
      simp only [List.cons_append, compareUnsigned_cons_cons]
      rfl
  · subst hb'
    have hgt := compare_uInt8_of_gt (escape_lt_of_ne hb)
    cases escaped
    · rw [escapeFrom_escape_cons, escapeFrom_false_cons hb, if_neg Bool.false_ne_true]
      simp only [List.cons_append, compareUnsigned_cons_cons, hgt]
      rfl
    · rw [escapeFrom_escape_cons, escapeFrom_true_cons hb, hgt]
      simp only [List.cons_append, compareUnsigned_cons_cons]
      rfl
  · -- Two non-zero bytes are written as they are, after 0xFF in the escaped state.
    cases escaped
    · rw [escapeFrom_false_cons hb, escapeFrom_false_cons hb']
      simp only [List.cons_append, compareUnsigned_cons_cons, then_compare_uInt8_of_ne hne]
    · rw [escapeFrom_true_cons hb, escapeFrom_true_cons hb']
      simp only [List.cons_append, compareUnsigned_cons_cons, compare_uInt8_self, then_compare_uInt8_of_ne hne]
      rfl

/-- The escapings of two different values, each followed by something that starts below 0xFE, compare as the
values.  The induction is on the first value, with the state and the second value generalised: a common first
byte writes a common output and moves both to one state. -/
theorem compareUnsigned_escapeFrom_append {x y : List UInt8} (hx : ∀ c ∈ x.head?, c.toNat < 0xFE)
    (hy : ∀ c ∈ y.head?, c.toNat < 0xFE) :
    ∀ (escaped : Bool) (a b : List UInt8), a ≠ b →
      compareUnsigned (escapeFrom escaped a ++ x) (escapeFrom escaped b ++ y) = compareUnsigned a b := by
  intro escaped a
  induction a generalizing escaped with
  | nil =>
    rintro (_ | ⟨b, bs⟩) hne
    · exact absurd rfl hne
    · exact compareUnsigned_escapeFrom_nil_cons escaped hx b bs y
  | cons c cs ih =>
    rintro (_ | ⟨b, bs⟩) hne
    · rw [compareUnsigned_swap, compareUnsigned_escapeFrom_nil_cons escaped hy c cs x]
      rfl
    · by_cases hcb : c = b
      · -- The same byte: the rest decides.
        subst hcb
        have hrest : cs ≠ bs := fun h => hne (h ▸ rfl)
        rw [escapeFrom_cons, escapeFrom_cons, List.append_assoc, List.append_assoc, compareUnsigned_append_left,
          ih _ bs hrest, compareUnsigned_cons_cons, compare_uInt8_self]
        rfl
      · rw [compareUnsigned_escapeFrom_cons_cons_of_ne escaped hcb, compareUnsigned_cons_cons,
          then_compare_uInt8_of_ne hcb]

/-- Escaped components order as their values, then as what follows them: the escaping of `a` followed by
anything that starts below 0xFE (a separator, or the end) compares with the escaping of `b` so followed as `a`
with `b`, and then as the continuations. -/
theorem compareUnsigned_escape_append (a b : List UInt8) {x y : List UInt8} (hx : ∀ c ∈ x.head?, c.toNat < 0xFE)
    (hy : ∀ c ∈ y.head?, c.toNat < 0xFE) :
    compareUnsigned (escape a ++ x) (escape b ++ y) = (compareUnsigned a b).then (compareUnsigned x y) := by
  by_cases hab : a = b
  · subst hab
    rw [compareUnsigned_append_left, compareUnsigned_self]
    rfl
  · rw [escape_eq_escapeFrom, escape_eq_escapeFrom, compareUnsigned_escapeFrom_append hx hy false a b hab]
    -- Different values compare strictly.
    have hne : compareUnsigned a b ≠ .eq := fun h => hab (Std.LawfulEqCmp.eq_of_compare
      (show List.compareLex compare a b = .eq from h))
    cases h : compareUnsigned a b
    · rfl
    · exact absurd h hne
    · rfl

/-! ### `escape_zeros` -/

/-- What `escape_zeros` writes after a common prefix `out` keeps the order of the values, in any fragmentation of
their views: followed by anything that starts below 0xFE, two values compare as they do, and equal values as what
follows them. -/
theorem compareUnsigned_escapeZeros (v w : ManagedBytesView) (out : List UInt8) {x y : List UInt8}
    (hx : ∀ c ∈ x.head?, c.toNat < 0xFE) (hy : ∀ c ∈ y.head?, c.toNat < 0xFE) :
    compareUnsigned (escapeZeros v out ++ x) (escapeZeros w out ++ y) =
      (compareUnsigned v.bytes w.bytes).then (compareUnsigned x y) := by
  rw [escapeZeros_eq, escapeZeros_eq, List.append_assoc, List.append_assoc, compareUnsigned_append_left]
  exact compareUnsigned_escape_append v.bytes w.bytes hx hy

/-- "A" sorts before "A\0" whatever follows each, here a separator and more: its final 0x00 is followed by the
separator, below the 0xFE that the trailing zero of "A\0" writes. -/
theorem compareUnsigned_escapeZeros_shorter :
    compareUnsigned (escapeZeros ⟨[[0x41]], by decide⟩ [] ++ [0x00, 0x42])
      (escapeZeros ⟨[[0x41, 0x00]], by decide⟩ [] ++ [0x00]) = .lt := by
  rw [compareUnsigned_escapeZeros _ _ _ (fun c hc => by cases hc; decide) fun c hc => by cases hc; decide]
  decide

end Scylla
