import Mathlib

/-!
# A fraction scaled by a count

Read `v < w` as the fraction `v / w`; `part n w v = ⌊v * n / w⌋` says which of `n` equal parts of
`[0, w)` it falls in.  Part `s` is the interval `[firstAt n w s, firstAt n w (s + 1))`, with
`firstAt n w s = ⌈s * w / n⌉` (`part_eq_iff`).  When `n ≤ w` no part is empty (`part_firstAt`), the
last value is in the last part (`part_width_pred`), and two neighbours lie in the same part or in
neighbouring ones (`part_succ_le`).
-/

namespace ScaledFloor

/-- The part of `n` equal parts of `[0, w)` that `v` falls in. -/
def part (n w v : Nat) : Nat := v * n / w

/-- The least `v` with `s ≤ part n w v`: the ceiling of `s * w / n`. -/
def firstAt (n w s : Nat) : Nat := (s * w + n - 1) / n

variable {n w s v : Nat}

theorem part_mono {v v' : Nat} (h : v ≤ v') : part n w v ≤ part n w v' :=
  Nat.div_le_div_right (Nat.mul_le_mul_right n h)

theorem le_part_iff (hn : 0 < n) (hw : 0 < w) : s ≤ part n w v ↔ firstAt n w s ≤ v := by
  rw [part, firstAt, Nat.le_div_iff_mul_le hw, Nat.div_le_iff_le_mul_add_pred hn, Nat.mul_comm n v]
  omega

theorem part_lt_iff (hn : 0 < n) (hw : 0 < w) : part n w v < s ↔ v < firstAt n w s := by
  rw [← Nat.not_le, le_part_iff hn hw, Nat.not_le]

theorem part_eq_iff (hn : 0 < n) (hw : 0 < w) :
    part n w v = s ↔ firstAt n w s ≤ v ∧ v < firstAt n w (s + 1) := by
  rw [← le_part_iff hn hw, ← part_lt_iff hn hw]
  omega

@[simp] theorem part_zero : part n w 0 = 0 := by simp [part]

@[simp] theorem firstAt_zero : firstAt n w 0 = 0 := by
  rcases Nat.eq_zero_or_pos n with hn | hn
  · simp [firstAt, hn]
  · rw [firstAt, Nat.zero_mul, Nat.zero_add, Nat.div_eq_of_lt (Nat.sub_lt hn Nat.one_pos)]

theorem firstAt_mono {s s' : Nat} (h : s ≤ s') : firstAt n w s ≤ firstAt n w s' :=
  Nat.div_le_div_right (Nat.sub_le_sub_right (Nat.add_le_add_right (Nat.mul_le_mul_right w h) n) 1)

/-- With at least as many values as parts, each part begins after the one before it. -/
theorem firstAt_lt_firstAt_succ (hn : 0 < n) (hnw : n ≤ w) : firstAt n w s < firstAt n w (s + 1) := by
  have hle : s * w + n - 1 + n ≤ (s + 1) * w + n - 1 := by
    rw [Nat.succ_mul]
    omega
  calc firstAt n w s < (s * w + n - 1) / n + 1 := Nat.lt_succ_self _
    _ = (s * w + n - 1 + n) / n := (Nat.add_div_right _ hn).symm
    _ ≤ firstAt n w (s + 1) := Nat.div_le_div_right hle

theorem part_firstAt (hn : 0 < n) (hnw : n ≤ w) : part n w (firstAt n w s) = s :=
  (part_eq_iff hn (Nat.lt_of_lt_of_le hn hnw)).2 ⟨le_rfl, firstAt_lt_firstAt_succ hn hnw⟩

theorem firstAt_count (hn : 0 < n) : firstAt n w n = w := by
  rw [firstAt, Nat.add_sub_assoc hn, Nat.mul_add_div hn,
    Nat.div_eq_of_lt (Nat.sub_lt hn Nat.one_pos), Nat.add_zero]

theorem firstAt_lt_width (hs : s < n) (hnw : n ≤ w) : firstAt n w s < w := by
  have hn : 0 < n := Nat.lt_of_le_of_lt (Nat.zero_le s) hs
  calc firstAt n w s < firstAt n w (s + 1) := firstAt_lt_firstAt_succ hn hnw
    _ ≤ firstAt n w n := firstAt_mono hs
    _ = w := firstAt_count hn

/-- The ceiling is the floor or one more. -/
theorem div_le_firstAt (hn : 0 < n) : s * w / n ≤ firstAt n w s :=
  Nat.div_le_div_right (show s * w ≤ s * w + n - 1 by omega)

theorem firstAt_le_div_succ (hn : 0 < n) : firstAt n w s ≤ s * w / n + 1 := by
  rw [← Nat.add_div_right _ hn]
  exact Nat.div_le_div_right (by omega)

theorem firstAt_pos (hs : 0 < s) (hw : 0 < w) (hn : 0 < n) : 0 < firstAt n w s := by
  rw [firstAt, Nat.div_pos_iff]
  exact ⟨hn, by have := Nat.mul_pos hs hw; omega⟩

theorem part_lt_count (hn : 0 < n) (hv : v < w) : part n w v < n :=
  Nat.div_lt_of_lt_mul (Nat.mul_lt_mul_of_pos_right hv hn)

/-- Neighbouring values lie in the same part or in neighbouring parts. -/
theorem part_succ_le (hnw : n ≤ w) : part n w (v + 1) ≤ part n w v + 1 := by
  rcases Nat.eq_zero_or_pos w with hw | hw
  · simp [part, hw]
  · rw [part, part, ← Nat.add_div_right _ hw, Nat.succ_mul]
    exact Nat.div_le_div_right (by omega)

/-- The last value is in the last part. -/
theorem part_width_pred (hn : 0 < n) (hnw : n ≤ w) : part n w (w - 1) = n - 1 := by
  have hw : 0 < w := Nat.lt_of_lt_of_le hn hnw
  rw [part_eq_iff hn hw, Nat.sub_add_cancel hn, firstAt_count hn]
  exact ⟨Nat.le_sub_one_of_lt (firstAt_lt_width (Nat.sub_lt hn Nat.one_pos) hnw), Nat.sub_lt hw Nat.one_pos⟩

end ScaledFloor
