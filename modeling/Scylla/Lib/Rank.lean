import Mathlib

/-!
# The value at a rank

`(l.insertionSort (· ≤ ·)).getD k d`, the value at position `k` of `l` sorted ascending (the value that
`std::nth_element` puts at `k`), is the greatest `c` that at least `l.length - k` values of `l` reach
(`isGreatest_getD_insertionSort`).  A condition "enough values reach `c`" is closed downwards in `c`, so two of
them hold together exactly up to the smaller of their greatest bounds (`isGreatest_inter_min`).
-/

namespace Rank

variable {α : Type*} [LinearOrder α]

omit [LinearOrder α] in
private theorem getD_eq_getElem' {s : List α} {k : Nat} (hk : k < s.length) (d : α) : s.getD k d = s[k] := by
  simp [List.getD_eq_getElem?_getD, hk]

/-- In a sorted list a value is at most every value at a later or the same position. -/
private theorem getElem_le_getElem {s : List α} (hs : s.Pairwise (· ≤ ·)) {i j : Nat} (hi : i < s.length)
    (hj : j < s.length) (hij : i ≤ j) : s[i] ≤ s[j] := by
  rcases Nat.lt_or_eq_of_le hij with hlt | rfl
  · exact List.pairwise_iff_getElem.1 hs i j hi hj hlt
  · exact le_rfl

/-- From position `k` on, the values of a sorted list are at least the one at `k`. -/
theorem getD_le_of_mem_drop {s : List α} (hs : s.Pairwise (· ≤ ·)) {k : Nat} (hk : k < s.length) (d : α)
    {x : α} (hx : x ∈ s.drop k) : s.getD k d ≤ x := by
  obtain ⟨j, hj, rfl⟩ := List.mem_drop_iff_getElem.1 hx
  rw [getD_eq_getElem' hk]
  exact getElem_le_getElem hs hk _ (Nat.le_add_right k j)

/-- Up to position `k`, the values of a sorted list are at most the one at `k`. -/
theorem le_getD_of_mem_take {s : List α} (hs : s.Pairwise (· ≤ ·)) {k : Nat} (hk : k < s.length) (d : α)
    {x : α} (hx : x ∈ s.take (k + 1)) : x ≤ s.getD k d := by
  obtain ⟨j, hj, rfl⟩ := List.mem_take_iff_getElem.1 hx
  rw [getD_eq_getElem' hk]
  exact getElem_le_getElem hs _ hk (by omega)

variable (l : List α) {k : Nat}

/-- At least `l.length - k` values reach the value at rank `k`. -/
theorem length_sub_le_countP (hk : k < l.length) (d : α) :
    l.length - k ≤ l.countP fun x => (l.insertionSort (· ≤ ·)).getD k d ≤ x := by
  have hperm := List.perm_insertionSort (· ≤ ·) l
  have hsorted := List.pairwise_insertionSort (· ≤ ·) l
  have hks : k < (l.insertionSort (· ≤ ·)).length := hperm.length_eq ▸ hk
  rw [← hperm.countP_eq, ← hperm.length_eq]
  have hdrop : ((l.insertionSort (· ≤ ·)).drop k).countP (fun x => (l.insertionSort (· ≤ ·)).getD k d ≤ x) =
      (l.insertionSort (· ≤ ·)).length - k := by
    rw [List.countP_eq_length.2 fun x hx => decide_eq_true (getD_le_of_mem_drop hsorted hks d hx),
      List.length_drop]
  calc (l.insertionSort (· ≤ ·)).length - k
      = ((l.insertionSort (· ≤ ·)).drop k).countP (fun x => (l.insertionSort (· ≤ ·)).getD k d ≤ x) := hdrop.symm
    _ ≤ ((l.insertionSort (· ≤ ·)).take k).countP (fun x => (l.insertionSort (· ≤ ·)).getD k d ≤ x) +
        ((l.insertionSort (· ≤ ·)).drop k).countP (fun x => (l.insertionSort (· ≤ ·)).getD k d ≤ x) :=
      Nat.le_add_left _ _
    _ = _ := by rw [← List.countP_append, List.take_append_drop]

/-- Fewer than `l.length - k` values reach anything above the value at rank `k`. -/
theorem countP_lt_length_sub (hk : k < l.length) (d : α) {c : α} (hc : (l.insertionSort (· ≤ ·)).getD k d < c) :
    (l.countP fun x => c ≤ x) < l.length - k := by
  have hperm := List.perm_insertionSort (· ≤ ·) l
  set s := l.insertionSort (· ≤ ·)
  have hsorted : s.Pairwise (· ≤ ·) := List.pairwise_insertionSort (· ≤ ·) l
  have hks : k < s.length := hperm.length_eq ▸ hk
  rw [← hperm.countP_eq, ← hperm.length_eq]
  -- None of the first `k + 1` sorted values reaches `c`; the others are `s.length - (k + 1)`.
  have htake : (s.take (k + 1)).countP (fun x => c ≤ x) = 0 :=
    List.countP_eq_zero.2 fun x hx => by
      simpa using lt_of_le_of_lt (le_getD_of_mem_take hsorted hks d hx) hc
  have hdrop : (s.drop (k + 1)).countP (fun x => c ≤ x) ≤ s.length - (k + 1) :=
    List.length_drop ▸ List.countP_le_length
  have hsplit : s.countP (fun x => c ≤ x) =
      (s.take (k + 1)).countP (fun x => c ≤ x) + (s.drop (k + 1)).countP (fun x => c ≤ x) := by
    rw [← List.countP_append, List.take_append_drop]
  omega

/-- The value at rank `k` is the greatest that `l.length - k` values reach. -/
theorem isGreatest_getD_insertionSort (hk : k < l.length) (d : α) :
    IsGreatest {c | l.length - k ≤ l.countP fun x => c ≤ x} ((l.insertionSort (· ≤ ·)).getD k d) :=
  ⟨length_sub_le_countP l hk d, fun c hc => le_of_not_gt fun hlt =>
    absurd (hc : l.length - k ≤ l.countP fun x => c ≤ x) (Nat.not_le.2 (countP_lt_length_sub l hk d hlt))⟩

/-- The bounds that a count reaches are closed downwards. -/
theorem countP_anti {m : Nat} {c c' : α} (hc : c' ≤ c) (h : m ≤ l.countP fun x => c ≤ x) :
    m ≤ l.countP fun x => c' ≤ x :=
  h.trans (List.countP_mono_left fun x _ hx => by simpa using le_trans hc (by simpa using hx))

/-- Two conditions closed downwards hold together exactly up to the smaller of their greatest bounds. -/
theorem isGreatest_inter_min {s t : Set α} {a b : α} (hs : IsGreatest s a) (ht : IsGreatest t b)
    (hsd : ∀ x y, y ≤ x → x ∈ s → y ∈ s) (htd : ∀ x y, y ≤ x → x ∈ t → y ∈ t) :
    IsGreatest (s ∩ t) (min a b) :=
  ⟨⟨hsd a _ (min_le_left a b) hs.1, htd b _ (min_le_right a b) ht.1⟩,
    fun _ hx => le_min (hs.2 hx.1) (ht.2 hx.2)⟩

/-! ### Ranks of distinct values -/

/-- A value of the list counts below every greater value, and so does every value below it. -/
theorem countP_lt_lt_of_mem {l : List α} {x y : α} (hx : x ∈ l) (hxy : x < y) :
    l.countP (· < x) < l.countP (· < y) := by
  induction l with
  | nil => cases hx
  | cons a l ih =>
    have hmono : l.countP (· < x) ≤ l.countP (· < y) :=
      List.countP_mono_left fun z _ hz => by simpa using lt_trans (by simpa using hz) hxy
    rw [List.countP_cons, List.countP_cons]
    rcases List.mem_cons.1 hx with rfl | hx
    · simp [hxy]
      omega
    · have := ih hx
      by_cases ha : a < x
      · simp [ha, lt_trans ha hxy]
        omega
      · by_cases hb : a < y <;> simp [ha, hb] <;> omega

/-- In a strictly increasing list, the values below the one at position `k` are the `k` before it. -/
theorem countP_lt_getElem {s : List α} (hs : s.Pairwise (· < ·)) {k : Nat} (hk : k < s.length) :
    s.countP (· < s[k]) = k := by
  -- The pivot is named, so that the list can be cut around it.
  obtain ⟨x, hx⟩ : ∃ x, s[k] = x := ⟨_, rfl⟩
  have hbelow : (s.take k).countP (· < x) = k := by
    rw [List.countP_eq_length.2, List.length_take_of_le hk.le]
    intro y hy
    obtain ⟨j, hj, rfl⟩ := List.mem_take_iff_getElem.1 hy
    exact decide_eq_true (hx ▸ List.pairwise_iff_getElem.1 hs j k _ hk (by omega))
  have habove : (s.drop k).countP (· < x) = 0 := by
    rw [List.countP_eq_zero]
    intro y hy
    obtain ⟨j, hj, rfl⟩ := List.mem_drop_iff_getElem.1 hy
    rcases Nat.eq_zero_or_pos j with rfl | hj0
    · simp [← hx]
    · simpa [← hx, Nat.add_comm] using (List.pairwise_iff_getElem.1 hs k (j + k) hk hj (by omega)).le
  rw [hx, ← List.take_append_drop k s, List.countP_append, hbelow, habove, Nat.add_zero]

/-- In a list of distinct values, every position below the length is the rank of exactly one of them, the
number of values below it: the value at that position once the list is sorted. -/
theorem existsUnique_countP_lt {l : List α} (hl : l.Nodup) {k : Nat} (hk : k < l.length) :
    ∃! x, x ∈ l ∧ l.countP (· < x) = k := by
  set s := l.insertionSort (· ≤ ·)
  have hperm : s.Perm l := List.perm_insertionSort (· ≤ ·) l
  have hks : k < s.length := hperm.length_eq ▸ hk
  -- Sorted and without repetition, the list is strictly increasing.
  have hsorted : s.Pairwise (· < ·) :=
    ((List.pairwise_insertionSort (· ≤ ·) l).and (hperm.nodup_iff.2 hl)).imp fun h => lt_of_le_of_ne h.1 h.2
  have hmem : s[k] ∈ l := hperm.subset (List.getElem_mem hks)
  have hrank : l.countP (· < s[k]) = k := by
    rw [← hperm.countP_eq]
    exact countP_lt_getElem hsorted hks
  refine ⟨s[k], ⟨hmem, hrank⟩, ?_⟩
  rintro y ⟨hy, hyk⟩
  rcases lt_trichotomy y s[k] with hlt | heq | hgt
  · exact absurd (countP_lt_lt_of_mem hy hlt) (by omega)
  · exact heq
  · exact absurd (countP_lt_lt_of_mem hmem hgt) (by omega)

end Rank
