import Mathlib

/-!
# Binary search for a lower bound

`std::lower_bound` over the indexes `[first, first + count)`: `below i` says that the element at
index `i` is below the value searched, and the search halves the range until it finds the first
index where `below` fails.  When `below` holds on a prefix of the range (the range is sorted), the
search returns the end of that prefix (`lowerBound_eq`), the first index where `below` fails, which
`List.findIdx` names.
-/

namespace LowerBound

/-- std::lower_bound, counting the range down as the source does. -/
def lowerBound (below : Nat → Bool) (first count : Nat) : Nat :=
  if count = 0 then first
  else
    let step := count / 2
    let it := first + step
    if below it then lowerBound below (it + 1) (count - (step + 1))
    else lowerBound below first step
termination_by count
decreasing_by all_goals omega

variable {below : Nat → Bool}

/-- The search ends at `j` when `below` holds from `first` to `j` and fails from `j` to the end of
the range. -/
theorem lowerBound_eq {first count j : Nat} (hj : first ≤ j ∧ j ≤ first + count)
    (hlt : ∀ i, first ≤ i → i < j → below i = true)
    (hge : ∀ i, j ≤ i → i < first + count → below i = false) :
    lowerBound below first count = j := by
  induction first, count using lowerBound.induct below with
  | case1 first =>
    rw [lowerBound, if_pos rfl]
    omega
  | case2 first count hc step it hit ih =>
    -- The midpoint is below: the answer lies after it.
    rw [lowerBound, if_neg hc, if_pos hit]
    have hj' : it < j := by
      by_contra h
      have := hge it (by omega) (by omega)
      simp_all
    exact ih ⟨by omega, by omega⟩ (fun i h₁ h₂ => hlt i (by omega) h₂)
      (fun i h₁ h₂ => hge i h₁ (by omega))
  | case3 first count hc step it hit ih =>
    -- The midpoint is not below: the answer is at it or before it.
    rw [lowerBound, if_neg hc, if_neg hit]
    have hj' : j ≤ it := by
      by_contra h
      have := hlt it (by omega) (by omega)
      simp_all
    exact ih ⟨by omega, by omega⟩ hlt (fun i h₁ h₂ => hge i h₁ (by omega))

/-! ## The first index where a predicate holds

`List.findIdx`, read through `List.getD`: what a search for a lower bound is to return. -/

variable {α : Type*} {xs : List α} {p : α → Bool} {d : α}

theorem findIdx_le_of_getD {i : Nat} (hi : i < xs.length) (hp : p (xs.getD i d) = true) :
    xs.findIdx p ≤ i := by
  by_contra h
  have := List.not_of_lt_findIdx (Nat.lt_of_not_le h)
  rw [List.getD_eq_getElem _ _ hi] at hp
  simp_all

theorem getD_of_lt_findIdx {i : Nat} (hi : i < xs.findIdx p) : p (xs.getD i d) = false := by
  have hl : i < xs.length := Nat.lt_of_lt_of_le hi List.findIdx_le_length
  rw [List.getD_eq_getElem _ _ hl]
  exact List.not_of_lt_findIdx hi

theorem le_findIdx_of_getD {i : Nat} (hi : i ≤ xs.length) (h : ∀ k < i, p (xs.getD k d) = false) :
    i ≤ xs.findIdx p := by
  by_contra hlt
  have hl : xs.findIdx p < xs.length := by omega
  have := List.findIdx_getElem (w := hl)
  have h' := h _ (Nat.lt_of_not_le hlt)
  rw [List.getD_eq_getElem _ _ hl] at h'
  simp_all

theorem getD_findIdx (h : xs.findIdx p < xs.length) : p (xs.getD (xs.findIdx p) d) = true := by
  rw [List.getD_eq_getElem _ _ h]
  exact List.findIdx_getElem

theorem findIdx_congr {q : α → Bool} (h : ∀ x ∈ xs, p x = q x) : xs.findIdx p = xs.findIdx q := by
  induction xs with
  | nil => rfl
  | cons x xs ih =>
    rw [List.findIdx_cons, List.findIdx_cons, h x List.mem_cons_self,
      ih fun y hy => h y (List.mem_cons_of_mem x hy)]

/-- Reading a list at the positions `es`, when `p` only grows along the list: the first position read
where `p` holds is the first one at or past the list's first index where it holds. -/
theorem findIdx_map_getD {es : List Nat} (hes : ∀ k ∈ es, k < xs.length)
    (hp : ∀ i k, i ≤ k → k < xs.length → p (xs.getD i d) = true → p (xs.getD k d) = true) :
    (es.map (xs.getD · d)).findIdx p = es.findIdx fun k => decide (xs.findIdx p ≤ k) := by
  rw [List.findIdx_map]
  refine findIdx_congr fun k hk => ?_
  have hkl := hes k hk
  -- `p` holds at `k` exactly when `k` lies at or past the first index where it holds.
  by_cases hpk : p (xs.getD k d) = true
  · simp only [Function.comp_apply, hpk, findIdx_le_of_getD hkl hpk, decide_true]
  · have hlt : k < xs.findIdx p := by
      by_contra hle
      have hfl : xs.findIdx p < xs.length := by omega
      exact hpk (hp _ k (Nat.le_of_not_lt hle) hkl (getD_findIdx hfl))
    show p (xs.getD k d) = _
    rw [Bool.not_eq_true] at hpk
    rw [hpk, decide_eq_false (Nat.not_le.2 hlt)]

/-! ## Binary search for a value -/

section BinarySearch

variable {β : Type*} [LinearOrder β]

/-- std::binary_search over the indexes `[first, first + count)` of `get`: the lower bound of the
value, and whether it holds the value. -/
def binarySearch (get : Nat → β) (first count : Nat) (value : β) : Bool :=
  let it := lowerBound (fun i => decide (get i < value)) first count
  it != first + count && !decide (value < get it)

theorem getD_lt_getD {ys : List β} (hs : ys.Pairwise (· < ·)) (e : β) {i k : Nat} (hik : i < k)
    (hk : k < ys.length) : ys.getD i e < ys.getD k e := by
  rw [List.getD_eq_getElem _ _ (by omega), List.getD_eq_getElem _ _ hk]
  exact List.pairwise_iff_getElem.1 hs i k (by omega) hk hik

/-- On a strictly increasing list, the binary search finds exactly the values of the list. -/
theorem binarySearch_getD {ys : List β} (hs : ys.Pairwise (· < ·)) (e value : β) :
    binarySearch (ys.getD · e) 0 ys.length value = decide (value ∈ ys) := by
  obtain ⟨j, hj⟩ : ∃ j, ys.findIdx (fun y => !decide (y < value)) = j := ⟨_, rfl⟩
  have hjle : j ≤ ys.length := hj ▸ List.findIdx_le_length
  have hbelow : ∀ i < j, ys.getD i e < value := fun i hi => by
    have h := getD_of_lt_findIdx (d := e) (show i < ys.findIdx _ by rw [hj]; exact hi)
    simp only [Bool.not_eq_eq_eq_not, Bool.not_false, decide_eq_true_eq] at h
    exact h
  -- From the lower bound on, the values are not below `value`.
  have habove : ∀ i, j ≤ i → i < ys.length → value ≤ ys.getD i e := by
    intro i hi₁ hi₂
    have hfirst : value ≤ ys.getD j e := by
      have := getD_findIdx (d := e) (show ys.findIdx (fun y => !decide (y < value)) < ys.length by omega)
      rw [hj] at this
      simp only [Bool.not_eq_true', decide_eq_false_iff_not, not_lt] at this
      exact this
    rcases Nat.lt_or_eq_of_le hi₁ with h | h
    · exact le_of_lt (lt_of_le_of_lt hfirst (getD_lt_getD hs e h hi₂))
    · exact h ▸ hfirst
  have hit : lowerBound (fun i => decide (ys.getD i e < value)) 0 ys.length = j :=
    lowerBound_eq ⟨Nat.zero_le _, by omega⟩
      (fun i _ hi => decide_eq_true (hbelow i hi))
      (fun i hi₁ hi₂ => decide_eq_false (not_lt_of_ge (habove i hi₁ (by simpa using hi₂))))
  unfold binarySearch
  simp only [hit, Nat.zero_add]
  rw [Bool.eq_iff_iff]
  simp only [Bool.and_eq_true, bne_iff_ne, ne_eq, Bool.not_eq_true', decide_eq_false_iff_not,
    decide_eq_true_eq, List.mem_iff_getElem]
  constructor
  · rintro ⟨hjl, hv⟩
    have hjl' : j < ys.length := by omega
    refine ⟨j, hjl', ?_⟩
    rw [← List.getD_eq_getElem _ e hjl']
    exact le_antisymm (not_lt.1 hv) (habove j (Nat.le_refl j) hjl')
  · rintro ⟨i, hi, rfl⟩
    have hji : j ≤ i := by
      by_contra h
      have := hbelow i (by omega)
      rw [List.getD_eq_getElem _ _ hi] at this
      exact lt_irrefl _ this
    have hjl : j < ys.length := by omega
    refine ⟨by omega, fun hlt => ?_⟩
    have := habove j (Nat.le_refl j) hjl
    rcases Nat.lt_or_eq_of_le hji with h | h
    · have := getD_lt_getD hs e h hi
      rw [List.getD_eq_getElem _ _ hi] at this
      exact lt_irrefl _ (lt_trans this hlt)
    · rw [h, List.getD_eq_getElem _ _ hi] at hlt
      exact lt_irrefl _ hlt

end BinarySearch

end LowerBound
