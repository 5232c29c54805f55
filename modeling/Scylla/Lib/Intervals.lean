import Mathlib

/-!
# Half-open intervals in a list

The items `a` of a list stand for the intervals `[lo a, hi a)` of natural numbers.  A list is
*ascending* when each item ends at or before every later one starts, and it *tiles* `[m, n)` when each
item is non-empty and starts where the previous one ended.

* `Tiles.ascending`, `Tiles.covers_iff`: a tiling is ascending and covers exactly `[m, n)`;
  `Tiles.isChain`: each item ends where the next begins.
* `tiles_of_covers`: an ascending list of non-empty intervals covering exactly `[m, n)` tiles it.
* `ascending_of_sorted`: items sorted by their start and pairwise apart are ascending.
* `Tiles.eq_slice`: when each item carries a payload as long as its interval, the payloads of a tiling
  are the slices of their concatenation.
-/

namespace Intervals

variable {α β : Type*} (lo hi : α → ℕ)

/-- Some item of `l` contains `x`. -/
def Covers (l : List α) (x : ℕ) : Prop := ∃ a ∈ l, lo a ≤ x ∧ x < hi a

/-- Each item ends at or before every later one starts. -/
def Ascending (l : List α) : Prop := l.Pairwise fun a b => hi a ≤ lo b

/-- Two intervals share no point. -/
def Apart (a b : α) : Prop := hi a ≤ lo b ∨ hi b ≤ lo a

/-- The items tile `[m, n)`: each is non-empty and starts where the previous one ended. -/
def Tiles : ℕ → ℕ → List α → Prop
  | m, n, [] => m = n
  | m, n, a :: l => lo a = m ∧ lo a < hi a ∧ Tiles (hi a) n l

instance instDecidableTiles : (m n : ℕ) → (l : List α) → Decidable (Tiles lo hi m n l)
  | m, n, [] => inferInstanceAs (Decidable (m = n))
  | m, n, a :: l =>
    have := instDecidableTiles (hi a) n l
    inferInstanceAs (Decidable (lo a = m ∧ lo a < hi a ∧ Tiles lo hi (hi a) n l))

/-- The part of `d` from index `i` up to index `j`. -/
def slice (d : List β) (i j : ℕ) : List β := (d.drop i).take (j - i)

variable {lo hi}

/-! ## Covering -/

theorem not_covers_nil (x : ℕ) : ¬ Covers lo hi [] x := by
  simp [Covers]

theorem covers_cons {a : α} {l : List α} {x : ℕ} :
    Covers lo hi (a :: l) x ↔ (lo a ≤ x ∧ x < hi a) ∨ Covers lo hi l x := by
  simp [Covers]

theorem covers_singleton {a : α} {x : ℕ} : Covers lo hi [a] x ↔ lo a ≤ x ∧ x < hi a := by
  simp [Covers]

theorem covers_append {l₁ l₂ : List α} {x : ℕ} :
    Covers lo hi (l₁ ++ l₂) x ↔ Covers lo hi l₁ x ∨ Covers lo hi l₂ x := by
  simp only [Covers, List.mem_append]
  constructor
  · rintro ⟨a, ha | ha, hx⟩
    · exact Or.inl ⟨a, ha, hx⟩
    · exact Or.inr ⟨a, ha, hx⟩
  · rintro (⟨a, ha, hx⟩ | ⟨a, ha, hx⟩)
    · exact ⟨a, Or.inl ha, hx⟩
    · exact ⟨a, Or.inr ha, hx⟩

theorem covers_perm {l₁ l₂ : List α} (h : l₁.Perm l₂) {x : ℕ} :
    Covers lo hi l₁ x ↔ Covers lo hi l₂ x := by
  simp only [Covers, h.mem_iff]

/-- An item apart from every item of `l` has its first point outside them. -/
theorem not_covers_of_apart {a : α} {l : List α} (ha : lo a < hi a) (h : ∀ b ∈ l, Apart lo hi a b) :
    ¬ Covers lo hi l (lo a) := by
  rintro ⟨b, hb, h₁, h₂⟩
  rcases h b hb with h' | h' <;> omega

/-- Two non-empty intervals with no common point are apart. -/
theorem apart_of_disjoint {a b : α} (ha : lo a < hi a) (hb : lo b < hi b)
    (h : ∀ x, lo b ≤ x → x < hi b → ¬ (lo a ≤ x ∧ x < hi a)) : Apart lo hi a b := by
  by_contra hab
  simp only [Apart, not_or, Nat.not_le] at hab
  exact h (max (lo a) (lo b)) (Nat.le_max_right _ _) (by omega) ⟨Nat.le_max_left _ _, by omega⟩

theorem Apart.symm {a b : α} (h : Apart lo hi a b) : Apart lo hi b a := Or.symm h

instance : Std.Symm (Apart lo hi) := ⟨fun _ _ => Apart.symm⟩

/-! ## Ascending lists -/

theorem Ascending.pairwise_apart {l : List α} (h : Ascending lo hi l) : l.Pairwise (Apart lo hi) :=
  h.imp Or.inl

/-- Sorting items that are pairwise apart by their start makes them ascending. -/
theorem ascending_of_sorted {l : List α} (hs : l.Pairwise fun a b => lo a ≤ lo b)
    (hd : l.Pairwise (Apart lo hi)) (hne : ∀ a ∈ l, lo a < hi a) : Ascending lo hi l := by
  refine List.Pairwise.imp_of_mem ?_ (hs.and hd)
  intro a b ha hb ⟨hab, h⟩
  have := hne a ha
  have := hne b hb
  rcases h with h | h <;> omega

/-! ## Tilings -/

theorem Tiles.bounds {m n : ℕ} {l : List α} (h : Tiles lo hi m n l) :
    m ≤ n ∧ ∀ a ∈ l, m ≤ lo a ∧ lo a < hi a ∧ hi a ≤ n := by
  induction l generalizing m with
  | nil => exact ⟨Nat.le_of_eq h, by simp⟩
  | cons a l ih =>
    obtain ⟨rfl, ha, hl⟩ := h
    obtain ⟨hle, hrest⟩ := ih hl
    refine ⟨by omega, ?_⟩
    intro b hb
    rcases List.mem_cons.1 hb with rfl | hb
    · exact ⟨Nat.le_refl _, ha, hle⟩
    · have := hrest b hb
      omega

theorem Tiles.ascending {m n : ℕ} {l : List α} (h : Tiles lo hi m n l) : Ascending lo hi l := by
  induction l generalizing m with
  | nil => exact List.Pairwise.nil
  | cons a l ih =>
    obtain ⟨rfl, _, hl⟩ := h
    -- Every later item starts at or after the end of `a`, where the rest of the tiling begins.
    exact List.Pairwise.cons (fun b hb => (hl.bounds.2 b hb).1) (ih hl)

theorem Tiles.covers_iff {m n : ℕ} {l : List α} (h : Tiles lo hi m n l) {x : ℕ} :
    Covers lo hi l x ↔ m ≤ x ∧ x < n := by
  induction l generalizing m with
  | nil =>
    have : m = n := h
    simp only [not_covers_nil, false_iff]
    omega
  | cons a l ih =>
    obtain ⟨rfl, ha, hl⟩ := h
    have hle := hl.bounds.1
    rw [covers_cons, ih hl]
    omega

/-- Only the first item of a tiling starts at `m`. -/
theorem Tiles.eq_head {m n : ℕ} {l : List α} (h : Tiles lo hi m n l) (hne : l ≠ []) {a : α} (ha : a ∈ l)
    (hm : lo a = m) : a = l.head hne := by
  cases l with
  | nil => exact absurd rfl hne
  | cons b l =>
    obtain ⟨rfl, hb, hl⟩ := h
    rcases List.mem_cons.1 ha with rfl | ha
    · rfl
    · have := (hl.bounds.2 a ha).1
      omega

theorem Tiles.isChain {m n : ℕ} {l : List α} (h : Tiles lo hi m n l) : l.IsChain fun a b => hi a = lo b := by
  induction l generalizing m with
  | nil => exact List.IsChain.nil
  | cons a l ih =>
    obtain ⟨_, _, hl⟩ := h
    cases l with
    | nil => exact List.isChain_singleton a
    | cons b l => exact List.IsChain.cons_cons hl.1.symm (ih hl)

/-- An ascending list of non-empty intervals covering exactly `[m, n)`, for `m < n`, tiles it. -/
theorem tiles_of_covers {m n : ℕ} {l : List α} (hl : Ascending lo hi l) (hne : ∀ a ∈ l, lo a < hi a)
    (hmn : m < n) (hc : ∀ x, Covers lo hi l x ↔ m ≤ x ∧ x < n) : Tiles lo hi m n l := by
  induction l generalizing m with
  | nil => exact absurd ((hc m).2 ⟨Nat.le_refl _, hmn⟩) (not_covers_nil m)
  | cons a l ih =>
    rw [Ascending, List.pairwise_cons] at hl
    have ha := hne a List.mem_cons_self
    -- Items after `a` start at or after its end.
    have hafter : ∀ x, Covers lo hi l x → hi a ≤ x := by
      rintro x ⟨b, hb, h₁, _⟩
      have := hl.1 b hb
      omega
    have hlo : lo a = m := by
      have h₁ := (hc (lo a)).1 (covers_cons.2 (Or.inl ⟨Nat.le_refl _, ha⟩))
      rcases covers_cons.1 ((hc m).2 ⟨Nat.le_refl _, hmn⟩) with h₂ | h₂
      · omega
      · have := hafter m h₂
        omega
    have hhi : hi a ≤ n := by
      have := (hc (hi a - 1)).1 (covers_cons.2 (Or.inl ⟨by omega, by omega⟩))
      omega
    refine ⟨hlo, ha, ?_⟩
    cases l with
    | nil =>
      -- `a` alone covers `[m, n)`, so it ends at `n`.
      show hi a = n
      by_contra hne'
      rcases covers_cons.1 ((hc (hi a)).2 ⟨by omega, by omega⟩) with h | h
      · omega
      · exact not_covers_nil _ h
    | cons b l =>
      have hb := hne b (List.mem_cons_of_mem a List.mem_cons_self)
      refine ih hl.2 (fun c hc' => hne c (List.mem_cons_of_mem a hc')) ?_ fun x => ?_
      · have h₁ := (hc (lo b)).1 (covers_cons.2 (Or.inr (covers_cons.2 (Or.inl ⟨Nat.le_refl _, hb⟩))))
        have := hl.1 b List.mem_cons_self
        omega
      · constructor
        · intro hx
          have h₁ := (hc x).1 (covers_cons.2 (Or.inr hx))
          have := hafter x hx
          omega
        · rintro ⟨h₁, h₂⟩
          rcases covers_cons.1 ((hc x).2 ⟨by omega, h₂⟩) with h | h
          · omega
          · exact h

/-! ## Payloads of a tiling -/

theorem slice_append_slice (d : List β) {i j k : ℕ} (hij : i ≤ j) (hjk : j ≤ k) :
    slice d i j ++ slice d j k = slice d i k := by
  have hd : (d.drop i).drop (j - i) = d.drop j := by
    rw [List.drop_drop]
    congr 1
    omega
  rw [slice, slice, slice, show k - i = (j - i) + (k - j) by omega, List.take_add, hd]

theorem slice_zero_length (d : List β) : slice d 0 d.length = d := by
  simp [slice]

/-- A slice past the end of `d` is a slice of what follows `d`. -/
theorem slice_append_of_le (d e : List β) {i : ℕ} (j : ℕ) (h : d.length ≤ i) :
    slice (d ++ e) i j = slice e (i - d.length) (j - d.length) := by
  rw [slice, slice, List.drop_append, List.drop_eq_nil_of_le h, List.nil_append,
    show j - d.length - (i - d.length) = j - i by omega]

section Payload

variable {buf : α → List β}

/-- The payloads of a tiling, concatenated, are as long as the tiled interval, and each is the slice
of the concatenation at its own interval. -/
theorem Tiles.eq_slice {m n : ℕ} {l : List α} (h : Tiles lo (fun a => lo a + (buf a).length) m n l) :
    (l.map buf).flatten.length = n - m ∧
      ∀ a ∈ l, buf a = slice (l.map buf).flatten (lo a - m) (lo a - m + (buf a).length) := by
  induction l generalizing m with
  | nil =>
    have : m = n := h
    simp [this]
  | cons a l ih =>
    obtain ⟨rfl, _, hl⟩ := h
    obtain ⟨hlen, hslice⟩ := ih hl
    simp only at hlen hslice
    have hle : lo a + (buf a).length ≤ n := hl.bounds.1
    simp only [List.map_cons, List.flatten_cons, List.length_append, hlen]
    refine ⟨by omega, ?_⟩
    intro b hb
    rcases List.mem_cons.1 hb with rfl | hb
    · simp [slice]
    · -- A later payload lies past `buf a` in the concatenation.
      have hb' : lo a + (buf a).length ≤ lo b := (hl.bounds.2 b hb).1
      rw [slice_append_of_le _ _ _ (by omega)]
      convert hslice b hb using 2 <;> omega

end Payload

end Intervals
