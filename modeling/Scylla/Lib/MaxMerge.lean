import Mathlib

/-!
# Merging by a three-way comparison

A replicated value that is reconciled by keeping the larger of two versions (a
last-write-wins register): `mergeBy cmp a b` keeps `a` unless `cmp a b` is `.lt`.

When the comparison decides its strict order through a key into a linear order
(`OrderedBy`), the key of a merge is the maximum of the keys (`key_mergeBy`), so merging is
commutative, associative and idempotent on keys, and on values when the key is injective.
-/

namespace MaxMerge

variable {α κ : Type*}

/-- Keep `a` unless the comparison puts it strictly below `b`. -/
def mergeBy (cmp : α → α → Ordering) (a b : α) : α :=
  if cmp a b = .lt then b else a

theorem mergeBy_eq_or (cmp : α → α → Ordering) (a b : α) :
    mergeBy cmp a b = a ∨ mergeBy cmp a b = b := by
  unfold mergeBy
  split
  · exact .inr rfl
  · exact .inl rfl

/-- `cmp` decides its strict order through `key`. -/
def OrderedBy [LT κ] (cmp : α → α → Ordering) (key : α → κ) : Prop :=
  ∀ a b, cmp a b = .lt ↔ key a < key b

section Key

variable [LinearOrder κ] {cmp : α → α → Ordering} {key : α → κ}

theorem key_mergeBy (h : OrderedBy cmp key) (a b : α) :
    key (mergeBy cmp a b) = max (key a) (key b) := by
  unfold mergeBy
  by_cases hab : key a < key b
  · rw [if_pos ((h a b).2 hab), max_eq_right hab.le]
  · rw [if_neg (mt (h a b).1 hab), max_eq_left (not_lt.1 hab)]

theorem mergeBy_self (h : OrderedBy cmp key) (a : α) : mergeBy cmp a a = a := by
  unfold mergeBy
  rw [if_neg (mt (h a a).1 (lt_irrefl _))]

theorem key_mergeBy_comm (h : OrderedBy cmp key) (a b : α) :
    key (mergeBy cmp a b) = key (mergeBy cmp b a) := by
  rw [key_mergeBy h, key_mergeBy h, max_comm]

theorem key_mergeBy_assoc (h : OrderedBy cmp key) (a b c : α) :
    key (mergeBy cmp (mergeBy cmp a b) c) = key (mergeBy cmp a (mergeBy cmp b c)) := by
  simp only [key_mergeBy h, max_assoc]

/-- The merge never ranks below its left argument. -/
theorem key_le_mergeBy_left (h : OrderedBy cmp key) (a b : α) : key a ≤ key (mergeBy cmp a b) := by
  rw [key_mergeBy h]
  exact le_max_left _ _

theorem key_le_mergeBy_right (h : OrderedBy cmp key) (a b : α) : key b ≤ key (mergeBy cmp a b) := by
  rw [key_mergeBy h]
  exact le_max_right _ _

section Injective

variable (h : OrderedBy cmp key) (hinj : Function.Injective key)
include h hinj

theorem mergeBy_comm (a b : α) : mergeBy cmp a b = mergeBy cmp b a :=
  hinj (key_mergeBy_comm h a b)

theorem mergeBy_assoc (a b c : α) :
    mergeBy cmp (mergeBy cmp a b) c = mergeBy cmp a (mergeBy cmp b c) :=
  hinj (key_mergeBy_assoc h a b c)

end Injective

/-- A lexicographic comparison of lists decides its order through the lists of keys. -/
theorem orderedBy_compareLex (h : OrderedBy cmp key)
    (heq : ∀ a b, cmp a b = .eq ↔ key a = key b) :
    OrderedBy (List.compareLex cmp) (List.map key) := by
  intro xs
  induction xs with
  | nil =>
    intro ys
    cases ys with
    | nil => simp [List.compareLex_nil_nil]
    | cons y ys => simp [List.compareLex_nil_cons]
  | cons x xs ih =>
    intro ys
    cases ys with
    | nil => simp [List.compareLex_cons_nil]
    | cons y ys =>
      rw [List.compareLex_cons_cons, List.map_cons, List.map_cons, List.cons_lt_cons_iff,
        ← h, ← heq, ← ih]
      cases cmp x y <;> simp [Ordering.then]

end Key

end MaxMerge
