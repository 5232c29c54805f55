import Mathlib

/-!
# Lists sorted by a key

A list whose elements have strictly increasing keys is a finite map from keys to elements: `lookup key l k` finds
the element of key `k`.  Two such lists with the same lookups are equal (`ext`), and two lists whose lookups are
related key by key are related element by element (`forall₂_of_lookup`).  Filtering and key-preserving maps act on
the lookups pointwise.
-/

namespace KeyedList

variable {α β κ : Type*} [LinearOrder κ] (key : α → κ)

/-- Strictly increasing keys. -/
def Sorted (l : List α) : Prop := l.Pairwise fun a b => key a < key b

instance (l : List α) : Decidable (Sorted key l) :=
  inferInstanceAs (Decidable (l.Pairwise fun a b => key a < key b))

/-- The element of key `k`. -/
def lookup (l : List α) (k : κ) : Option α := l.find? fun a => key a = k

variable {key} {l l₁ l₂ : List α} {a : α} {k : κ}

@[simp] theorem sorted_nil : Sorted key ([] : List α) := List.Pairwise.nil

theorem sorted_cons : Sorted key (a :: l) ↔ (∀ b ∈ l, key a < key b) ∧ Sorted key l := List.pairwise_cons

theorem sorted_append : Sorted key (l₁ ++ l₂) ↔ Sorted key l₁ ∧ Sorted key l₂ ∧ ∀ a ∈ l₁, ∀ b ∈ l₂, key a < key b :=
  List.pairwise_append

@[simp] theorem lookup_nil : lookup key ([] : List α) k = none := rfl

theorem lookup_cons : lookup key (a :: l) k = if key a = k then some a else lookup key l k := by
  by_cases h : key a = k <;> simp [lookup, h]

theorem lookup_cons_of_eq (h : key a = k) : lookup key (a :: l) k = some a := by
  rw [lookup_cons, if_pos h]

theorem lookup_cons_of_ne (h : key a ≠ k) : lookup key (a :: l) k = lookup key l k := by
  rw [lookup_cons, if_neg h]

theorem lookup_append : lookup key (l₁ ++ l₂) k = (lookup key l₁ k).or (lookup key l₂ k) := by
  simp [lookup, List.find?_append]

theorem key_of_lookup (h : lookup key l k = some a) : key a = k := by
  simpa using List.find?_some h

theorem mem_of_lookup (h : lookup key l k = some a) : a ∈ l := List.mem_of_find?_eq_some h

theorem lookup_eq_none : lookup key l k = none ↔ ∀ a ∈ l, key a ≠ k := by
  simp [lookup, List.find?_eq_none]

/-- In a sorted list each element is found under its key. -/
theorem lookup_of_mem (hs : Sorted key l) (ha : a ∈ l) : lookup key l (key a) = some a := by
  induction l with
  | nil => cases ha
  | cons b l ih =>
    rw [sorted_cons] at hs
    rcases List.mem_cons.1 ha with rfl | ha
    · exact lookup_cons_of_eq rfl
    · rw [lookup_cons_of_ne (hs.1 a ha).ne, ih hs.2 ha]

/-- Below the head's key a sorted list has nothing. -/
theorem lookup_eq_none_of_lt (hs : Sorted key (a :: l)) (hk : k < key a) : lookup key (a :: l) k = none := by
  rw [sorted_cons] at hs
  refine lookup_eq_none.2 fun b hb => ?_
  rcases List.mem_cons.1 hb with rfl | hb
  · exact hk.ne'
  · exact (hk.trans (hs.1 b hb)).ne'

/-- The head of a sorted list has the least key of those it has. -/
private theorem head_key_le {b : α} (hs : Sorted key (a :: l)) (h : lookup key (a :: l) k = some b) : key a ≤ k := by
  by_contra hlt
  rw [lookup_eq_none_of_lt hs (not_le.1 hlt)] at h
  cases h

private theorem isSome_of_rel_some {R : α → β → Prop} {o : Option β} (h : Option.Rel R (some a) o) :
    ∃ b, o = some b := by
  cases h
  exact ⟨_, rfl⟩

private theorem isSome_of_rel_some' {R : α → β → Prop} {o : Option α} {b : β} (h : Option.Rel R o (some b)) :
    ∃ a, o = some a := by
  cases h
  exact ⟨_, rfl⟩

/-! ### Related optional values -/

section Rel

variable {R : α → α → Prop} {o o₁ o₂ o₃ : Option α}

theorem rel_refl (hR : ∀ a, R a a) (o : Option α) : Option.Rel R o o := by
  cases o with
  | none => exact .none
  | some a => exact .some (hR a)

theorem rel_symm (hR : ∀ a b, R a b → R b a) (h : Option.Rel R o₁ o₂) : Option.Rel R o₂ o₁ := by
  cases h with
  | none => exact .none
  | some hab => exact .some (hR _ _ hab)

theorem rel_trans (hR : ∀ a b c, R a b → R b c → R a c) (h₁ : Option.Rel R o₁ o₂) (h₂ : Option.Rel R o₂ o₃) :
    Option.Rel R o₁ o₃ := by
  cases h₁ with
  | none => exact h₂
  | some hab =>
    cases h₂ with
    | some hbc => exact .some (hR _ _ _ hab hbc)

end Rel

/-- Two lists are related element by element when their lookups are related under every key. -/
theorem forall₂_of_lookup {R : α → β → Prop} {key' : β → κ} {l' : List β} (hs : Sorted key l)
    (hs' : Sorted key' l') (h : ∀ k, Option.Rel R (lookup key l k) (lookup key' l' k)) : List.Forall₂ R l l' := by
  induction l generalizing l' with
  | nil =>
    cases l' with
    | nil => exact .nil
    | cons b l' =>
      have := h (key' b)
      rw [lookup_nil, lookup_cons_of_eq rfl] at this
      cases this
  | cons a l ih =>
    cases l' with
    | nil =>
      have := h (key a)
      rw [lookup_nil, lookup_cons_of_eq rfl] at this
      cases this
    | cons b l' =>
      -- Both heads hold the least key, so they sit under one key.
      have hab : key a = key' b := by
        have ha := h (key a)
        have hb := h (key' b)
        rw [lookup_cons_of_eq rfl] at ha
        rw [lookup_cons_of_eq rfl] at hb
        obtain ⟨b', hb'⟩ := isSome_of_rel_some ha
        obtain ⟨a', ha'⟩ := isSome_of_rel_some' hb
        exact le_antisymm (head_key_le hs ha') (head_key_le hs' hb')
      rw [sorted_cons] at hs hs'
      have hhead := h (key a)
      rw [lookup_cons_of_eq rfl, hab, lookup_cons_of_eq rfl] at hhead
      refine .cons (Option.rel_some_some.1 hhead) (ih hs.2 hs'.2 fun k => ?_)
      by_cases hk : key a = k
      · subst hk
        rw [lookup_eq_none.2 fun c hc => (hs.1 c hc).ne', lookup_eq_none.2 fun c hc => hab ▸ (hs'.1 c hc).ne']
        exact Option.Rel.none
      · have hk' : key' b ≠ k := hab ▸ hk
        have := h k
        rwa [lookup_cons_of_ne hk, lookup_cons_of_ne hk'] at this

/-- Sorted lists with the same lookups are equal. -/
theorem ext (h₁ : Sorted key l₁) (h₂ : Sorted key l₂) (h : ∀ k, lookup key l₁ k = lookup key l₂ k) : l₁ = l₂ := by
  have hrel := forall₂_of_lookup (R := Eq) h₁ h₂ fun k => by
    rw [h k]
    cases lookup key l₂ k <;> simp
  rwa [List.forall₂_eq_eq_eq] at hrel

/-- std::equal with a predicate: lists related element by element. -/
theorem isEqv_of_forall₂ {eqv : α → α → Bool} (h : List.Forall₂ (fun a b => eqv a b = true) l₁ l₂) :
    l₁.isEqv l₂ eqv = true := by
  induction h with
  | nil => rfl
  | cons hab _ ih => rw [List.isEqv_cons_cons, hab, ih, Bool.and_self]

theorem isEqv_self {eqv : α → α → Bool} (h : ∀ a ∈ l, eqv a a = true) : l.isEqv l eqv = true :=
  isEqv_of_forall₂ (List.forall₂_same.2 h)

theorem Sorted.filter (p : α → Bool) (hs : Sorted key l) : Sorted key (l.filter p) := List.Pairwise.filter p hs

theorem lookup_filter (p : α → Bool) (hs : Sorted key l) (k : κ) :
    lookup key (l.filter p) k = (lookup key l k).filter p := by
  induction l with
  | nil => rfl
  | cons a l ih =>
    rw [sorted_cons] at hs
    by_cases hk : key a = k
    · subst hk
      have hnone : lookup key (l.filter p) (key a) = none :=
        lookup_eq_none.2 fun b hb => (hs.1 b (List.mem_of_mem_filter hb)).ne'
      by_cases hp : p a <;> simp [hp, lookup_cons_of_eq, hnone, Option.filter]
    · rw [lookup_cons_of_ne hk, ← ih hs.2]
      by_cases hp : p a <;> simp [hp, lookup_cons_of_ne hk]

/-- Filtering a merge of two values filters each, when the merge keeps the value that passes and
passes when either does. -/
theorem filter_merge {p : α → Bool} {f : α → α → α} {a b : Option α}
    (hf : ∀ x ∈ a, ∀ y ∈ b, p (f x y) = (p x || p y))
    (hl : ∀ x ∈ a, ∀ y ∈ b, p x = true → p y = false → f x y = x)
    (hr : ∀ x ∈ a, ∀ y ∈ b, p x = false → p y = true → f x y = y) :
    (Option.merge f a b).filter p = Option.merge f (a.filter p) (b.filter p) := by
  cases a with
  | none =>
    cases b with
    | none => rfl
    | some y => cases hy : p y <;> simp [Option.filter, hy]
  | some x =>
    cases b with
    | none => cases hx : p x <;> simp [Option.filter, hx]
    | some y =>
      have hxy := hf x rfl y rfl
      cases hx : p x <;> cases hy : p y
      · simp [Option.filter, hxy, hx, hy]
      · simp [Option.filter, hx, hy, hr x rfl y rfl hx hy]
      · simp [Option.filter, hx, hy, hl x rfl y rfl hx hy]
      · simp [Option.filter, hxy, hx, hy]

/-- A merge of two values of which at most one is present is the one present. -/
theorem merge_eq_or {f : α → α → α} {a b : Option α} (h : a = none ∨ b = none) : Option.merge f a b = a.or b := by
  rcases h with rfl | rfl
  · cases b <;> rfl
  · cases a <;> rfl

section FilterMap

variable {f : α → Option α} (hf : ∀ a b, f a = some b → key b = key a)
include hf

theorem Sorted.filterMap (hs : Sorted key l) : Sorted key (l.filterMap f) := by
  induction l with
  | nil => exact sorted_nil
  | cons a l ih =>
    rw [sorted_cons] at hs
    rw [List.filterMap_cons]
    cases ha : f a with
    | none => exact ih hs.2
    | some b =>
      refine sorted_cons.2 ⟨fun c hc => ?_, ih hs.2⟩
      obtain ⟨c', hc', hfc⟩ := List.mem_filterMap.1 hc
      rw [hf a b ha, hf c' c hfc]
      exact hs.1 c' hc'

/-- A key-preserving partial map acts on each lookup. -/
theorem lookup_filterMap (hs : Sorted key l) (k : κ) : lookup key (l.filterMap f) k = (lookup key l k).bind f := by
  induction l with
  | nil => rfl
  | cons a l ih =>
    rw [sorted_cons] at hs
    rw [List.filterMap_cons]
    by_cases hk : key a = k
    · subst hk
      have hnone : lookup key (l.filterMap f) (key a) = none := by
        refine lookup_eq_none.2 fun c hc => ?_
        obtain ⟨c', hc', hfc⟩ := List.mem_filterMap.1 hc
        rw [hf c' c hfc]
        exact (hs.1 c' hc').ne'
      rw [lookup_cons_of_eq rfl, Option.bind_some]
      cases ha : f a with
      | none => exact hnone
      | some b => exact lookup_cons_of_eq (hf a b ha)
    · rw [lookup_cons_of_ne hk, ← ih hs.2]
      cases ha : f a with
      | none => rfl
      | some b => exact lookup_cons_of_ne (by rw [hf a b ha]; exact hk)

end FilterMap

end KeyedList
