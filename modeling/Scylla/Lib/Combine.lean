import Mathlib
import Scylla.Lib.KeyedList

/-!
# Combining two sorted sequences

`combine lt merge xs ys` walks two sequences sorted by `lt`: it copies the head that precedes the other, merges
two heads of which neither precedes the other, and copies what is left of either sequence at the end.

When `lt` compares keys in a linear order and both sequences are strictly sorted by key:
* if every key of `ys` is a key of `xs`, the result is `xs` with each element merged with the element of `ys` of
  its key (`combine_eq_map_mergeMatched`);
* elements of `ys` may be replaced by others of the same key that merge alike with their partner in `xs`,
  without changing the result (`combine_congr_right`);
* the result is strictly sorted, and under each key it holds the merge of what the two sequences hold there
  (`sorted_combine`, `lookup_combine`).
-/

namespace Combine

variable {α κ : Type*}

/-- Merge two sorted sequences, merging the elements that neither precedes. -/
def combine (lt : α → α → Bool) (merge : α → α → α) : List α → List α → List α
  | [], ys => ys
  | x :: xs, [] => x :: xs
  | x :: xs, y :: ys =>
    if lt x y then x :: combine lt merge xs (y :: ys)
    else if lt y x then y :: combine lt merge (x :: xs) ys
    else merge x y :: combine lt merge xs ys

@[simp] theorem combine_nil_right (lt : α → α → Bool) (merge : α → α → α) (xs : List α) : combine lt merge xs [] = xs := by
  cases xs <;> rw [combine]

section Keyed

variable [LinearOrder κ] {key : α → κ} {merge : α → α → α}

/-- `x` merged with the element of `ys` of its key, if there is one. -/
def mergeMatched (key : α → κ) (merge : α → α → α) (ys : List α) (x : α) : α :=
  match ys.find? (fun y => key y = key x) with
  | some y => merge x y
  | none => x

theorem mergeMatched_cons_of_eq {ys : List α} {x y : α} (h : key y = key x) :
    mergeMatched key merge (y :: ys) x = merge x y := by
  simp [mergeMatched, h]

theorem mergeMatched_cons_of_ne {ys : List α} {x y : α} (h : key y ≠ key x) :
    mergeMatched key merge (y :: ys) x = mergeMatched key merge ys x := by
  simp [mergeMatched, h]

theorem mergeMatched_of_forall_ne {ys : List α} {x : α} (h : ∀ y ∈ ys, key y ≠ key x) :
    mergeMatched key merge ys x = x := by
  rw [mergeMatched, List.find?_eq_none.2 (fun y hy => by simpa using h y hy)]

theorem mergeMatched_append_of_forall_ne_left {ys ys' : List α} {x : α} (h : ∀ y ∈ ys, key y ≠ key x) :
    mergeMatched key merge (ys ++ ys') x = mergeMatched key merge ys' x := by
  rw [mergeMatched, List.find?_append, List.find?_eq_none.2 (fun y hy => by simpa using h y hy), Option.none_or,
    mergeMatched]

theorem mergeMatched_append_of_forall_ne_right {ys ys' : List α} {x : α} (h : ∀ y ∈ ys', key y ≠ key x) :
    mergeMatched key merge (ys ++ ys') x = mergeMatched key merge ys x := by
  have hnone : ys'.find? (fun y => key y = key x) = none := List.find?_eq_none.2 fun y hy => by simpa using h y hy
  rw [mergeMatched, List.find?_append, hnone, Option.or_none, mergeMatched]

/-- A merge that keeps the key of its first argument keeps it through `mergeMatched`. -/
theorem key_mergeMatched (hm : ∀ x y, key y = key x → key (merge x y) = key x) (ys : List α) (x : α) :
    key (mergeMatched key merge ys x) = key x := by
  unfold mergeMatched
  split
  · rename_i y hy
    exact hm x y (by simpa using List.find?_some hy)
  · rfl

/-- In a strictly sorted sequence every element has a key at least the head's. -/
private theorem key_le_of_mem {y y' : α} {ys : List α} (hys : (y :: ys).Pairwise fun a b => key a < key b)
    (hy' : y' ∈ y :: ys) : key y ≤ key y' := by
  rcases List.mem_cons.1 hy' with rfl | hy'
  · exact le_rfl
  · exact ((List.pairwise_cons.1 hys).1 y' hy').le

variable {lt : α → α → Bool} (hlt : ∀ a b, lt a b = true ↔ key a < key b)
include hlt

/-- When every key of `ys` occurs in `xs`, combining merges each element of `xs` with its partner. -/
theorem combine_eq_map_mergeMatched {xs ys : List α} (hxs : xs.Pairwise fun a b => key a < key b)
    (hys : ys.Pairwise fun a b => key a < key b) (hsub : ∀ y ∈ ys, ∃ x ∈ xs, key x = key y) :
    combine lt merge xs ys = xs.map (mergeMatched key merge ys) := by
  induction xs, ys using combine.induct lt with
  | case1 ys =>
    rcases ys with _ | ⟨y, ys⟩
    · rw [combine]
      rfl
    · obtain ⟨x, hx, -⟩ := hsub y List.mem_cons_self
      simp at hx
  | case2 x xs =>
    rw [combine, List.map_congr_left (fun x _ => mergeMatched_of_forall_ne (by simp)), List.map_id']
  | case3 x xs y ys hxy ih =>
    have hxy' := (hlt x y).1 hxy
    -- `x` precedes every key of `ys`, so it has no partner, and the partners of `ys` lie in `xs`.
    have hnone : ∀ y' ∈ y :: ys, key y' ≠ key x := fun y' hy' =>
      (lt_of_lt_of_le hxy' (key_le_of_mem hys hy')).ne'
    have hsub' : ∀ y' ∈ y :: ys, ∃ x' ∈ xs, key x' = key y' := by
      intro y' hy'
      obtain ⟨x', hx', hk⟩ := hsub y' hy'
      rcases List.mem_cons.1 hx' with rfl | hx'
      · exact absurd hk (hnone y' hy').symm
      · exact ⟨x', hx', hk⟩
    rw [combine, if_pos hxy, List.map_cons, mergeMatched_of_forall_ne hnone, ih hxs.of_cons hys hsub']
  | case4 x xs y ys hxy hyx ih =>
    -- The partner of `y` would precede `x`, the least key of `xs`.
    obtain ⟨x', hx', hk⟩ := hsub y List.mem_cons_self
    have hle := key_le_of_mem hxs hx'
    rw [hk] at hle
    exact absurd ((hlt y x).1 hyx) (not_lt.2 hle)
  | case5 x xs y ys hxy hyx ih =>
    have hk : key y = key x :=
      le_antisymm (not_lt.1 (mt (hlt x y).2 hxy)) (not_lt.1 (mt (hlt y x).2 hyx))
    -- The rest of `xs` lies above `x`, so `y` is the partner of `x` alone.
    have htail : xs.map (mergeMatched key merge (y :: ys)) = xs.map (mergeMatched key merge ys) :=
      List.map_congr_left fun x' hx' =>
        mergeMatched_cons_of_ne (hk ▸ ((List.pairwise_cons.1 hxs).1 x' hx').ne)
    have hsub' : ∀ y' ∈ ys, ∃ x' ∈ xs, key x' = key y' := by
      intro y' hy'
      obtain ⟨x', hx', hk'⟩ := hsub y' (List.mem_cons_of_mem y hy')
      rcases List.mem_cons.1 hx' with rfl | hx'
      · exact absurd (hk'.symm.trans hk.symm) ((List.pairwise_cons.1 hys).1 y' hy').ne'
      · exact ⟨x', hx', hk'⟩
    rw [combine, if_neg hxy, if_neg hyx, List.map_cons, mergeMatched_cons_of_eq hk, htail,
      ih hxs.of_cons hys.of_cons hsub']

/-- `y'` stands for `y` in the second sequence: it has the same key and is `y`, or merges with `y`'s partner in
`xs` as `y` does. -/
def Agrees (key : α → κ) (merge : α → α → α) (xs : List α) (y y' : α) : Prop :=
  key y' = key y ∧ (y' = y ∨ ∃ x ∈ xs, key x = key y ∧ merge x y' = merge x y)

omit hlt in
/-- Dropping a head that precedes `y` keeps `y`'s partner. -/
private theorem Agrees.of_cons {x y y' : α} {xs : List α} (h : Agrees key merge (x :: xs) y y')
    (hxy : key x < key y) : Agrees key merge xs y y' := by
  refine ⟨h.1, h.2.imp_right fun ⟨x', hx', hk, hm⟩ => ⟨x', ?_, hk, hm⟩⟩
  rcases List.mem_cons.1 hx' with rfl | hx'
  · exact absurd hk hxy.ne
  · exact hx'

omit hlt in
private theorem forall₂_agrees_of_cons {x : α} {xs ys ys' : List α}
    (h : List.Forall₂ (Agrees key merge (x :: xs)) ys ys') (hx : ∀ y ∈ ys, key x < key y) :
    List.Forall₂ (Agrees key merge xs) ys ys' :=
  ((List.forall₂_and_left _ _).2 ⟨hx, h⟩).imp fun _ _ h => h.2.of_cons h.1

/-- Replacing elements of the second sequence by agreeing ones leaves the combination unchanged. -/
theorem combine_congr_right {xs ys ys' : List α} (hxs : xs.Pairwise fun a b => key a < key b)
    (hys : ys.Pairwise fun a b => key a < key b) (h : List.Forall₂ (Agrees key merge xs) ys ys') :
    combine lt merge xs ys' = combine lt merge xs ys := by
  induction xs, ys using combine.induct lt generalizing ys' with
  | case1 ys =>
    -- Without partners every replacement is the element itself.
    have : List.Forall₂ (fun y y' => y = y') ys ys' :=
      h.imp fun y y' hy => (hy.2.resolve_right fun ⟨_, hx, _⟩ => by simp at hx).symm
    rw [List.forall₂_eq_eq_eq] at this
    rw [this]
  | case2 x xs =>
    rw [List.forall₂_nil_left_iff.1 h]
  | case3 x xs y ys hxy ih =>
    obtain ⟨y', ys'', hy, htl, rfl⟩ := List.forall₂_cons_left_iff.1 h
    have hxy' := (hlt x y).1 hxy
    have hxy'' : lt x y' = true := (hlt x y').2 (hy.1 ▸ hxy')
    have hrest : List.Forall₂ (Agrees key merge xs) (y :: ys) (y' :: ys'') :=
      forall₂_agrees_of_cons (.cons hy htl) fun y₂ hy₂ => lt_of_lt_of_le hxy' (key_le_of_mem hys hy₂)
    rw [combine, if_pos hxy'', combine, if_pos hxy, ih hxs.of_cons hys hrest]
  | case4 x xs y ys hxy hyx ih =>
    obtain ⟨y', ys'', hy, htl, rfl⟩ := List.forall₂_cons_left_iff.1 h
    have hyx' := (hlt y x).1 hyx
    -- `y` has no partner: it would precede `x`, the least key of `xs`.
    have hyy : y' = y := hy.2.resolve_right fun ⟨x', hx', hk, _⟩ =>
      absurd (hk ▸ key_le_of_mem hxs hx') (not_le.2 hyx')
    subst hyy
    rw [combine, if_neg hxy, if_pos hyx, combine, if_neg hxy, if_pos hyx, ih hxs hys.of_cons htl]
  | case5 x xs y ys hxy hyx ih =>
    obtain ⟨y', ys'', hy, htl, rfl⟩ := List.forall₂_cons_left_iff.1 h
    have hk : key y = key x :=
      le_antisymm (not_lt.1 (mt (hlt x y).2 hxy)) (not_lt.1 (mt (hlt y x).2 hyx))
    have hxy' : ¬lt x y' = true := fun h => by
      have := (hlt x y').1 h
      rw [hy.1, hk] at this
      exact lt_irrefl _ this
    have hyx' : ¬lt y' x = true := fun h => by
      have := (hlt y' x).1 h
      rw [hy.1, hk] at this
      exact lt_irrefl _ this
    -- `x` is the only element of `x :: xs` of `y`'s key, so `y'` merges with it as `y` does.
    have hmerge : merge x y' = merge x y := by
      rcases hy.2 with rfl | ⟨x', hx', hk', hm⟩
      · rfl
      · rcases List.mem_cons.1 hx' with rfl | hx'
        · exact hm
        · exact absurd (hk'.trans hk) ((List.pairwise_cons.1 hxs).1 x' hx').ne'
    have hrest : List.Forall₂ (Agrees key merge xs) ys ys'' :=
      forall₂_agrees_of_cons htl fun y₂ hy₂ => hk ▸ (List.pairwise_cons.1 hys).1 y₂ hy₂
    rw [combine, if_neg hxy', if_neg hyx', combine, if_neg hxy, if_neg hyx, hmerge,
      ih hxs.of_cons hys.of_cons hrest]

/-- Each element of a combination has the key of an element of one of the sequences. -/
theorem exists_key_of_mem_combine (hm : ∀ x y, key y = key x → key (merge x y) = key x) {c : α} {xs ys : List α}
    (hc : c ∈ combine lt merge xs ys) : (∃ x ∈ xs, key x = key c) ∨ (∃ y ∈ ys, key y = key c) := by
  induction xs, ys using combine.induct lt with
  | case1 ys => exact .inr ⟨c, by simpa [combine] using hc, rfl⟩
  | case2 x xs => exact .inl ⟨c, by simpa [combine] using hc, rfl⟩
  | case3 x xs y ys hxy ih =>
    rw [combine, if_pos hxy] at hc
    rcases List.mem_cons.1 hc with rfl | hc
    · exact .inl ⟨c, List.mem_cons_self, rfl⟩
    · exact (ih hc).imp (fun ⟨x', hx', h⟩ => ⟨x', List.mem_cons_of_mem _ hx', h⟩) id
  | case4 x xs y ys hxy hyx ih =>
    rw [combine, if_neg hxy, if_pos hyx] at hc
    rcases List.mem_cons.1 hc with rfl | hc
    · exact .inr ⟨c, List.mem_cons_self, rfl⟩
    · exact (ih hc).imp id (fun ⟨y', hy', h⟩ => ⟨y', List.mem_cons_of_mem _ hy', h⟩)
  | case5 x xs y ys hxy hyx ih =>
    rw [combine, if_neg hxy, if_neg hyx] at hc
    have hk : key y = key x :=
      le_antisymm (not_lt.1 (mt (hlt x y).2 hxy)) (not_lt.1 (mt (hlt y x).2 hyx))
    rcases List.mem_cons.1 hc with rfl | hc
    · exact .inl ⟨x, List.mem_cons_self, (hm x y hk).symm⟩
    · exact (ih hc).imp (fun ⟨x', hx', h⟩ => ⟨x', List.mem_cons_of_mem _ hx', h⟩)
        (fun ⟨y', hy', h⟩ => ⟨y', List.mem_cons_of_mem _ hy', h⟩)

theorem sorted_combine (hm : ∀ x y, key y = key x → key (merge x y) = key x) {xs ys : List α}
    (hxs : KeyedList.Sorted key xs) (hys : KeyedList.Sorted key ys) :
    KeyedList.Sorted key (combine lt merge xs ys) := by
  induction xs, ys using combine.induct lt with
  | case1 ys => simpa [combine] using hys
  | case2 x xs => simpa [combine] using hxs
  | case3 x xs y ys hxy ih =>
    rw [combine, if_pos hxy]
    have hxy' := (hlt x y).1 hxy
    refine KeyedList.sorted_cons.2 ⟨fun c hc => ?_, ih hxs.of_cons hys⟩
    rcases exists_key_of_mem_combine hlt hm hc with ⟨x', hx', h⟩ | ⟨y', hy', h⟩
    · exact h ▸ (List.pairwise_cons.1 hxs).1 x' hx'
    · exact h ▸ lt_of_lt_of_le hxy' (key_le_of_mem hys hy')
  | case4 x xs y ys hxy hyx ih =>
    rw [combine, if_neg hxy, if_pos hyx]
    have hyx' := (hlt y x).1 hyx
    refine KeyedList.sorted_cons.2 ⟨fun c hc => ?_, ih hxs hys.of_cons⟩
    rcases exists_key_of_mem_combine hlt hm hc with ⟨x', hx', h⟩ | ⟨y', hy', h⟩
    · exact h ▸ lt_of_lt_of_le hyx' (key_le_of_mem hxs hx')
    · exact h ▸ (List.pairwise_cons.1 hys).1 y' hy'
  | case5 x xs y ys hxy hyx ih =>
    rw [combine, if_neg hxy, if_neg hyx]
    have hk : key y = key x :=
      le_antisymm (not_lt.1 (mt (hlt x y).2 hxy)) (not_lt.1 (mt (hlt y x).2 hyx))
    refine KeyedList.sorted_cons.2 ⟨fun c hc => ?_, ih hxs.of_cons hys.of_cons⟩
    rw [hm x y hk]
    rcases exists_key_of_mem_combine hlt hm hc with ⟨x', hx', h⟩ | ⟨y', hy', h⟩
    · exact h ▸ (List.pairwise_cons.1 hxs).1 x' hx'
    · exact h ▸ hk ▸ (List.pairwise_cons.1 hys).1 y' hy'

/-- Under each key a combination holds the merge of what the two sequences hold there. -/
theorem lookup_combine (hm : ∀ x y, key y = key x → key (merge x y) = key x) {xs ys : List α}
    (hxs : KeyedList.Sorted key xs) (hys : KeyedList.Sorted key ys) (k : κ) :
    KeyedList.lookup key (combine lt merge xs ys) k =
      Option.merge merge (KeyedList.lookup key xs k) (KeyedList.lookup key ys k) := by
  induction xs, ys using combine.induct lt with
  | case1 ys =>
    rw [combine, KeyedList.lookup_nil]
    cases KeyedList.lookup key ys k <;> rfl
  | case2 x xs =>
    rw [combine, KeyedList.lookup_nil]
    cases KeyedList.lookup key (x :: xs) k <;> rfl
  | case3 x xs y ys hxy ih =>
    rw [combine, if_pos hxy]
    by_cases hk : key x = k
    · -- `x` precedes all of `ys`, so only `xs` has its key.
      have hnone : KeyedList.lookup key (y :: ys) k = none :=
        KeyedList.lookup_eq_none_of_lt hys (hk ▸ (hlt x y).1 hxy)
      rw [KeyedList.lookup_cons_of_eq hk, KeyedList.lookup_cons_of_eq hk, hnone]
      rfl
    · rw [KeyedList.lookup_cons_of_ne hk, KeyedList.lookup_cons_of_ne hk, ih hxs.of_cons hys]
  | case4 x xs y ys hxy hyx ih =>
    rw [combine, if_neg hxy, if_pos hyx]
    by_cases hk : key y = k
    · have hnone : KeyedList.lookup key (x :: xs) k = none :=
        KeyedList.lookup_eq_none_of_lt hxs (hk ▸ (hlt y x).1 hyx)
      rw [KeyedList.lookup_cons_of_eq hk, KeyedList.lookup_cons_of_eq hk, hnone]
      rfl
    · rw [KeyedList.lookup_cons_of_ne hk, KeyedList.lookup_cons_of_ne hk, ih hxs hys.of_cons]
  | case5 x xs y ys hxy hyx ih =>
    rw [combine, if_neg hxy, if_neg hyx]
    have hxy' : key y = key x :=
      le_antisymm (not_lt.1 (mt (hlt x y).2 hxy)) (not_lt.1 (mt (hlt y x).2 hyx))
    by_cases hk : key x = k
    · rw [KeyedList.lookup_cons_of_eq ((hm x y hxy').trans hk), KeyedList.lookup_cons_of_eq hk,
        KeyedList.lookup_cons_of_eq (hxy'.trans hk)]
      rfl
    · rw [KeyedList.lookup_cons_of_ne (by rwa [hm x y hxy']), KeyedList.lookup_cons_of_ne hk,
        KeyedList.lookup_cons_of_ne (by rwa [hxy']), ih hxs.of_cons hys.of_cons]

/-- Filtering a combination filters both sequences, when each merge keeps the element that passes
and passes when either does. -/
theorem filter_combine (hm : ∀ x y, key y = key x → key (merge x y) = key x) {p : α → Bool}
    (hf : ∀ x y, key y = key x → p (merge x y) = (p x || p y))
    (hl : ∀ x y, key y = key x → p x = true → p y = false → merge x y = x)
    (hr : ∀ x y, key y = key x → p x = false → p y = true → merge x y = y) {xs ys : List α}
    (hxs : KeyedList.Sorted key xs) (hys : KeyedList.Sorted key ys) :
    (combine lt merge xs ys).filter p = combine lt merge (xs.filter p) (ys.filter p) := by
  refine KeyedList.ext ((sorted_combine hlt hm hxs hys).filter p)
    (sorted_combine hlt hm (hxs.filter p) (hys.filter p)) fun k => ?_
  rw [KeyedList.lookup_filter p (sorted_combine hlt hm hxs hys), lookup_combine hlt hm hxs hys,
    lookup_combine hlt hm (hxs.filter p) (hys.filter p), KeyedList.lookup_filter p hxs,
    KeyedList.lookup_filter p hys]
  -- The two elements merged under `k` both have key `k`.
  have hkey : ∀ x ∈ KeyedList.lookup key xs k, ∀ y ∈ KeyedList.lookup key ys k, key y = key x :=
    fun x hx y hy => (KeyedList.key_of_lookup hy).trans (KeyedList.key_of_lookup hx).symm
  exact KeyedList.filter_merge (fun x hx y hy => hf x y (hkey x hx y hy))
    (fun x hx y hy => hl x y (hkey x hx y hy)) (fun x hx y hy => hr x y (hkey x hx y hy))

/-- A combination is commutative when two elements of one key, each satisfying `P`, merge alike in either order. -/
theorem combine_comm (hm : ∀ x y, key y = key x → key (merge x y) = key x) {P : α → Prop}
    (hc : ∀ x y, key y = key x → P x → P y → merge x y = merge y x) {xs ys : List α}
    (hxs : KeyedList.Sorted key xs) (hys : KeyedList.Sorted key ys) (hPx : ∀ x ∈ xs, P x) (hPy : ∀ y ∈ ys, P y) :
    combine lt merge xs ys = combine lt merge ys xs := by
  refine KeyedList.ext (sorted_combine hlt hm hxs hys) (sorted_combine hlt hm hys hxs) fun k => ?_
  rw [lookup_combine hlt hm hxs hys, lookup_combine hlt hm hys hxs]
  cases hx : KeyedList.lookup key xs k with
  | none => cases KeyedList.lookup key ys k <;> rfl
  | some x =>
    cases hy : KeyedList.lookup key ys k with
    | none => rfl
    | some y =>
      have hk : key y = key x := (KeyedList.key_of_lookup hy).trans (KeyedList.key_of_lookup hx).symm
      exact congrArg some (hc x y hk (hPx x (KeyedList.mem_of_lookup hx)) (hPy y (KeyedList.mem_of_lookup hy)))

theorem combine_assoc (hm : ∀ x y, key y = key x → key (merge x y) = key x)
    (ha : ∀ x y z, merge (merge x y) z = merge x (merge y z)) {xs ys zs : List α}
    (hxs : KeyedList.Sorted key xs) (hys : KeyedList.Sorted key ys) (hzs : KeyedList.Sorted key zs) :
    combine lt merge (combine lt merge xs ys) zs = combine lt merge xs (combine lt merge ys zs) := by
  have hxy := sorted_combine hlt hm hxs hys
  have hyz := sorted_combine hlt hm hys hzs
  refine KeyedList.ext (sorted_combine hlt hm hxy hzs) (sorted_combine hlt hm hxs hyz) fun k => ?_
  rw [lookup_combine hlt hm hxy hzs, lookup_combine hlt hm hxs hys, lookup_combine hlt hm hxs hyz,
    lookup_combine hlt hm hys hzs]
  cases KeyedList.lookup key xs k <;> cases KeyedList.lookup key ys k <;> cases KeyedList.lookup key zs k <;>
    simp [Option.merge, ha]

theorem combine_self (hm : ∀ x y, key y = key x → key (merge x y) = key x) (hi : ∀ x, merge x x = x)
    {xs : List α} (hxs : KeyedList.Sorted key xs) : combine lt merge xs xs = xs := by
  refine KeyedList.ext (sorted_combine hlt hm hxs hxs) hxs fun k => ?_
  rw [lookup_combine hlt hm hxs hxs]
  cases KeyedList.lookup key xs k <;> simp [Option.merge, hi]

/-- When a merge keeps one of its two elements, a combination has only elements of the two sequences. -/
theorem mem_combine (hm : ∀ x y, key y = key x → key (merge x y) = key x)
    (hmem : ∀ x y, merge x y = x ∨ merge x y = y) {c : α} {xs ys : List α} (hxs : KeyedList.Sorted key xs)
    (hys : KeyedList.Sorted key ys) (hc : c ∈ combine lt merge xs ys) : c ∈ xs ∨ c ∈ ys := by
  have hl := KeyedList.lookup_of_mem (sorted_combine hlt hm hxs hys) hc
  rw [lookup_combine hlt hm hxs hys] at hl
  cases hx : KeyedList.lookup key xs (key c) with
  | none =>
    rw [hx] at hl
    cases hy : KeyedList.lookup key ys (key c) with
    | none => rw [hy] at hl; cases hl
    | some y =>
      rw [hy] at hl
      exact .inr (Option.some_inj.1 hl ▸ KeyedList.mem_of_lookup hy)
  | some x =>
    rw [hx] at hl
    cases hy : KeyedList.lookup key ys (key c) with
    | none =>
      rw [hy] at hl
      exact .inl (Option.some_inj.1 hl ▸ KeyedList.mem_of_lookup hx)
    | some y =>
      rw [hy] at hl
      have hxy : merge x y = c := Option.some_inj.1 hl
      rcases hmem x y with h | h <;> rw [h] at hxy <;> subst hxy
      · exact .inl (KeyedList.mem_of_lookup hx)
      · exact .inr (KeyedList.mem_of_lookup hy)

/-- Combining two key-preserving partial maps of one sorted sequence, of which at most one keeps each element,
keeps what either keeps. -/
theorem combine_filterMap (hm : ∀ x y, key y = key x → key (merge x y) = key x) {l : List α}
    (hl : KeyedList.Sorted key l) {f g : α → Option α} (hf : ∀ a b, f a = some b → key b = key a)
    (hg : ∀ a b, g a = some b → key b = key a) (hfg : ∀ a, f a = none ∨ g a = none) :
    combine lt merge (l.filterMap f) (l.filterMap g) = l.filterMap fun a => (f a).or (g a) := by
  have hfg' : ∀ a b, (f a).or (g a) = some b → key b = key a := by
    intro a b h
    cases hfa : f a with
    | none => rw [hfa, Option.none_or] at h; exact hg a b h
    | some c => rw [hfa, Option.some_or] at h; exact hf a b (hfa.trans h)
  refine KeyedList.ext (sorted_combine hlt hm (hl.filterMap hf) (hl.filterMap hg)) (hl.filterMap hfg') fun k => ?_
  rw [lookup_combine hlt hm (hl.filterMap hf) (hl.filterMap hg), KeyedList.lookup_filterMap hf hl,
    KeyedList.lookup_filterMap hg hl, KeyedList.lookup_filterMap hfg' hl]
  cases KeyedList.lookup key l k with
  | none => rfl
  | some a => exact KeyedList.merge_eq_or (hfg a)

end Keyed

end Combine
