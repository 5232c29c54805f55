import Scylla.Locator.TabletMap

/-!
# Sibling sets of a merge

Three pieces of code must agree on the sibling sets of a merge: sibling_tablets computes the set of
one tablet by bit tricks, for_each_sibling_tablets walks the sets in order, and merge_tablets sizes the
merged map on its own.

* `Partition`: sets listing a range in order, each a tablet alone or with the next one;
  `Partition.findIdx_mem`: the set of a tablet is the first that ends at or after it.
* `pairWalk_append`, `selectiveWalk_spec`: what the two walks hand out.
* `siblingSets_of_validMerge`: for every merge plan the load balancer makes (`ValidMerge`), the three
  agree (`SiblingSets`).
-/

namespace Scylla.Locator

open Dht

/-! ## Sibling sets -/

/-- The tablet of a sibling set whose last token the merged tablet takes. -/
def lastSibling : Nat × Option Nat → Nat
  | (l, none) => l
  | (_, some r) => r

/-- Sibling sets that list `[a, a + len)` in order, each a tablet alone or a tablet with the next. -/
structure Partition (a len : Nat) (sets : List (Nat × Option Nat)) : Prop where
  members_eq : sets.flatMap siblingMembers = List.range' a len
  adjacent : ∀ g ∈ sets, g.2 = none ∨ g.2 = some (g.1 + 1)

namespace Partition

variable {a len : Nat} {sets : List (Nat × Option Nat)}

theorem nil (a : Nat) : Partition a 0 [] := ⟨rfl, by simp⟩

theorem cons_none (h : Partition (a + 1) len sets) : Partition a (len + 1) ((a, none) :: sets) := by
  refine ⟨?_, ?_⟩
  · rw [List.flatMap_cons, h.members_eq, List.range'_succ]
    rfl
  · intro g hg
    rcases List.mem_cons.1 hg with rfl | hg
    · exact Or.inl rfl
    · exact h.adjacent g hg

theorem cons_some (h : Partition (a + 2) len sets) :
    Partition a (len + 2) ((a, some (a + 1)) :: sets) := by
  refine ⟨?_, ?_⟩
  · rw [List.flatMap_cons, h.members_eq, List.range'_succ, List.range'_succ]
    rfl
  · intro g hg
    rcases List.mem_cons.1 hg with rfl | hg
    · exact Or.inr rfl
    · exact h.adjacent g hg

/-- The first set of a partition of `[a, a + len)` starts at `a`, and the rest partition what follows it. -/
theorem of_cons {g : Nat × Option Nat} (h : Partition a len (g :: sets)) :
    g.1 = a ∧ ((g.2 = none ∧ 1 ≤ len ∧ Partition (a + 1) (len - 1) sets) ∨
      (g.2 = some (a + 1) ∧ 2 ≤ len ∧ Partition (a + 2) (len - 2) sets)) := by
  obtain ⟨l, r⟩ := g
  have hmem := h.members_eq
  have hadj : ∀ g ∈ sets, g.2 = none ∨ g.2 = some (g.1 + 1) := fun g hg =>
    h.adjacent g (List.mem_cons_of_mem _ hg)
  rw [List.flatMap_cons] at hmem
  rcases h.adjacent (l, r) List.mem_cons_self with hr | hr <;> simp only at hr <;> subst hr
  · -- A tablet alone.
    obtain ⟨len, rfl⟩ : ∃ k, len = k + 1 := ⟨len - 1, by cases len <;> simp_all [siblingMembers]⟩
    rw [List.range'_succ] at hmem
    obtain ⟨rfl, hrest⟩ := List.cons.inj hmem
    exact ⟨rfl, Or.inl ⟨rfl, by omega, ⟨hrest, hadj⟩⟩⟩
  · -- A tablet with the next one.
    obtain ⟨len, rfl⟩ : ∃ k, len = k + 2 := ⟨len - 2, by
      rcases len with _ | _ | len <;> simp_all [siblingMembers, List.range'_succ]⟩
    rw [List.range'_succ, List.range'_succ] at hmem
    obtain ⟨rfl, hrest⟩ := List.cons.inj hmem
    obtain ⟨-, hrest⟩ := List.cons.inj hrest
    exact ⟨rfl, Or.inr ⟨rfl, by omega, ⟨hrest, hadj⟩⟩⟩

theorem append {l₁ l₂ : Nat} {s₁ s₂ : List (Nat × Option Nat)} (h₁ : Partition a l₁ s₁)
    (h₂ : Partition (a + l₁) l₂ s₂) : Partition a (l₁ + l₂) (s₁ ++ s₂) := by
  refine ⟨?_, ?_⟩
  · rw [List.flatMap_append, h₁.members_eq, h₂.members_eq, ← List.range'_append, Nat.one_mul]
  · intro g hg
    rcases List.mem_append.1 hg with hg | hg
    · exact h₁.adjacent g hg
    · exact h₂.adjacent g hg

/-- Every tablet of the range lies in a set: alone, with the next tablet, or with the one before. -/
theorem exists_group (h : Partition a len sets) {x : Nat} (hx : a ≤ x ∧ x < a + len) :
    (x, none) ∈ sets ∨ (x, some (x + 1)) ∈ sets ∨ (0 < x ∧ (x - 1, some x) ∈ sets) := by
  have hmem : x ∈ sets.flatMap siblingMembers := by
    rw [h.members_eq, List.mem_range'_1]
    exact hx
  obtain ⟨⟨l, r⟩, hg, hxg⟩ := List.mem_flatMap.1 hmem
  rcases h.adjacent _ hg with hr | hr <;> simp only at hr <;> subst hr
  · have hxl : x = l := List.mem_singleton.1 hxg
    subst hxl
    exact Or.inl hg
  · simp only [siblingMembers, List.mem_cons, List.not_mem_nil, or_false] at hxg
    rcases hxg with rfl | rfl
    · exact Or.inr (Or.inl hg)
    · exact Or.inr (Or.inr ⟨by omega, by simpa using hg⟩)

/-- The first set of a partition holds the tablets from `a` to its last one, and the rest partition
what follows. -/
theorem tail {g : Nat × Option Nat} (h : Partition a len (g :: sets)) :
    (∀ i, i ∈ siblingMembers g ↔ a ≤ i ∧ i ≤ lastSibling g) ∧ a ≤ lastSibling g ∧
      lastSibling g < a + len ∧ Partition (lastSibling g + 1) (a + len - (lastSibling g + 1)) sets := by
  obtain ⟨⟨l, r⟩, hg⟩ : ∃ g', g = g' := ⟨g, rfl⟩
  subst hg
  obtain ⟨hl, ⟨hr, hlen, hrest⟩ | ⟨hr, hlen, hrest⟩⟩ := h.of_cons <;> simp only at hl hr <;> subst hl hr
  · refine ⟨fun i => ?_, Nat.le_refl _, by simp only [lastSibling]; omega, ?_⟩
    · simp only [siblingMembers, lastSibling, List.mem_singleton]
      omega
    · rwa [show lastSibling (l, none) + 1 = l + 1 from rfl, show l + len - (l + 1) = len - 1 by omega]
  · refine ⟨fun i => ?_, by simp [lastSibling], by simp only [lastSibling]; omega, ?_⟩
    · simp only [siblingMembers, lastSibling, List.mem_cons, List.not_mem_nil, or_false]
      omega
    · rwa [show lastSibling (l, some (l + 1)) + 1 = l + 2 from rfl,
        show l + len - (l + 2) = len - 2 by omega]

/-- The sets end at increasing tablets inside the range. -/
theorem lastSibling_sorted (h : Partition a len sets) :
    (sets.map lastSibling).Pairwise (· < ·) ∧ ∀ g ∈ sets, a ≤ lastSibling g ∧ lastSibling g < a + len := by
  induction sets generalizing a len with
  | nil => simp
  | cons g sets ih =>
    obtain ⟨-, hag, hgn, hrest⟩ := h.tail
    obtain ⟨hs, hbounds⟩ := ih hrest
    -- The first set ends before the rest starts.
    refine ⟨List.Pairwise.cons (fun y hy => ?_) hs, fun g' hg' => ?_⟩
    · obtain ⟨g', hg', rfl⟩ := List.mem_map.1 hy
      have := (hbounds g' hg').1
      omega
    · rcases List.mem_cons.1 hg' with rfl | hg'
      · exact ⟨hag, hgn⟩
      · have := hbounds g' hg'
        omega

/-- The last set of a partition ends at the last tablet of the range. -/
theorem getLast?_lastSibling (h : Partition a len sets) (hlen : 0 < len) :
    (sets.map lastSibling).getLast? = some (a + len - 1) := by
  induction sets generalizing a len with
  | nil =>
    have := h.members_eq
    rw [List.flatMap_nil] at this
    cases len with
    | zero => omega
    | succ len => simp [List.range'_succ] at this
  | cons g sets ih =>
    obtain ⟨-, -, hgn, hrest⟩ := h.tail
    cases sets with
    | nil =>
      -- The set alone reaches the end of the range.
      have := hrest.members_eq
      rw [List.flatMap_nil] at this
      have hend : a + len - (lastSibling g + 1) = 0 := by
        by_contra hne
        obtain ⟨k, hk⟩ : ∃ k, a + len - (lastSibling g + 1) = k + 1 := ⟨_, (Nat.succ_pred_eq_of_ne_zero hne).symm⟩
        rw [hk, List.range'_succ] at this
        cases this
      simp only [List.map_cons, List.map_nil, List.getLast?_singleton, Option.some.injEq]
      omega
    | cons g' sets =>
      have hlen' : 0 < a + len - (lastSibling g + 1) := by
        have := (lastSibling_sorted hrest).2 g' List.mem_cons_self
        omega
      rw [List.map_cons, List.map_cons, List.getLast?_cons_cons, ← List.map_cons, ih hrest hlen']
      congr 1
      omega

/-- The set holding tablet `i` is the first to end at or after it. -/
theorem findIdx_mem (h : Partition a len sets) {i : Nat} (hi : a ≤ i ∧ i < a + len) :
    ∃ g, sets[sets.findIdx fun g => decide (i ≤ lastSibling g)]? = some g ∧ i ∈ siblingMembers g := by
  induction sets generalizing a len with
  | nil =>
    have := h.members_eq
    rw [List.flatMap_nil] at this
    cases len with
    | zero => omega
    | succ len => simp [List.range'_succ] at this
  | cons g sets ih =>
    obtain ⟨hmem, -, -, hrest⟩ := h.tail
    rw [List.findIdx_cons]
    by_cases hig : i ≤ lastSibling g
    · exact ⟨g, by simp [hig], (hmem i).2 ⟨hi.1, hig⟩⟩
    · obtain ⟨g', hg', hig'⟩ := ih hrest (by omega)
      refine ⟨g', ?_, hig'⟩
      simpa [hig] using hg'

end Partition

/-! ## The walks of for_each_sibling_tablets -/

/-- The adjacent pairs from tablet `a` on, `c` of them. -/
def pairsFrom (a c : Nat) : List (Nat × Option Nat) := (List.range c).map fun j => (a + 2 * j, some (a + 2 * j + 1))

theorem pairsFrom_succ (a c : Nat) : pairsFrom a (c + 1) = (a, some (a + 1)) :: pairsFrom (a + 2) c := by
  simp only [pairsFrom, List.range_succ_eq_map, List.map_cons, List.map_map]
  refine List.cons_eq_cons.2 ⟨by simp, List.map_congr_left fun j _ => ?_⟩
  simp only [Function.comp_apply, Prod.mk.injEq, Option.some.injEq]
  omega

theorem partition_pairsFrom (a c : Nat) : Partition a (2 * c) (pairsFrom a c) := by
  induction c generalizing a with
  | zero => exact Partition.nil a
  | succ c ih =>
    rw [pairsFrom_succ, show 2 * (c + 1) = 2 * c + 2 by omega]
    exact (ih (a + 2)).cons_some

theorem length_pairsFrom (a c : Nat) : (pairsFrom a c).length = c := by
  simp [pairsFrom]

theorem mem_pairsFrom {a c j : Nat} (hj : j < c) : (a + 2 * j, some (a + 2 * j + 1)) ∈ pairsFrom a c :=
  List.mem_map.2 ⟨j, List.mem_range.2 hj, rfl⟩

/-- The pair walk over `2 c` tablets from `a`, none of whose left tablets is isolated, pairs them up. -/
theorem pairWalk_append {isolated : Option Nat} {a c : Nat} (h : ∀ j < c, isolated ≠ some (a + 2 * j))
    {rest : List Nat} {sets : List (Nat × Option Nat)} (hrest : pairWalk isolated rest = .ok sets) :
    pairWalk isolated (List.range' a (2 * c) ++ rest) = .ok (pairsFrom a c ++ sets) := by
  induction c generalizing a with
  | zero => simpa [pairsFrom] using hrest
  | succ c ih =>
    have hhead : isolated ≠ some a := by simpa using h 0 (by omega)
    have htail := ih (a := a + 2) fun j hj => by
      rw [show a + 2 + 2 * j = a + 2 * (j + 1) by omega]
      exact h (j + 1) (by omega)
    rw [show 2 * (c + 1) = 2 * c + 1 + 1 by omega, List.range'_succ, List.range'_succ, List.cons_append,
      List.cons_append, pairWalk, if_neg hhead, show a + 1 + 1 = a + 2 by omega, htail, pairsFrom_succ]
    rfl

theorem pairWalk_isolated {k : Nat} {rest : List Nat} {sets : List (Nat × Option Nat)}
    (hrest : pairWalk (some k) rest = .ok sets) : pairWalk (some k) (k :: rest) = .ok ((k, none) :: sets) := by
  -- The equations of the walk split on the tablets after the isolated one.
  cases rest with
  | nil =>
    rw [pairWalk, if_pos rfl, hrest]
    rfl
  | cons r rest =>
    rw [pairWalk, if_pos rfl, hrest]
    rfl

theorem selectiveWalk_skip {l a : Nat} {sel rest : List Nat} (h : a ≠ l) :
    selectiveWalk (l :: sel) (a :: rest) = ((a, none) :: ·) <$> selectiveWalk (l :: sel) rest := by
  cases rest with
  | nil => rw [selectiveWalk.eq_2, if_neg h]
  | cons r rest => rw [selectiveWalk, if_neg h]

theorem selectiveWalk_pair (l r : Nat) (sel rest : List Nat) :
    selectiveWalk (l :: sel) (l :: r :: rest) = ((l, some r) :: ·) <$> selectiveWalk sel rest := by
  rw [selectiveWalk, if_pos rfl]

/-- The selective walk over `[a, a + len)` with selected left tablets in the range, each at least two
past the one before: it pairs each selected tablet with the next and leaves every other alone. -/
theorem selectiveWalk_spec (len : Nat) : ∀ (a : Nat) (sel : List Nat), sel.Pairwise (· + 2 ≤ ·) →
    (∀ l ∈ sel, a ≤ l ∧ l + 1 < a + len) →
    ∃ sets, selectiveWalk sel (List.range' a len) = .ok sets ∧ Partition a len sets ∧
      sets.length + sel.length = len ∧ ∀ l, (l, some (l + 1)) ∈ sets ↔ l ∈ sel := by
  induction len using Nat.strong_induction_on with
  | _ len ih =>
    intro a sel hs hin
    cases len with
    | zero =>
      -- No tablet: nothing can be selected.
      have hsel : sel = [] := List.eq_nil_iff_forall_not_mem.2 fun l hl => by
        have := hin l hl
        omega
      subst hsel
      exact ⟨[], rfl, Partition.nil a, rfl, by simp⟩
    | succ len =>
      cases sel with
      | nil =>
        obtain ⟨sets, hw, hp, hlen, hpair⟩ := ih len (by omega) (a + 1) [] List.Pairwise.nil (by simp)
        refine ⟨(a, none) :: sets, ?_, hp.cons_none, by simpa using hlen, fun l => ?_⟩
        · rw [List.range'_succ, selectiveWalk, hw]
          rfl
        · simpa using hpair l
      | cons l sel =>
        obtain ⟨hl, hsel⟩ := List.pairwise_cons.1 hs
        by_cases hal : a = l
        · -- A selected tablet takes the next one along.
          subst hal
          obtain ⟨len, rfl⟩ : ∃ k, len = k + 1 := ⟨len - 1, by have := hin a List.mem_cons_self; omega⟩
          obtain ⟨sets, hw, hp, hlen, hpair⟩ := ih len (by omega) (a + 2) sel hsel fun l' hl' => by
            have := hin l' (List.mem_cons_of_mem _ hl')
            have := hl l' hl'
            omega
          refine ⟨(a, some (a + 1)) :: sets, ?_, hp.cons_some, by simp only [List.length_cons]; omega,
            fun l' => ?_⟩
          · rw [List.range'_succ, List.range'_succ, selectiveWalk_pair, show a + 1 + 1 = a + 2 by omega, hw]
            rfl
          · have hnot : a ∉ sel := fun h => by have := hl a h; omega
            simp only [List.mem_cons, Prod.mk.injEq, Option.some.injEq, hpair]
            constructor
            · rintro (⟨rfl, -⟩ | h)
              · exact Or.inl rfl
              · exact Or.inr h
            · rintro (rfl | h)
              · exact Or.inl ⟨rfl, rfl⟩
              · exact Or.inr h
        · -- A tablet before the next selected one stays alone.
          obtain ⟨sets, hw, hp, hlen, hpair⟩ := ih len (by omega) (a + 1) (l :: sel) hs fun l' hl' => by
            have := hin l' hl'
            rcases List.mem_cons.1 hl' with rfl | hl'
            · omega
            · have := hl l' hl'
              have := hin l List.mem_cons_self
              omega
          refine ⟨(a, none) :: sets, ?_, hp.cons_none, by simp only [List.length_cons] at hlen ⊢; omega,
            fun l' => ?_⟩
          · rw [List.range'_succ, selectiveWalk_skip hal, hw]
            rfl
          · simpa using hpair l'

/-! ## The merge plans of the load balancer -/

/-- A merge plan the load balancer makes for `n` tablets: all of them in pairs, with the one of an even
id left alone when `n` is odd, or only the selected pairs, each inside the range and past the one
before. -/
def ValidMerge (n : Nat) : Option Nat → List Nat → Prop
  | none, [] => n % 2 = 0
  | some k, [] => n % 2 = 1 ∧ k % 2 = 0 ∧ k < n
  | _, l :: sel => (l :: sel).Pairwise (fun a b => a + 2 ≤ b) ∧ ∀ x ∈ l :: sel, x < n - 1

instance instDecidableValidMerge (n : Nat) : (isolated : Option Nat) → (selected : List Nat) →
    Decidable (ValidMerge n isolated selected)
  | none, [] => inferInstanceAs (Decidable (n % 2 = 0))
  | some k, [] => inferInstanceAs (Decidable (n % 2 = 1 ∧ k % 2 = 0 ∧ k < n))
  | none, l :: sel =>
    inferInstanceAs (Decidable ((l :: sel).Pairwise (fun a b => a + 2 ≤ b) ∧ ∀ x ∈ l :: sel, x < n - 1))
  | some _, l :: sel =>
    inferInstanceAs (Decidable ((l :: sel).Pairwise (fun a b => a + 2 ≤ b) ∧ ∀ x ∈ l :: sel, x < n - 1))

namespace TabletMap

variable {ι : Type} {m : TabletMap ι}

/-- What the three views of a merge agree on: the sets the walk hands out partition the tablets,
merge_tablets sizes the new map by their count, and sibling_tablets names the set of each tablet. -/
structure SiblingSets (m : TabletMap ι) (sets : List (Nat × Option Nat)) : Prop where
  partition : Partition 0 m.tabletCount sets
  mergedCount_eq : m.mergedCount = .ok sets.length
  siblingTablets_mem : ∀ t < m.tabletCount, ∃ g ∈ sets, m.siblingTablets t = .ok g ∧ t ∈ siblingMembers g

theorem nextTablet_of_lt {t : Nat} (h : t + 1 < m.tabletCount) : m.nextTablet t = some (t + 1) := by
  rw [nextTablet, if_neg (by omega)]

section Merge

variable {isolated : Option Nat} {selected : List Nat} (hd : m.resizeDecision = .merge isolated selected)
include hd

theorem forEachSiblingTablets_eq :
    m.forEachSiblingTablets = if selected.isEmpty then pairWalk isolated (List.range' 0 m.tabletCount)
      else selectiveWalk selected (List.range' 0 m.tabletCount) := by
  rw [forEachSiblingTablets, hd, List.range_eq_range']

/-- sibling_tablets of a tablet in range, under a plan that pairs all tablets. -/
theorem siblingTablets_of_isEmpty (hs : selected = []) {t : Nat} (ht : t < m.tabletCount) :
    m.siblingTablets t =
      if isolated.all (t < ·) then .ok (t - t % 2, m.nextTablet (t - t % 2))
      else if isolated = some t then .ok (t, none)
      else .ok ((t - 1) - (t - 1) % 2 + 1, m.nextTablet ((t - 1) - (t - 1) % 2 + 1)) := by
  subst hs
  simp [siblingTablets, hd, Nat.not_le.2 ht]
  rfl

/-- sibling_tablets of a tablet in range, under a selective plan: the binary search finds the selected
tablets. -/
theorem siblingTablets_of_ne_nil (hs : selected ≠ []) (hsel : selected.Pairwise (· < ·)) {t : Nat}
    (ht : t < m.tabletCount) :
    m.siblingTablets t =
      if t ∈ selected then .ok (t, m.nextTablet t)
      else if t ≠ 0 ∧ t - 1 ∈ selected then .ok (t - 1, some t)
      else .ok (t, none) := by
  have hcontains : ∀ x, LowerBound.binarySearch (selected.getD · 0) 0 selected.length x = decide (x ∈ selected) :=
    fun x => LowerBound.binarySearch_getD hsel 0 x
  have hne : selected.isEmpty = false := List.isEmpty_eq_false_iff.2 hs
  simp only [siblingTablets, hd, Nat.not_le.2 ht, if_false, hne, Bool.not_false, if_true, hcontains,
    decide_eq_true_eq]
  rfl

/-- A plan that pairs all of an even count of tablets. -/
theorem siblingSets_of_even (hs : selected = []) (hi : isolated = none) (hn : m.tabletCount % 2 = 0) :
    ∃ sets, m.forEachSiblingTablets = .ok sets ∧ m.SiblingSets sets := by
  obtain ⟨c, hc⟩ : ∃ c, m.tabletCount = 2 * c := ⟨m.tabletCount / 2, by omega⟩
  have hwalk : pairWalk isolated (List.range' 0 m.tabletCount) = .ok (pairsFrom 0 c) := by
    have h := pairWalk_append (a := 0) (c := c) (fun j _ => by simp [hi]) (rfl : pairWalk isolated [] = .ok [])
    rwa [List.append_nil, List.append_nil, ← hc] at h
  refine ⟨pairsFrom 0 c, by rw [forEachSiblingTablets_eq hd, hs]; exact hwalk, ⟨?_, ?_, fun t ht => ?_⟩⟩
  · rw [hc]
    exact partition_pairsFrom 0 c
  · rw [mergedCount, hd, hs, length_pairsFrom]
    show Except.ok ((m.tabletCount + 2 - 1) / 2) = _
    congr 1
    omega
  · -- Tablet `t` is in the pair of the even tablet at or below it.
    rw [siblingTablets_of_isEmpty hd hs ht, hi, Option.all_none, if_pos rfl, nextTablet_of_lt (by omega)]
    refine ⟨(t - t % 2, some (t - t % 2 + 1)), ?_, rfl, ?_⟩
    · have h := mem_pairsFrom (a := 0) (j := t / 2) (show t / 2 < c by omega)
      rwa [show 0 + 2 * (t / 2) = t - t % 2 by omega] at h
    · simp only [siblingMembers, List.mem_cons, List.not_mem_nil, or_false]
      omega

/-- A plan that pairs all of an odd count of tablets but the isolated one, of an even id. -/
theorem siblingSets_of_isolated (hs : selected = []) {k : Nat} (hi : isolated = some k)
    (hn : m.tabletCount % 2 = 1) (hk : k % 2 = 0) (hkn : k < m.tabletCount) :
    ∃ sets, m.forEachSiblingTablets = .ok sets ∧ m.SiblingSets sets := by
  obtain ⟨c, hc⟩ : ∃ c, k = 2 * c := ⟨k / 2, by omega⟩
  obtain ⟨d, hdn⟩ : ∃ d, m.tabletCount = k + 1 + 2 * d := ⟨(m.tabletCount - k - 1) / 2, by omega⟩
  -- The pairs before the isolated tablet, the isolated tablet, and the pairs after it.
  have hrange : List.range' 0 m.tabletCount = List.range' 0 (2 * c) ++ k :: List.range' (k + 1) (2 * d) := by
    have hk' : k :: List.range' (k + 1) (2 * d) = List.range' (0 + 1 * (2 * c)) (2 * d + 1) := by
      rw [List.range'_succ, ← hc]
      simp
    rw [hk', List.range'_append, hdn]
    congr 1
    omega
  have hwalk : pairWalk isolated (List.range' 0 m.tabletCount) =
      .ok (pairsFrom 0 c ++ (k, none) :: pairsFrom (k + 1) d) := by
    have hafter := pairWalk_append (a := k + 1) (c := d) (fun j _ => by rw [hi]; simp; omega)
      (rfl : pairWalk isolated [] = .ok [])
    rw [List.append_nil, List.append_nil, hi] at hafter
    rw [hrange]
    refine pairWalk_append (fun j hj => by rw [hi]; simp; omega) ?_
    rw [hi]
    exact pairWalk_isolated hafter
  refine ⟨_, by rw [forEachSiblingTablets_eq hd, hs]; exact hwalk, ⟨?_, ?_, fun t ht => ?_⟩⟩
  · have h := (partition_pairsFrom 0 c).append
      (show Partition (0 + 2 * c) (2 * d + 1) _ from by rw [← hc, Nat.zero_add]; exact (partition_pairsFrom (k + 1) d).cons_none)
    rwa [show 2 * c + (2 * d + 1) = m.tabletCount by omega] at h
  · rw [mergedCount, hd, hs]
    show Except.ok ((m.tabletCount + 2 - 1) / 2) = _
    simp only [List.length_append, List.length_cons, length_pairsFrom]
    congr 1
    omega
  · rw [siblingTablets_of_isEmpty hd hs ht, hi, Option.all_some]
    by_cases htk : t < k
    · -- Before the isolated tablet: the pair of the even tablet at or below `t`.
      rw [if_pos (decide_eq_true htk), nextTablet_of_lt (by omega)]
      refine ⟨(t - t % 2, some (t - t % 2 + 1)), ?_, rfl, ?_⟩
      · have h := mem_pairsFrom (a := 0) (j := t / 2) (show t / 2 < c by omega)
        rw [show 0 + 2 * (t / 2) = t - t % 2 by omega] at h
        exact List.mem_append_left _ h
      · simp only [siblingMembers, List.mem_cons, List.not_mem_nil, or_false]
        omega
    · rw [if_neg (by simpa using htk)]
      by_cases htk' : t = k
      · subst htk'
        exact ⟨(t, none), List.mem_append_right _ List.mem_cons_self, by simp, List.mem_singleton_self t⟩
      · -- After it: the pairs are shifted by one.
        rw [if_neg (by simpa [eq_comm] using htk'), nextTablet_of_lt (by omega)]
        refine ⟨((t - 1) - (t - 1) % 2 + 1, some ((t - 1) - (t - 1) % 2 + 1 + 1)), ?_, rfl, ?_⟩
        · have h := mem_pairsFrom (a := k + 1) (j := (t - k - 1) / 2) (show (t - k - 1) / 2 < d by omega)
          rw [show k + 1 + 2 * ((t - k - 1) / 2) = (t - 1) - (t - 1) % 2 + 1 by omega] at h
          exact List.mem_append_right _ (List.mem_cons_of_mem _ h)
        · simp only [siblingMembers, List.mem_cons, List.not_mem_nil, or_false]
          omega

/-- A plan of selected pairs, each inside the range and past the one before. -/
theorem siblingSets_of_selected (hs : selected ≠ []) (hsel : selected.Pairwise (fun a b => a + 2 ≤ b))
    (hlt : ∀ x ∈ selected, x < m.tabletCount - 1) :
    ∃ sets, m.forEachSiblingTablets = .ok sets ∧ m.SiblingSets sets := by
  obtain ⟨sets, hwalk, hp, hlen, hpair⟩ := selectiveWalk_spec m.tabletCount 0 selected hsel
    fun l hl => ⟨Nat.zero_le _, by have := hlt l hl; omega⟩
  have hne : selected.isEmpty = false := List.isEmpty_eq_false_iff.2 hs
  have hsorted : selected.Pairwise (· < ·) := hsel.imp fun h => by omega
  refine ⟨sets, by rw [forEachSiblingTablets_eq hd, hne]; exact hwalk, ⟨hp, ?_, fun t ht => ?_⟩⟩
  · rw [mergedCount, hd]
    show Except.ok (if selected.isEmpty = true then _ else m.tabletCount - selected.length) = _
    rw [hne, if_neg Bool.false_ne_true]
    congr 1
    omega
  · rw [siblingTablets_of_ne_nil hd hs hsorted ht]
    by_cases hts : t ∈ selected
    · -- A selected tablet, with the next one.
      rw [if_pos hts, nextTablet_of_lt (by have := hlt t hts; omega)]
      exact ⟨(t, some (t + 1)), (hpair t).2 hts, rfl, by simp [siblingMembers]⟩
    · rw [if_neg hts]
      by_cases hprev : t ≠ 0 ∧ t - 1 ∈ selected
      · -- The tablet after a selected one.
        rw [if_pos hprev]
        have h := (hpair (t - 1)).2 hprev.2
        rw [show t - 1 + 1 = t by omega] at h
        exact ⟨(t - 1, some t), h, rfl, by simp [siblingMembers]⟩
      · -- Any other tablet is alone in its set.
        rw [if_neg hprev]
        refine ⟨(t, none), ?_, rfl, List.mem_singleton_self t⟩
        rcases hp.exists_group ⟨Nat.zero_le t, by omega⟩ with h | h | ⟨ht0, h⟩
        · exact h
        · exact absurd ((hpair t).1 h) hts
        · have h' : (t - 1, some (t - 1 + 1)) ∈ sets := by rwa [show t - 1 + 1 = t by omega]
          exact absurd ⟨by omega, (hpair (t - 1)).1 h'⟩ hprev

theorem siblingSets_of_validMerge (hv : ValidMerge m.tabletCount isolated selected) :
    ∃ sets, m.forEachSiblingTablets = .ok sets ∧ m.SiblingSets sets := by
  cases selected with
  | nil =>
    cases isolated with
    | none => exact siblingSets_of_even hd rfl rfl hv
    | some k => exact siblingSets_of_isolated hd rfl rfl hv.1 hv.2.1 hv.2.2
  | cons l sel => cases isolated <;> exact siblingSets_of_selected hd (List.cons_ne_nil _ _) hv.1 hv.2

end Merge

end TabletMap

end Scylla.Locator
