import Mathlib
import Scylla.Lib.IntervalSup

/-!
# Range tombstone lists

A range_tombstone_list keeps the range deletions of a partition as a list of range tombstones, each
deleting the positions from its start, included, to its end, excluded, ordered and with no two
overlapping.  `apply` adds a deletion: `insert_from` walks the entries it meets, merging those with the
same tombstone, cutting those it overwrites and leaving room for those that overwrite it.

Positions are those of `position_in_partition`, in their order, and tombstones compare by their
defaulted three-way comparison: the model takes any two linear orders.  What a list means is the
largest tombstone over each position (`covering`).

* `apply_spec`: applying a range tombstone keeps the list ordered and covers each position with the
  larger of what covered it and the new tombstone.
* `searchTombstoneCovering_eq`: search_tombstone_covering finds that tombstone.
-/

namespace Scylla

open IntervalSup

/-- range_tombstone: `tomb` deletes the positions from `startPos`, included, to `endPos`, excluded. -/
structure RangeTombstone (P T : Type) where
  startPos : P
  endPos : P
  tomb : T
  deriving DecidableEq, Repr

namespace RangeTombstoneList

variable {P T : Type} [LinearOrder P]

section Model

variable [LinearOrder T]

/-- The loop of insert_from over the entries from `it` on, adding `tomb` over `[start, stop)`: what it
makes of these entries. -/
def insertLoop (tomb : T) : List (RangeTombstone P T) → P → P → List (RangeTombstone P T)
  | [], start, stop => [⟨start, stop, tomb⟩]
  | it :: rest, start, stop =>
    if stop ≤ start then it :: rest
    else if stop < it.startPos then
      -- not overlapping; the test for a same tombstone ending at it's start cannot hold here.
      if it.tomb = tomb ∧ stop = it.startPos then ⟨start, stop, tomb⟩ :: rest
      else ⟨start, stop, tomb⟩ :: it :: rest
    else
      match compare tomb it.tomb with
      | .eq =>
        -- same timestamp, overlapping or adjacent, so merge.
        let start := if it.startPos < start then it.startPos else start
        let stop := if stop < it.endPos then it.endPos else stop
        insertLoop tomb rest start stop
      | .gt =>
        -- We overwrite the current tombstone: what it has before the new one stays.
        let before := if it.startPos < start then [⟨it.startPos, start, it.tomb⟩] else []
        if stop < it.endPos then before ++ ⟨start, stop, tomb⟩ :: ⟨stop, it.endPos, it.tomb⟩ :: rest
        else before ++ insertLoop tomb rest start stop
      | .lt =>
        -- We don't overwrite the current tombstone: the new one goes on after it.
        let after := if it.endPos < stop then it :: insertLoop tomb rest it.endPos stop else it :: rest
        if start < it.startPos then
          if it.startPos < stop then ⟨start, it.startPos, tomb⟩ :: after
          else ⟨start, stop, tomb⟩ :: it :: rest
        else after

/-- insert_from: the entries before `it` are `done`, and the last of them merges with the new
tombstone when it has the same tombstone and ends where the new one starts. -/
def insertFrom (done rest : List (RangeTombstone P T)) (start stop : P) (tomb : T) :
    List (RangeTombstone P T) :=
  match done.getLast? with
  | some prev =>
    if prev.tomb = tomb ∧ prev.endPos = start then done.dropLast ++ insertLoop tomb rest prev.startPos stop
    else done ++ insertLoop tomb rest start stop
  | none => done ++ insertLoop tomb rest start stop

/-- range_tombstone_list::apply, through apply_reversibly: the entries from the first one ending after
`start`, found by upper_bound, go to insert_from. -/
def apply (l : List (RangeTombstone P T)) (start stop : P) (tomb : T) : List (RangeTombstone P T) :=
  if ¬ start < stop then l
  else
    match l.getLast? with
    | some last =>
      let i := if start < last.endPos then l.findIdx (fun rt => decide (start < rt.endPos)) else l.length
      insertFrom (l.take i) (l.drop i) start stop tomb
    | none => [⟨start, stop, tomb⟩]

/-- range_tombstone_list::apply_monotonically(list): each entry of the other list in turn. -/
def applyMonotonically (l src : List (RangeTombstone P T)) : List (RangeTombstone P T) :=
  src.foldl (fun acc rt => apply acc rt.startPos rt.endPos rt.tomb) l

/-- range_tombstone_list::search_tombstone_covering: the first entry ending after the key, if it
starts at or before it; `⊥` is the empty tombstone. -/
def searchTombstoneCovering (l : List (RangeTombstone P T)) (key : P) : WithBot T :=
  match l.find? (fun rt => decide (key < rt.endPos)) with
  | none => ⊥
  | some rt => if key < rt.startPos then ⊥ else rt.tomb

end Model

/-- The representation invariant: each entry starts before it ends, and ends at or before the next
starts. -/
structure Valid (l : List (RangeTombstone P T)) : Prop where
  startPos_lt : ∀ rt ∈ l, rt.startPos < rt.endPos
  isChain : l.IsChain fun a b => a.endPos ≤ b.startPos

instance instDecidableValid (l : List (RangeTombstone P T)) : Decidable (Valid l) :=
  decidable_of_iff ((∀ rt ∈ l, rt.startPos < rt.endPos) ∧ l.IsChain fun a b => a.endPos ≤ b.startPos)
    ⟨fun h => ⟨h.1, h.2⟩, fun h => ⟨h.1, h.2⟩⟩

variable {l l₁ l₂ : List (RangeTombstone P T)}

/-- Each entry ends at or before every later one starts. -/
theorem Valid.pairwise (h : Valid l) : l.Pairwise fun a b => a.endPos ≤ b.startPos := by
  obtain ⟨hlt, hchain⟩ := h
  induction l with
  | nil => exact List.Pairwise.nil
  | cons a l ih =>
    have hl : ∀ rt ∈ l, rt.startPos < rt.endPos := fun rt hrt => hlt rt (List.mem_cons_of_mem _ hrt)
    cases l with
    | nil => exact List.pairwise_singleton _ a
    | cons b l =>
      rw [List.isChain_cons_cons] at hchain
      have hrest := ih hl hchain.2
      refine List.Pairwise.cons (fun c hc => ?_) hrest
      rcases List.mem_cons.1 hc with rfl | hc
      · exact hchain.1
      · -- Through `b`, which starts before it ends.
        exact le_trans hchain.1 (le_of_lt (lt_of_lt_of_le (hl b List.mem_cons_self)
          ((List.pairwise_cons.1 hrest).1 c hc)))

theorem valid_of_pairwise (hlt : ∀ rt ∈ l, rt.startPos < rt.endPos)
    (hp : l.Pairwise fun a b => a.endPos ≤ b.startPos) : Valid l :=
  ⟨hlt, hp.isChain⟩

theorem valid_nil : Valid ([] : List (RangeTombstone P T)) := ⟨by simp, List.IsChain.nil⟩

theorem valid_cons {rt : RangeTombstone P T} :
    Valid (rt :: l) ↔ rt.startPos < rt.endPos ∧ (∀ b ∈ l, rt.endPos ≤ b.startPos) ∧ Valid l := by
  constructor
  · intro h
    have hp := List.pairwise_cons.1 h.pairwise
    exact ⟨h.startPos_lt rt List.mem_cons_self, hp.1,
      valid_of_pairwise (fun b hb => h.startPos_lt b (List.mem_cons_of_mem _ hb)) hp.2⟩
  · rintro ⟨hrt, hle, hl⟩
    refine valid_of_pairwise (fun b hb => ?_) (List.Pairwise.cons hle hl.pairwise)
    rcases List.mem_cons.1 hb with rfl | hb
    · exact hrt
    · exact hl.startPos_lt b hb

theorem valid_append :
    Valid (l₁ ++ l₂) ↔ Valid l₁ ∧ Valid l₂ ∧ ∀ a ∈ l₁, ∀ b ∈ l₂, a.endPos ≤ b.startPos := by
  constructor
  · intro h
    have hp := List.pairwise_append.1 h.pairwise
    exact ⟨valid_of_pairwise (fun b hb => h.startPos_lt b (List.mem_append_left _ hb)) hp.1,
      valid_of_pairwise (fun b hb => h.startPos_lt b (List.mem_append_right _ hb)) hp.2.1, hp.2.2⟩
  · rintro ⟨h₁, h₂, h⟩
    refine valid_of_pairwise (fun b hb => ?_) (List.pairwise_append.2 ⟨h₁.pairwise, h₂.pairwise, h⟩)
    rcases List.mem_append.1 hb with hb | hb
    · exact h₁.startPos_lt b hb
    · exact h₂.startPos_lt b hb

/-- The entries after `it` start at or after it ends. -/
theorem le_of_valid_cons {it : RangeTombstone P T} {rest : List (RangeTombstone P T)}
    (hv : Valid (it :: rest)) {x : P} (hx : x ≤ it.endPos) :
    ∀ rt ∈ rest, x ≤ rt.startPos :=
  fun rt hrt => le_trans hx ((valid_cons.1 hv).2.1 rt hrt)

theorem head_of_valid_cons {it : RangeTombstone P T} {rest : List (RangeTombstone P T)}
    (hv : Valid (it :: rest)) {x : P} (hx : x ≤ it.endPos) :
    ∀ rt ∈ rest.head?, x < rt.endPos := by
  intro rt hrt
  have hmem : rt ∈ rest := List.mem_of_mem_head? hrt
  exact lt_of_le_of_lt (le_of_valid_cons hv hx rt hmem) ((valid_cons.1 hv).2.2.startPos_lt rt hmem)

/-! Where upper_bound cuts the list: the entries before the first one ending after `start` end at or
before it. -/

theorem endPos_le_of_mem_take {start : P} {rt : RangeTombstone P T}
    (h : rt ∈ l.take (l.findIdx fun rt => decide (start < rt.endPos))) : rt.endPos ≤ start := by
  obtain ⟨i, hi, rfl⟩ := List.mem_take_iff_getElem.1 h
  have hlt : i < l.findIdx fun rt => decide (start < rt.endPos) := lt_of_lt_of_le hi (min_le_left _ _)
  exact not_lt.1 (of_decide_eq_false (List.not_of_lt_findIdx hlt))

theorem head_drop_findIdx {start : P} :
    ∀ rt ∈ (l.drop (l.findIdx fun rt => decide (start < rt.endPos))).head?, start < rt.endPos := by
  intro rt hrt
  have hlt : l.findIdx (fun rt => decide (start < rt.endPos)) < l.length := by
    by_contra hge
    rw [List.drop_eq_nil_of_le (not_lt.1 hge)] at hrt
    cases hrt
  rw [List.head?_drop, List.getElem?_eq_getElem hlt, Option.mem_def, Option.some.injEq] at hrt
  rw [← hrt]
  exact of_decide_eq_true (List.findIdx_getElem (w := hlt))

/-- No entry ends after the last one. -/
theorem endPos_le_of_getLast? (hv : Valid l) {last : RangeTombstone P T} (hlast : l.getLast? = some last) :
    ∀ rt ∈ l, rt.endPos ≤ last.endPos := by
  have hl := List.dropLast_append_getLast? last hlast
  rw [← hl] at hv
  obtain ⟨-, hvl, hcross⟩ := valid_append.1 hv
  intro rt hrt
  rw [← hl] at hrt
  rcases List.mem_append.1 hrt with hrt | hrt
  · exact le_trans (hcross rt hrt last List.mem_cons_self) (hvl.startPos_lt last List.mem_cons_self).le
  · rw [List.mem_singleton.1 hrt]

/-! What `it` keeps before a new tombstone that overwrites it. -/

theorem valid_before_append {a s : P} {u : T} {out : List (RangeTombstone P T)} (hv : Valid out)
    (hle : ∀ rt ∈ out, s ≤ rt.startPos) :
    Valid ((if a < s then [⟨a, s, u⟩] else []) ++ out) := by
  split
  · exact valid_cons.2 ⟨‹_›, hle, hv⟩
  · exact hv

theorem startPos_of_mem_before {a s : P} {u : T} {rt : RangeTombstone P T}
    (h : rt ∈ (if a < s then [⟨a, s, u⟩] else [])) : rt.startPos = a := by
  split at h
  · rw [List.mem_singleton.1 h]
  · cases h

/-! ## What a list means -/

section Covering

variable [LinearOrder T]

/-- The largest tombstone of the entries covering each position. -/
def covering (l : List (RangeTombstone P T)) : P → WithBot T :=
  l.foldr (fun rt f => piece rt.startPos rt.endPos (rt.tomb : WithBot T) ⊔ f) ⊥

@[simp] theorem covering_nil : covering ([] : List (RangeTombstone P T)) = ⊥ := rfl

@[simp] theorem covering_cons (rt : RangeTombstone P T) (l : List (RangeTombstone P T)) :
    covering (rt :: l) = piece rt.startPos rt.endPos (rt.tomb : WithBot T) ⊔ covering l := rfl

@[simp] theorem covering_append (l₁ l₂ : List (RangeTombstone P T)) :
    covering (l₁ ++ l₂) = covering l₁ ⊔ covering l₂ := by
  induction l₁ with
  | nil => simp
  | cons rt l₁ ih => rw [List.cons_append, covering_cons, covering_cons, ih, sup_assoc]

variable {tomb : T} {it : RangeTombstone P T} {rest out : List (RangeTombstone P T)} {start stop : P}

/-- No entry starting after a position covers it. -/
theorem covering_eq_bot {p : P} (h : ∀ rt ∈ l, p < rt.startPos) : covering l p = ⊥ := by
  induction l with
  | nil => rfl
  | cons rt l ih =>
    rw [covering_cons, Pi.sup_apply, piece_apply, if_neg (fun hp => absurd hp.1 (not_le.2 (h rt List.mem_cons_self))),
      ih (fun rt' hrt' => h rt' (List.mem_cons_of_mem _ hrt')), bot_sup_eq]

/-- In an ordered list a position is covered by the one entry holding it. -/
theorem covering_eq_tomb (hv : Valid l) {rt : RangeTombstone P T} (hrt : rt ∈ l) {p : P}
    (hp : rt.startPos ≤ p ∧ p < rt.endPos) : covering l p = rt.tomb := by
  induction l with
  | nil => cases hrt
  | cons a l ih =>
    obtain ⟨-, hle, hv'⟩ := valid_cons.1 hv
    rw [covering_cons, Pi.sup_apply, piece_apply]
    rcases List.mem_cons.1 hrt with rfl | hrt
    · rw [if_pos hp, covering_eq_bot fun b hb => lt_of_lt_of_le hp.2 (hle b hb), sup_bot_eq]
    · -- `a` ends before `rt` starts.
      rw [if_neg (fun ha => absurd (lt_of_lt_of_le ha.2 (le_trans (hle rt hrt) hp.1)) (lt_irrefl p)),
        bot_sup_eq, ih hv' hrt]

theorem covering_eq_bot_of_endPos_le {p : P} (h : ∀ rt ∈ l, rt.endPos ≤ p) : covering l p = ⊥ := by
  induction l with
  | nil => rfl
  | cons rt l ih =>
    rw [covering_cons, Pi.sup_apply, piece_apply, if_neg (fun hp => absurd hp.2 (not_lt.2 (h rt List.mem_cons_self))),
      ih (fun rt' hrt' => h rt' (List.mem_cons_of_mem _ hrt')), bot_sup_eq]

/-- Past the entries of a prefix, the list covers what the rest does. -/
theorem covering_append_of_endPos_le {p : P} (h : ∀ rt ∈ l₁, rt.endPos ≤ p) :
    covering (l₁ ++ l₂) p = covering l₂ p := by
  rw [covering_append, Pi.sup_apply, covering_eq_bot_of_endPos_le h, bot_sup_eq]

theorem covering_cons_of_endPos_le {rt : RangeTombstone P T} {p : P} (h : rt.endPos ≤ p) :
    covering (rt :: l) p = covering l p :=
  (covering_append_of_endPos_le (by simpa using h) : covering ([rt] ++ l) p = covering l p)

private theorem sup_ne_of_ne {x y z : WithBot T} (hx : x ≠ z) (hy : y ≠ z) : x ⊔ y ≠ z := by
  rcases le_total x y with h | h
  · rwa [sup_eq_right.2 h]
  · rwa [sup_eq_left.2 h]

/-- At or before where the first entry starts, a tombstone other than its covers nothing. -/
theorem covering_ne_of_le_startPos (hv : Valid (it :: rest)) {p : P} (hp : p ≤ it.startPos) {u : T}
    (hne : p = it.startPos → it.tomb ≠ u) : covering (it :: rest) p ≠ u := by
  rcases hp.lt_or_eq with hp | rfl
  · rw [covering_eq_bot fun rt hrt => lt_of_lt_of_le hp (le_of_valid_cons hv le_rfl |> fun h => by
      rcases List.mem_cons.1 hrt with rfl | hrt
      · exact le_rfl
      · exact le_trans (valid_cons.1 hv).1.le (h rt hrt))]
    exact WithBot.bot_ne_coe
  · rw [covering_eq_tomb hv List.mem_cons_self ⟨le_rfl, (valid_cons.1 hv).1⟩]
    exact fun h => hne rfl (WithBot.coe_injective h)

/-! ## Canonical lists

A list is canonical when no two entries that touch carry the same tombstone: each entry ends where
the list stops covering with its tombstone.  `apply` keeps a list canonical, and a canonical list is
determined by what it covers. -/

def Canonical (l : List (RangeTombstone P T)) : Prop :=
  Valid l ∧ ∀ rt ∈ l, covering l rt.endPos ≠ rt.tomb

instance (l : List (RangeTombstone P T)) : Decidable (Canonical l) :=
  inferInstanceAs (Decidable (Valid l ∧ _))

theorem Canonical.valid (h : Canonical l) : Valid l := h.1

theorem canonical_nil : Canonical ([] : List (RangeTombstone P T)) := ⟨valid_nil, by simp⟩

theorem canonical_cons :
    Canonical (it :: rest) ↔ Valid (it :: rest) ∧ covering rest it.endPos ≠ it.tomb ∧ Canonical rest := by
  have hcov : ∀ p, it.endPos ≤ p → covering (it :: rest) p = covering rest p := fun p hp =>
    covering_cons_of_endPos_le hp
  constructor
  · rintro ⟨hv, hc⟩
    refine ⟨hv, hcov _ le_rfl ▸ hc it List.mem_cons_self, (valid_cons.1 hv).2.2, fun rt hrt => ?_⟩
    rw [← hcov _ ((le_of_valid_cons hv le_rfl rt hrt).trans ((valid_cons.1 hv).2.2.startPos_lt rt hrt).le)]
    exact hc rt (List.mem_cons_of_mem _ hrt)
  · rintro ⟨hv, hit, hrest⟩
    refine ⟨hv, fun rt hrt => ?_⟩
    rcases List.mem_cons.1 hrt with rfl | hrt
    · rwa [hcov _ le_rfl]
    · rw [hcov _ ((le_of_valid_cons hv le_rfl rt hrt).trans (hrest.valid.startPos_lt rt hrt).le)]
      exact hrest.2 rt hrt

theorem canonical_append (hv : Valid (l₁ ++ l₂)) (h₂ : Canonical l₂)
    (h₁ : ∀ a ∈ l₁, covering (l₁ ++ l₂) a.endPos ≠ a.tomb) : Canonical (l₁ ++ l₂) := by
  obtain ⟨-, -, hcross⟩ := valid_append.1 hv
  refine ⟨hv, fun rt hrt => ?_⟩
  rcases List.mem_append.1 hrt with hrt | hrt
  · exact h₁ rt hrt
  · rw [covering_append_of_endPos_le fun a ha => (hcross a ha rt hrt).trans (h₂.valid.startPos_lt rt hrt).le]
    exact h₂.2 rt hrt

theorem Canonical.of_append (h : Canonical (l₁ ++ l₂)) : Canonical l₂ := by
  induction l₁ with
  | nil => exact h
  | cons a l₁ ih => exact ih (canonical_cons.1 h).2.2

/-- Canonical lists that cover alike are equal. -/
theorem Canonical.eq_of_covering_eq (h₁ : Canonical l₁) (h₂ : Canonical l₂) (h : covering l₁ = covering l₂) :
    l₁ = l₂ := by
  induction l₁ generalizing l₂ with
  | nil =>
    cases l₂ with
    | nil => rfl
    | cons b l₂ =>
      -- `b` covers where it starts.
      have hb := congrFun h b.startPos
      rw [covering_eq_tomb h₂.valid List.mem_cons_self ⟨le_rfl, (valid_cons.1 h₂.valid).1⟩] at hb
      exact absurd hb.symm WithBot.coe_ne_bot
  | cons a l₁ ih =>
    cases l₂ with
    | nil =>
      have ha := congrFun h a.startPos
      rw [covering_eq_tomb h₁.valid List.mem_cons_self ⟨le_rfl, (valid_cons.1 h₁.valid).1⟩] at ha
      exact absurd ha WithBot.coe_ne_bot
    | cons b l₂ =>
      obtain ⟨ha, hal, hv₁⟩ := valid_cons.1 h₁.valid
      obtain ⟨hb, hbl, hv₂⟩ := valid_cons.1 h₂.valid
      have hcov₁ : ∀ p, a.startPos ≤ p → p < a.endPos → covering (a :: l₁) p = a.tomb := fun p h₁' h₂' =>
        covering_eq_tomb h₁.valid List.mem_cons_self ⟨h₁', h₂'⟩
      have hcov₂ : ∀ p, b.startPos ≤ p → p < b.endPos → covering (b :: l₂) p = b.tomb := fun p h₁' h₂' =>
        covering_eq_tomb h₂.valid List.mem_cons_self ⟨h₁', h₂'⟩
      -- Neither list covers anything before its first entry starts.
      have hbot₁ : ∀ p, p < a.startPos → covering (a :: l₁) p = ⊥ := fun p hp =>
        covering_eq_bot fun rt hrt => by
          rcases List.mem_cons.1 hrt with rfl | hrt
          · exact hp
          · exact lt_of_lt_of_le hp (le_of_valid_cons h₁.valid ha.le rt hrt)
      have hbot₂ : ∀ p, p < b.startPos → covering (b :: l₂) p = ⊥ := fun p hp =>
        covering_eq_bot fun rt hrt => by
          rcases List.mem_cons.1 hrt with rfl | hrt
          · exact hp
          · exact lt_of_lt_of_le hp (le_of_valid_cons h₂.valid hb.le rt hrt)
      have hstart : a.startPos = b.startPos := by
        rcases lt_trichotomy a.startPos b.startPos with hlt | heq | hgt
        · have hp := congrFun h a.startPos
          rw [hcov₁ _ le_rfl ha, hbot₂ _ hlt] at hp
          exact absurd hp WithBot.coe_ne_bot
        · exact heq
        · have hp := congrFun h b.startPos
          rw [hcov₂ _ le_rfl hb, hbot₁ _ hgt] at hp
          exact absurd hp.symm WithBot.coe_ne_bot
      have htomb : (a.tomb : WithBot T) = b.tomb := by
        rw [← hcov₁ _ le_rfl ha, h, hcov₂ _ hstart.symm.le (hstart ▸ hb)]
      -- An entry ends where the list stops covering with its tombstone.
      have hend : a.endPos = b.endPos := by
        rcases lt_trichotomy a.endPos b.endPos with hlt | heq | hgt
        · have hp := congrFun h a.endPos
          rw [hcov₂ _ (hstart ▸ ha.le) hlt, ← htomb] at hp
          exact absurd hp (h₁.2 a List.mem_cons_self)
        · exact heq
        · have hp := congrFun h b.endPos
          rw [hcov₁ _ (hstart.symm ▸ hb.le) hgt, htomb] at hp
          exact absurd hp.symm (h₂.2 b List.mem_cons_self)
      have hab : a = b := by
        have ht := WithBot.coe_injective htomb
        cases a
        cases b
        simp only at hstart hend ht
        rw [hstart, hend, ht]
      -- What is left covers alike: nothing before the first entries end, as the lists beyond.
      have hrest : covering l₁ = covering l₂ := by
        funext p
        by_cases hp : a.endPos ≤ p
        · have h₁' : covering (a :: l₁) p = covering l₁ p := covering_cons_of_endPos_le hp
          have h₂' : covering (b :: l₂) p = covering l₂ p := covering_cons_of_endPos_le (hend ▸ hp)
          rw [← h₁', ← h₂', h]
        · rw [covering_eq_bot fun rt hrt => lt_of_lt_of_le (not_le.1 hp) (hal rt hrt),
            covering_eq_bot fun rt hrt => lt_of_lt_of_le (not_le.1 hp) (hend ▸ hbl rt hrt)]
      rw [hab, ih (canonical_cons.1 h₁).2.2 (canonical_cons.1 h₂).2.2 hrest]

/-! ## Filtering

Dropping entries, as compaction drops the range tombstones it may purge, keeps a list ordered and canonical, and
stops covering exactly where a dropped entry covered. -/

omit [LinearOrder T] in
theorem Valid.filter (hv : Valid l) (f : RangeTombstone P T → Bool) : Valid (l.filter f) :=
  valid_of_pairwise (fun rt hrt => hv.startPos_lt rt (List.mem_of_mem_filter hrt)) (hv.pairwise.filter f)

/-- An entry holds each position a list covers, with the tombstone the list covers it with. -/
theorem exists_of_covering_eq_coe {p : P} {u : T} (h : covering l p = u) :
    ∃ rt ∈ l, (rt.startPos ≤ p ∧ p < rt.endPos) ∧ rt.tomb = u := by
  induction l with
  | nil => exact absurd h WithBot.bot_ne_coe
  | cons rt l ih =>
    rw [covering_cons, Pi.sup_apply, piece_apply] at h
    rcases le_total (if rt.startPos ≤ p ∧ p < rt.endPos then (rt.tomb : WithBot T) else ⊥) (covering l p)
      with hle | hle
    · rw [sup_eq_right.2 hle] at h
      obtain ⟨rt', hrt', hp, ht⟩ := ih h
      exact ⟨rt', List.mem_cons_of_mem _ hrt', hp, ht⟩
    · -- The first entry gives the value.
      rw [sup_eq_left.2 hle] at h
      split_ifs at h with hp
      · exact ⟨rt, List.mem_cons_self, hp, WithBot.coe_injective h⟩
      · exact absurd h WithBot.bot_ne_coe

/-- What a filtered ordered list covers a position with, the whole list covers it with. -/
theorem covering_eq_of_covering_filter_eq (hv : Valid l) (f : RangeTombstone P T → Bool) {p : P} {u : T}
    (h : covering (l.filter f) p = u) : covering l p = u := by
  obtain ⟨rt, hrt, hp, rfl⟩ := exists_of_covering_eq_coe h
  exact covering_eq_tomb hv (List.mem_of_mem_filter hrt) hp

theorem covering_filter_eq_bot (hv : Valid l) (f : RangeTombstone P T → Bool) {p : P} (h : covering l p = ⊥) :
    covering (l.filter f) p = ⊥ := by
  cases hf : covering (l.filter f) p with
  | bot => rfl
  | coe u => rw [covering_eq_of_covering_filter_eq hv f hf] at h; exact absurd h WithBot.coe_ne_bot

/-- Filtering by the tombstones keeps a covered position covered when its tombstone passes. -/
theorem covering_filter_eq_coe (hv : Valid l) (g : T → Bool) {p : P} {u : T} (h : covering l p = u) :
    covering (l.filter fun rt => g rt.tomb) p = if g u then (u : WithBot T) else ⊥ := by
  obtain ⟨rt, hrt, hp, rfl⟩ := exists_of_covering_eq_coe h
  split_ifs with hg
  · exact covering_eq_tomb (hv.filter _) (List.mem_filter.2 ⟨hrt, hg⟩) hp
  · -- Another entry holding `p` would carry the same tombstone, which does not pass.
    cases hf : covering (l.filter fun rt => g rt.tomb) p with
    | bot => rfl
    | coe u' =>
      obtain ⟨rt', hrt', hp', rfl⟩ := exists_of_covering_eq_coe hf
      have hu : (rt'.tomb : WithBot T) = rt.tomb := by
        rw [← covering_eq_tomb hv (List.mem_of_mem_filter hrt') hp', h]
      have hg' := (List.mem_filter.1 hrt').2
      rw [WithBot.coe_injective hu] at hg'
      exact absurd hg' hg

theorem Canonical.filter (h : Canonical l) (f : RangeTombstone P T → Bool) : Canonical (l.filter f) :=
  ⟨h.valid.filter f, fun rt hrt heq =>
    h.2 rt (List.mem_of_mem_filter hrt) (covering_eq_of_covering_filter_eq h.valid f heq)⟩

/-! ## The loop of insert_from -/

/-- What the loop makes of the entries `rest` when it adds `tomb` over `[start, stop)`: an ordered list
covering each position with the larger of the two, none of whose entries starts before both `start`
and the entries of `rest`. -/
structure Inserts (tomb : T) (rest out : List (RangeTombstone P T)) (start stop : P) : Prop where
  valid : Valid out
  covering_eq : covering out = covering rest ⊔ piece start stop (tomb : WithBot T)
  le_startPos : ∀ x, x ≤ start → (∀ rt ∈ rest, x ≤ rt.startPos) → ∀ rt ∈ out, x ≤ rt.startPos
  canonical : Canonical rest → Canonical out

theorem inserts_nil (hs : start < stop) : Inserts tomb [] [⟨start, stop, tomb⟩] start stop := by
  have hv : Valid [(⟨start, stop, tomb⟩ : RangeTombstone P T)] := valid_cons.2 ⟨hs, by simp, valid_nil⟩
  refine ⟨hv, by simp, fun x hx _ rt hrt => ?_, fun _ => canonical_cons.2 ⟨hv, WithBot.bot_ne_coe, canonical_nil⟩⟩
  rw [List.mem_singleton.1 hrt]
  exact hx

/-- The new tombstone ends before `it` starts: it goes in before `it`. -/
theorem inserts_before (hv : Valid (it :: rest)) (hs : start < stop) (hstop : stop ≤ it.startPos)
    (hcov : covering (it :: rest) stop ≠ tomb) :
    Inserts tomb (it :: rest) (⟨start, stop, tomb⟩ :: it :: rest) start stop := by
  have hv' : Valid (⟨start, stop, tomb⟩ :: it :: rest) := by
    refine valid_cons.2 ⟨hs, fun b hb => ?_, hv⟩
    rcases List.mem_cons.1 hb with rfl | hb
    · exact hstop
    · exact le_of_valid_cons hv (le_trans hstop (valid_cons.1 hv).1.le) b hb
  refine ⟨hv', by rw [covering_cons, sup_comm], fun x hx hrest rt hrt => ?_,
    fun hc => canonical_cons.2 ⟨hv', hcov, hc⟩⟩
  rcases List.mem_cons.1 hrt with rfl | hrt
  · exact hx
  · exact hrest rt hrt

/-- The induction hypothesis of the loop: from any start before any end and before the first entry of
`rest` ends. -/
def LoopHyp (tomb : T) (rest : List (RangeTombstone P T)) : Prop :=
  ∀ start stop, start < stop → (∀ rt ∈ rest.head?, start < rt.endPos) →
    Inserts tomb rest (insertLoop tomb rest start stop) start stop

/-- A tombstone equal to it's: the two merge into one entry over their union. -/
theorem inserts_merge (hv : Valid (it :: rest)) (hs : start < stop) (hsit : start < it.endPos)
    (hstop : it.startPos ≤ stop) (heq : it.tomb = tomb) (ih : LoopHyp tomb rest) :
    Inserts tomb (it :: rest)
      (insertLoop tomb rest (if it.startPos < start then it.startPos else start)
        (if stop < it.endPos then it.endPos else stop)) start stop := by
  have hstart : (if it.startPos < start then it.startPos else start) = min it.startPos start := by
    split
    · exact (min_eq_left (le_of_lt ‹_›)).symm
    · exact (min_eq_right (not_lt.1 ‹_›)).symm
  have hstop' : (if stop < it.endPos then it.endPos else stop) = max it.endPos stop := by
    split
    · exact (max_eq_left (le_of_lt ‹_›)).symm
    · exact (max_eq_right (not_lt.1 ‹_›)).symm
  rw [hstart, hstop']
  have h := ih (min it.startPos start) (max it.endPos stop)
    (lt_of_le_of_lt (min_le_right _ _) (lt_of_lt_of_le hs (le_max_right _ _)))
    (head_of_valid_cons hv (le_trans (min_le_right _ _) hsit.le))
  refine ⟨h.valid, ?_, fun x hx hrest rt hrt => ?_, fun hc => h.canonical (canonical_cons.1 hc).2.2⟩
  · rw [h.covering_eq, covering_cons, heq, piece_union hstop hsit.le]
    ac_rfl
  · exact h.le_startPos x (le_min (hrest it List.mem_cons_self) hx)
      (fun rt' hrt' => hrest rt' (List.mem_cons_of_mem _ hrt')) rt hrt

theorem covering_before (a s : P) (u : T) :
    covering (if a < s then [⟨a, s, u⟩] else []) = piece a s (u : WithBot T) := by
  split
  · simp
  · rw [piece_eq_bot (not_lt.1 ‹_›)]
    rfl

/-- What `it` keeps before the new tombstone ends where the list goes on with another tombstone. -/
theorem canonical_before_append {a s : P} {u : T} {out : List (RangeTombstone P T)}
    (hv : Valid ((if a < s then [⟨a, s, u⟩] else []) ++ out)) (hc : Canonical out) (hne : covering out s ≠ u) :
    Canonical ((if a < s then [⟨a, s, u⟩] else []) ++ out) := by
  by_cases h : a < s
  · rw [if_pos h, List.singleton_append] at hv ⊢
    exact canonical_cons.2 ⟨hv, hne, hc⟩
  · rw [if_neg h, List.nil_append]
    exact hc

/-- A tombstone larger than it's: `it` keeps what lies before and after the new one. -/
theorem inserts_overwrite (hv : Valid (it :: rest)) (hs : start < stop) (hsit : start < it.endPos)
    (hstop : it.startPos ≤ stop) (hgt : it.tomb < tomb) (ih : LoopHyp tomb rest) :
    Inserts tomb (it :: rest)
      (if stop < it.endPos then
        (if it.startPos < start then [⟨it.startPos, start, it.tomb⟩] else []) ++
          ⟨start, stop, tomb⟩ :: ⟨stop, it.endPos, it.tomb⟩ :: rest
      else (if it.startPos < start then [⟨it.startPos, start, it.tomb⟩] else []) ++
        insertLoop tomb rest start stop) start stop := by
  obtain ⟨hit, hle, hv'⟩ := valid_cons.1 hv
  have hover := piece_overlay (a := it.startPos) (b := it.endPos) (c := start) (d := stop)
    (WithBot.coe_le_coe.2 hgt.le)
  rw [min_eq_right hsit.le, max_eq_right hstop] at hover
  have hregroup : piece it.startPos it.endPos (it.tomb : WithBot T) ⊔ covering rest ⊔
      piece start stop (tomb : WithBot T) =
      piece it.startPos it.endPos (it.tomb : WithBot T) ⊔ piece start stop (tomb : WithBot T) ⊔
        covering rest := by
    ac_rfl
  have hbound : ∀ x, x ≤ start → (∀ rt ∈ it :: rest, x ≤ rt.startPos) →
      ∀ rt ∈ (if it.startPos < start then ([⟨it.startPos, start, it.tomb⟩] : List (RangeTombstone P T))
        else []), x ≤ rt.startPos :=
    fun x _ hrest rt hrt => startPos_of_mem_before hrt ▸ hrest it List.mem_cons_self
  split
  · -- The new tombstone ends inside `it`: `it` goes on after it.
    rename_i hend
    have hafter : Valid (⟨start, stop, tomb⟩ :: ⟨stop, it.endPos, it.tomb⟩ :: rest) := by
      refine valid_cons.2 ⟨hs, fun b hb => ?_, valid_cons.2 ⟨hend, hle, hv'⟩⟩
      rcases List.mem_cons.1 hb with rfl | hb
      · exact le_rfl
      · exact le_of_valid_cons hv hend.le b hb
    have hvout := valid_before_append (a := it.startPos) (u := it.tomb) hafter fun rt hrt => by
      simp only [List.mem_cons] at hrt
      rcases hrt with rfl | rfl | hrt
      · exact le_rfl
      · exact hs.le
      · exact le_of_valid_cons hv hsit.le rt hrt
    refine ⟨hvout, ?_, fun x hx hrest rt hrt => ?_, fun hc => ?_⟩
    · rw [covering_append, covering_before, covering_cons, covering_cons, covering_cons]
      dsimp only
      rw [hregroup, hover]
      ac_rfl
    · rcases List.mem_append.1 hrt with hrt | hrt
      · exact hbound x hx hrest rt hrt
      · simp only [List.mem_cons] at hrt
        rcases hrt with rfl | rfl | hrt
        · exact hx
        · exact le_trans hx hs.le
        · exact hrest rt (List.mem_cons_of_mem _ hrt)
    · -- What is left of `it` after the new tombstone ends where `it` did.
      obtain ⟨-, hcit, hcrest⟩ := canonical_cons.1 hc
      have hY : Canonical (⟨stop, it.endPos, it.tomb⟩ :: rest) :=
        canonical_cons.2 ⟨valid_cons.2 ⟨hend, hle, hv'⟩, hcit, hcrest⟩
      have hX := canonical_cons.2 ⟨hafter, covering_ne_of_le_startPos hY.valid le_rfl fun _ => hgt.ne, hY⟩
      exact canonical_before_append hvout hX (covering_ne_of_le_startPos hafter le_rfl fun _ => hgt.ne')
  · -- The new tombstone covers the rest of `it`, which goes.
    rename_i hend
    have h := ih start stop hs (head_of_valid_cons hv hsit.le)
    rw [piece_eq_bot (not_lt.1 hend), sup_bot_eq] at hover
    have hvout := valid_before_append (a := it.startPos) (u := it.tomb) h.valid
      (h.le_startPos start le_rfl (le_of_valid_cons hv hsit.le))
    refine ⟨hvout, ?_, fun x hx hrest rt hrt => ?_, fun hc => ?_⟩
    · rw [covering_append, covering_before, h.covering_eq, covering_cons, hregroup, hover]
      ac_rfl
    · rcases List.mem_append.1 hrt with hrt | hrt
      · exact hbound x hx hrest rt hrt
      · exact h.le_startPos x hx (fun rt' hrt' => hrest rt' (List.mem_cons_of_mem _ hrt')) rt hrt
    · -- The new tombstone, larger than it's, covers where `it` is cut.
      refine canonical_before_append hvout (h.canonical (canonical_cons.1 hc).2.2) ?_
      rw [h.covering_eq, Pi.sup_apply, piece_apply, if_pos ⟨le_rfl, hs⟩]
      exact ne_of_gt (lt_of_lt_of_le (WithBot.coe_lt_coe.2 hgt) le_sup_right)

/-- What follows `it` when `it` wins: `it` itself, then the new tombstone from where `it` ends. -/
theorem inserts_after (hv : Valid (it :: rest)) (ih : LoopHyp tomb rest) :
    Valid (if it.endPos < stop then it :: insertLoop tomb rest it.endPos stop else it :: rest) ∧
      covering (if it.endPos < stop then it :: insertLoop tomb rest it.endPos stop else it :: rest) =
        piece it.startPos it.endPos (it.tomb : WithBot T) ⊔ covering rest ⊔
          piece it.endPos stop (tomb : WithBot T) ∧
      (∀ rt ∈ (if it.endPos < stop then it :: insertLoop tomb rest it.endPos stop else it :: rest),
        it.startPos ≤ rt.startPos) ∧
      (Canonical (it :: rest) → tomb < it.tomb →
        Canonical (if it.endPos < stop then it :: insertLoop tomb rest it.endPos stop else it :: rest)) := by
  obtain ⟨hit, hle, hv'⟩ := valid_cons.1 hv
  split
  · rename_i hend
    have h := ih it.endPos stop hend (head_of_valid_cons hv le_rfl)
    have hbound := h.le_startPos it.endPos le_rfl (le_of_valid_cons hv le_rfl)
    refine ⟨valid_cons.2 ⟨hit, hbound, h.valid⟩, by rw [covering_cons, h.covering_eq, sup_assoc],
      fun rt hrt => ?_, fun hc hlt => ?_⟩
    · rcases List.mem_cons.1 hrt with rfl | hrt
      · exact le_rfl
      · exact le_trans hit.le (hbound rt hrt)
    · -- Where `it` ends the list goes on with what covered there, or with the smaller new tombstone.
      obtain ⟨-, hcit, hcrest⟩ := canonical_cons.1 hc
      refine canonical_cons.2 ⟨valid_cons.2 ⟨hit, hbound, h.valid⟩, ?_, h.canonical hcrest⟩
      rw [h.covering_eq, Pi.sup_apply, piece_apply, if_pos ⟨le_rfl, hend⟩]
      exact sup_ne_of_ne hcit fun h' => hlt.ne (WithBot.coe_injective h')
  · rename_i hend
    refine ⟨hv, by rw [piece_eq_bot (not_lt.1 hend), sup_bot_eq, covering_cons], fun rt hrt => ?_,
      fun hc _ => hc⟩
    rcases List.mem_cons.1 hrt with rfl | hrt
    · exact le_rfl
    · exact le_trans hit.le (hle rt hrt)

/-- A tombstone smaller than it's: the new one keeps what lies before and after `it`. -/
theorem inserts_under (hv : Valid (it :: rest)) (hs : start < stop) (hsit : start < it.endPos)
    (hstop : it.startPos ≤ stop) (hlt : tomb < it.tomb) (ih : LoopHyp tomb rest) :
    Inserts tomb (it :: rest)
      (if start < it.startPos then
        if it.startPos < stop then
          ⟨start, it.startPos, tomb⟩ ::
            (if it.endPos < stop then it :: insertLoop tomb rest it.endPos stop else it :: rest)
        else ⟨start, stop, tomb⟩ :: it :: rest
      else if it.endPos < stop then it :: insertLoop tomb rest it.endPos stop else it :: rest)
      start stop := by
  obtain ⟨hva, hca, hba, hcan⟩ := @inserts_after _ _ _ _ _ _ _ stop hv ih
  have hover := piece_overlay (a := start) (b := stop) (c := it.startPos) (d := it.endPos)
    (WithBot.coe_le_coe.2 hlt.le)
  rw [min_eq_right hstop, max_eq_right hsit.le] at hover
  have hregroup : piece it.startPos it.endPos (it.tomb : WithBot T) ⊔ covering rest ⊔
      piece start stop (tomb : WithBot T) =
      piece start stop (tomb : WithBot T) ⊔ piece it.startPos it.endPos (it.tomb : WithBot T) ⊔
        covering rest := by
    ac_rfl
  split
  · rename_i hbefore
    split
    · -- The new tombstone starts before `it`: its part before `it` goes first.
      rename_i hin
      have hvout : Valid ((⟨start, it.startPos, tomb⟩ : RangeTombstone P T) ::
          if it.endPos < stop then it :: insertLoop tomb rest it.endPos stop else it :: rest) :=
        valid_cons.2 ⟨hbefore, hba, hva⟩
      refine ⟨hvout, ?_, fun x hx _ rt hrt => ?_, fun hc => ?_⟩
      · rw [covering_cons, hca, covering_cons, hregroup, hover]
        dsimp only
        ac_rfl
      · rcases List.mem_cons.1 hrt with rfl | hrt
        · exact hx
        · exact le_trans (le_trans hx hbefore.le) (hba rt hrt)
      · -- `it` comes next, with its larger tombstone.
        have hit : it ∈ (if it.endPos < stop then it :: insertLoop tomb rest it.endPos stop else it :: rest) := by
          split <;> exact List.mem_cons_self
        refine canonical_cons.2 ⟨hvout, ?_, hcan hc hlt⟩
        rw [covering_eq_tomb hva hit ⟨le_rfl, (valid_cons.1 hv).1⟩]
        exact fun h => hlt.ne' (WithBot.coe_injective h)
    · exact inserts_before hv hs (not_lt.1 ‹_›) (covering_ne_of_le_startPos hv (not_lt.1 ‹_›) fun _ => hlt.ne')
  · -- The new tombstone starts inside `it`: only what lies after `it` is left of it.
    rename_i hbefore
    refine ⟨hva, ?_, fun x _ hrest rt hrt => le_trans (hrest it List.mem_cons_self) (hba rt hrt),
      fun hc => hcan hc hlt⟩
    rw [hca, covering_cons, hregroup, hover, piece_eq_bot (not_lt.1 hbefore), bot_sup_eq]
    ac_rfl

/-- The loop of insert_from, over ordered entries from the first one ending after `start`. -/
theorem insertLoop_inserts (tomb : T) (rest : List (RangeTombstone P T)) (hv : Valid rest) :
    LoopHyp tomb rest := by
  induction rest with
  | nil => exact fun start stop hs _ => inserts_nil hs
  | cons it rest ih =>
    intro start stop hs hhead
    have ih := ih (valid_cons.1 hv).2.2
    have hsit : start < it.endPos := hhead it rfl
    rw [insertLoop.eq_2, if_neg (not_le.2 hs)]
    by_cases hbefore : stop < it.startPos
    · rw [if_pos hbefore, if_neg (fun h => absurd h.2 (ne_of_lt hbefore))]
      exact inserts_before hv hs hbefore.le
        (covering_ne_of_le_startPos hv hbefore.le fun h => absurd h (ne_of_lt hbefore))
    · rw [if_neg hbefore]
      have hstop := not_lt.1 hbefore
      -- The three ways the new tombstone compares with it's.
      rcases lt_trichotomy tomb it.tomb with hlt | heq | hgt
      · rw [compare_lt_iff_lt.2 hlt]
        exact inserts_under hv hs hsit hstop hlt ih
      · rw [compare_eq_iff_eq.2 heq]
        exact inserts_merge hv hs hsit hstop heq.symm ih
      · rw [compare_gt_iff_gt.2 hgt]
        exact inserts_overwrite hv hs hsit hstop hgt ih

/-! ## insert_from and apply -/

variable {done : List (RangeTombstone P T)}

/-- The loop after entries that end at or before its start and before every entry it walks. -/
theorem append_insertLoop (tomb : T) (hvd : Valid done) (hvr : Valid rest) (hs : start < stop)
    (hdone : ∀ rt ∈ done, rt.endPos ≤ start) (hcross : ∀ a ∈ done, ∀ b ∈ rest, a.endPos ≤ b.startPos)
    (hhead : ∀ rt ∈ rest.head?, start < rt.endPos) :
    Valid (done ++ insertLoop tomb rest start stop) ∧
      covering (done ++ insertLoop tomb rest start stop) =
        covering done ⊔ covering rest ⊔ piece start stop (tomb : WithBot T) ∧
      (Canonical rest → Canonical (insertLoop tomb rest start stop)) := by
  have h := insertLoop_inserts tomb rest hvr start stop hs hhead
  refine ⟨valid_append.2 ⟨hvd, h.valid, fun a ha b hb => ?_⟩, by rw [covering_append, h.covering_eq, sup_assoc],
    h.canonical⟩
  exact h.le_startPos a.endPos (hdone a ha) (hcross a ha) b hb

/-- The entries kept before the loop end where the new list covers with another tombstone: before
the new tombstone starts, or where it starts with another tombstone. -/
private theorem canonical_prefix {pre out : List (RangeTombstone P T)} (hs : start < stop)
    (hv : Valid (pre ++ out)) (hout : Canonical out) (hc : Canonical (done ++ rest))
    (hdone : ∀ rt ∈ done, rt.endPos ≤ start)
    (hcov : covering (pre ++ out) = covering (done ++ rest) ⊔ piece start stop (tomb : WithBot T))
    (hpre : ∀ a ∈ pre, a ∈ done ∧ (a.endPos = start → a.tomb ≠ tomb)) : Canonical (pre ++ out) := by
  refine canonical_append hv hout fun a ha => ?_
  obtain ⟨had, hne⟩ := hpre a ha
  have hold := hc.2 a (List.mem_append_left _ had)
  rw [hcov, Pi.sup_apply, piece_apply]
  rcases (hdone a had).lt_or_eq with hlt | heq
  · rwa [if_neg (fun hp => absurd hp.1 (not_le.2 hlt)), sup_bot_eq]
  · rw [if_pos ⟨heq.ge, heq ▸ hs⟩]
    exact sup_ne_of_ne hold fun h' => hne heq (WithBot.coe_injective h').symm

/-- insert_from, from an entry `it` with everything before it ending at or before `start` and `it`
ending after it. -/
theorem insertFrom_spec (hv : Valid (done ++ rest)) (hs : start < stop)
    (hdone : ∀ rt ∈ done, rt.endPos ≤ start) (hhead : ∀ rt ∈ rest.head?, start < rt.endPos) :
    Valid (insertFrom done rest start stop tomb) ∧
      covering (insertFrom done rest start stop tomb) =
        covering (done ++ rest) ⊔ piece start stop (tomb : WithBot T) ∧
      (Canonical (done ++ rest) → Canonical (insertFrom done rest start stop tomb)) := by
  obtain ⟨hvd, hvr, hcross⟩ := valid_append.1 hv
  have hdone₀ := hdone
  unfold insertFrom
  split
  · rename_i prev hprev
    have hdone' := List.dropLast_append_getLast? prev hprev
    split
    · -- The entry before ends where the new one starts, with the same tombstone: they merge.
      rename_i hmerge
      obtain ⟨htomb, hend⟩ := hmerge
      rw [← hdone'] at hvd hdone hcross
      obtain ⟨hvd', hvp, hcross'⟩ := valid_append.1 hvd
      have hprevlt : prev.startPos < start := hend ▸ hvp.startPos_lt prev List.mem_cons_self
      have h := append_insertLoop tomb hvd' hvr (lt_trans hprevlt hs)
        (fun a ha => hcross' a ha prev List.mem_cons_self)
        (fun a ha => hcross a (List.mem_append_left _ ha))
        (fun rt hrt => lt_trans hprevlt (hhead rt hrt))
      have hcov : covering done =
          covering done.dropLast ⊔ piece prev.startPos prev.endPos (prev.tomb : WithBot T) := by
        conv_lhs => rw [← hdone']
        rw [covering_append, covering_cons, covering_nil, sup_bot_eq]
      have hcov' : covering (done.dropLast ++ insertLoop tomb rest prev.startPos stop) =
          covering (done ++ rest) ⊔ piece start stop (tomb : WithBot T) := by
        rw [h.2.1, covering_append, hcov, htomb, hend, piece_split hprevlt.le hs.le]
        ac_rfl
      refine ⟨h.1, hcov', fun hc => canonical_prefix hs h.1 (h.2.2 hc.of_append) hc hdone₀ hcov' fun a ha => ?_⟩
      -- What stays before ends at or before the merged entry starts.
      refine ⟨List.mem_of_mem_dropLast ha, fun ha' => absurd ha' (ne_of_lt ?_)⟩
      exact lt_of_le_of_lt (hcross' a ha prev List.mem_cons_self) hprevlt
    · rename_i hmerge
      have h := append_insertLoop tomb hvd hvr hs hdone hcross hhead
      have hcov' : covering (done ++ insertLoop tomb rest start stop) =
          covering (done ++ rest) ⊔ piece start stop (tomb : WithBot T) := by
        rw [h.2.1, covering_append]
      refine ⟨h.1, hcov', fun hc => canonical_prefix hs h.1 (h.2.2 hc.of_append) hc hdone hcov' fun a ha => ⟨ha, ?_⟩⟩
      -- Only the last entry can end where the new one starts, and it has another tombstone.
      intro haend
      rw [← hdone'] at ha hvd
      rcases List.mem_append.1 ha with ha | ha
      · have hlt := lt_of_le_of_lt ((valid_append.1 hvd).2.2 a ha prev List.mem_cons_self)
          ((valid_append.1 hvd).2.1.startPos_lt prev List.mem_cons_self)
        exact absurd (haend ▸ hlt) (not_lt.2 (hdone prev (List.mem_of_getLast? hprev)))
      · rw [List.mem_singleton.1 ha] at haend ⊢
        exact fun ht => hmerge ⟨ht, haend⟩
  · rename_i hnone
    have h := append_insertLoop tomb hvd hvr hs hdone hcross hhead
    have hcov' : covering (done ++ insertLoop tomb rest start stop) =
        covering (done ++ rest) ⊔ piece start stop (tomb : WithBot T) := by
      rw [h.2.1, covering_append]
    refine ⟨h.1, hcov', fun hc => canonical_prefix hs h.1 (h.2.2 hc.of_append) hc hdone hcov' fun a ha => ?_⟩
    rw [List.getLast?_eq_none_iff.1 hnone] at ha
    cases ha

/-- range_tombstone_list::apply keeps the list ordered and overlays the new tombstone on it. -/
theorem apply_spec (hv : Valid l) (start stop : P) (tomb : T) :
    Valid (apply l start stop tomb) ∧
      covering (apply l start stop tomb) = covering l ⊔ piece start stop (tomb : WithBot T) ∧
      (Canonical l → Canonical (apply l start stop tomb)) := by
  unfold apply
  by_cases hs : start < stop
  · rw [if_neg (not_not.2 hs)]
    split
    · rename_i last hlast
      -- upper_bound finds the first entry ending after `start`, or the end when there is none.
      have hi : (if start < last.endPos then l.findIdx (fun rt => decide (start < rt.endPos)) else l.length) =
          l.findIdx (fun rt => decide (start < rt.endPos)) := by
        split
        · rfl
        · rename_i hlast'
          refine (List.findIdx_eq_length.2 fun rt hrt => decide_eq_false fun h => hlast' ?_).symm
          exact lt_of_lt_of_le h (endPos_le_of_getLast? hv hlast rt hrt)
      dsimp only
      rw [hi]
      have h := @insertFrom_spec _ _ _ _ tomb _ _ _ _ (by rwa [List.take_append_drop]) hs
        (fun rt hrt => endPos_le_of_mem_take hrt) head_drop_findIdx
      rwa [List.take_append_drop] at h
    · rename_i hnil
      rw [List.getLast?_eq_none_iff.1 hnil]
      have hv' : Valid [(⟨start, stop, tomb⟩ : RangeTombstone P T)] := valid_cons.2 ⟨hs, by simp, valid_nil⟩
      exact ⟨hv', by simp, fun _ => canonical_cons.2 ⟨hv', WithBot.bot_ne_coe, canonical_nil⟩⟩
  · rw [if_pos hs, piece_eq_bot (not_lt.1 hs), sup_bot_eq]
    exact ⟨hv, rfl, id⟩

example : apply (P := Nat) [⟨0, 10, 3⟩, ⟨12, 20, 7⟩] 5 15 (5 : Nat) =
    [⟨0, 5, 3⟩, ⟨5, 12, 5⟩, ⟨12, 20, 7⟩] := by
  decide

/-- search_tombstone_covering finds the tombstone covering the key. -/
theorem searchTombstoneCovering_eq (hv : Valid l) (key : P) : searchTombstoneCovering l key = covering l key := by
  induction l with
  | nil => rfl
  | cons rt l ih =>
    obtain ⟨-, hle, hv'⟩ := valid_cons.1 hv
    rw [covering_cons, Pi.sup_apply, piece_apply]
    by_cases hk : key < rt.endPos
    · -- The first entry ending after the key holds it, unless it starts after the key.
      have hsearch : searchTombstoneCovering (rt :: l) key =
          if key < rt.startPos then ⊥ else (rt.tomb : WithBot T) := by
        simp [searchTombstoneCovering, hk]
      rw [hsearch, covering_eq_bot fun b hb => lt_of_lt_of_le hk (hle b hb), sup_bot_eq]
      by_cases hks : key < rt.startPos
      · rw [if_pos hks, if_neg (fun h => absurd h.1 (not_le.2 hks))]
      · rw [if_neg hks, if_pos ⟨not_lt.1 hks, hk⟩]
    · have hsearch : searchTombstoneCovering (rt :: l) key = searchTombstoneCovering l key := by
        simp [searchTombstoneCovering, hk]
      rw [hsearch, if_neg (fun h => hk h.2), bot_sup_eq, ih hv']

/-- Applying a list keeps the list ordered and canonical, and covers each position with the larger of
what the two lists cover there. -/
theorem applyMonotonically_spec (hv : Valid l) (src : List (RangeTombstone P T)) :
    Valid (applyMonotonically l src) ∧ covering (applyMonotonically l src) = covering l ⊔ covering src ∧
      (Canonical l → Canonical (applyMonotonically l src)) := by
  induction src generalizing l with
  | nil => exact ⟨hv, by simp [applyMonotonically], id⟩
  | cons rt src ih =>
    obtain ⟨hv', hcov, hcan⟩ := apply_spec hv rt.startPos rt.endPos rt.tomb
    obtain ⟨hv'', hcov', hcan'⟩ := ih hv'
    refine ⟨hv'', ?_, fun hc => hcan' (hcan hc)⟩
    rw [applyMonotonically, List.foldl_cons, ← applyMonotonically, hcov', hcov, covering_cons, sup_assoc]

theorem applyMonotonically_comm (h₁ : Canonical l₁) (h₂ : Canonical l₂) :
    applyMonotonically l₁ l₂ = applyMonotonically l₂ l₁ := by
  obtain ⟨-, hcov₁, hcan₁⟩ := applyMonotonically_spec h₁.valid l₂
  obtain ⟨-, hcov₂, hcan₂⟩ := applyMonotonically_spec h₂.valid l₁
  exact (hcan₁ h₁).eq_of_covering_eq (hcan₂ h₂) (by rw [hcov₁, hcov₂, sup_comm])

theorem applyMonotonically_assoc (h₁ : Canonical l₁) (h₂ : Canonical l₂) (l₃ : List (RangeTombstone P T)) :
    applyMonotonically (applyMonotonically l₁ l₂) l₃ = applyMonotonically l₁ (applyMonotonically l₂ l₃) := by
  obtain ⟨hv₁₂, hcov₁₂, hcan₁₂⟩ := applyMonotonically_spec h₁.valid l₂
  obtain ⟨-, hcov, hcan⟩ := applyMonotonically_spec hv₁₂ l₃
  obtain ⟨-, hcov₂₃, -⟩ := applyMonotonically_spec h₂.valid l₃
  obtain ⟨-, hcov', hcan'⟩ := applyMonotonically_spec h₁.valid (applyMonotonically l₂ l₃)
  exact (hcan (hcan₁₂ h₁)).eq_of_covering_eq (hcan' h₁) (by rw [hcov, hcov₁₂, hcov', hcov₂₃, sup_assoc])

theorem applyMonotonically_self (h : Canonical l) : applyMonotonically l l = l := by
  obtain ⟨-, hcov, hcan⟩ := applyMonotonically_spec h.valid l
  exact (hcan h).eq_of_covering_eq h (by rw [hcov, sup_idem])

/-- Applying a range tombstone to an ordered list gives an ordered list covering every position with
the larger of what covered it and the new tombstone, and search_tombstone_covering reads that off. -/
theorem apply_covering (hv : Valid l) (start stop : P) (tomb : T) :
    Valid (apply l start stop tomb) ∧
      (∀ p, covering (apply l start stop tomb) p =
        max (covering l p) (if start ≤ p ∧ p < stop then (tomb : WithBot T) else ⊥)) ∧
      ∀ p, searchTombstoneCovering (apply l start stop tomb) p =
        max (covering l p) (if start ≤ p ∧ p < stop then (tomb : WithBot T) else ⊥) := by
  obtain ⟨hv', hcov, -⟩ := apply_spec hv start stop tomb
  have hp : ∀ p, covering (apply l start stop tomb) p =
      max (covering l p) (if start ≤ p ∧ p < stop then (tomb : WithBot T) else ⊥) := fun p => by
    rw [hcov]
    rfl
  exact ⟨hv', hp, fun p => by rw [searchTombstoneCovering_eq hv', hp]⟩

/-- Two deletions, and a third over the end of the first and the start of the second. -/
def twoDeletions : List (RangeTombstone Nat Nat) := [⟨0, 10, 3⟩, ⟨12, 20, 7⟩]

theorem apply_covering_overlapping :
    Valid twoDeletions ∧ Valid (apply twoDeletions 5 15 5) ∧
      searchTombstoneCovering (apply twoDeletions 5 15 5) 13 =
        max (covering twoDeletions 13) (if 5 ≤ 13 ∧ 13 < 15 then ((5 : Nat) : WithBot Nat) else ⊥) := by
  have hv : Valid twoDeletions := by decide
  exact ⟨hv, (apply_covering hv 5 15 5).1, (apply_covering hv 5 15 5).2.2 13⟩

end Covering

end RangeTombstoneList

end Scylla
