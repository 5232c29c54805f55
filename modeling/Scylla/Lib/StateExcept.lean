import Mathlib

/-!
# Computations with state and errors

Rules for reasoning about a computation `x : StateT σ (Except ε) α` through its successful runs.  A run that
fails is not taken by whoever called it, so every statement here is about the runs that end in `.ok`.

* `run_bind_eq_ok`: a successful run of `x >>= f` is a successful run of `x` followed by one of `f`.
* `Keeps R x`: every successful run of `x` relates the state it starts in to the state it ends in by `R`.  For a
  preorder `R` this is closed under `pure`, `get`, `modify`, `>>=` and the lifted computations of `Except`, and
  `keeps_get_bind` covers code that reads the state, computes, and writes back a modified copy of it.
-/

namespace StateExcept

variable {σ ε α β : Type}

/-! ### Inversion of successful runs -/

theorem except_bind_eq_ok {x : Except ε α} {f : α → Except ε β} {b : β} :
    x >>= f = .ok b ↔ ∃ a, x = .ok a ∧ f a = .ok b := by
  cases x with
  | error e => simp [bind, Except.bind]
  | ok a => simp [bind, Except.bind]

@[simp] theorem except_pure_eq_ok {a b : α} : (pure a : Except ε α) = .ok b ↔ a = b := by
  simp [pure, Except.pure]

/-- A computation whose result is `ok` succeeds with some value. -/
theorem exists_eq_ok_of_isOk {x : Except ε α} (h : x.isOk = true) : ∃ a, x = .ok a := by
  cases x with
  | error e => cases h
  | ok a => exact ⟨a, rfl⟩

@[simp] theorem except_throw_bind (e : ε) (f : α → Except ε β) : (throw e >>= f : Except ε β) = throw e := rfl

@[simp] theorem except_throw_ne_ok {e : ε} {a : α} : (throw e : Except ε α) ≠ .ok a := by
  simp [throw, throwThe, MonadExceptOf.throw]

theorem run_bind_eq_ok {x : StateT σ (Except ε) α} {f : α → StateT σ (Except ε) β} {s s'' : σ} {b : β} :
    (x >>= f).run s = .ok (b, s'') ↔ ∃ a s', x.run s = .ok (a, s') ∧ (f a).run s' = .ok (b, s'') := by
  rw [StateT.run_bind, except_bind_eq_ok]
  constructor
  · rintro ⟨⟨a, s'⟩, hx, hf⟩
    exact ⟨a, s', hx, hf⟩
  · rintro ⟨a, s', hx, hf⟩
    exact ⟨(a, s'), hx, hf⟩

@[simp] theorem run_pure_eq_ok {a b : α} {s s' : σ} :
    (pure a : StateT σ (Except ε) α).run s = .ok (b, s') ↔ a = b ∧ s = s' := by
  change (Except.ok (a, s) : Except ε (α × σ)) = .ok (b, s') ↔ _
  simp

@[simp] theorem run_lift_eq_ok {x : Except ε α} {a : α} {s s' : σ} :
    (StateT.lift x : StateT σ (Except ε) α).run s = .ok (a, s') ↔ x = .ok a ∧ s = s' := by
  cases x with
  | error e => simp [bind, Except.bind]
  | ok b =>
    change (Except.ok (b, s) : Except ε (α × σ)) = .ok (a, s') ↔ _
    simp

@[simp] theorem run_get_eq_ok {a s s' : σ} :
    (get : StateT σ (Except ε) σ).run s = .ok (a, s') ↔ a = s ∧ s' = s := by
  change (Except.ok (s, s) : Except ε (σ × σ)) = .ok (a, s') ↔ _
  simp [eq_comm]

@[simp] theorem run_set_eq_ok {v s s' : σ} {u : PUnit} :
    (set v : StateT σ (Except ε) PUnit).run s = .ok (u, s') ↔ s' = v := by
  change (Except.ok (PUnit.unit, v) : Except ε (PUnit × σ)) = .ok (u, s') ↔ _
  simp [eq_comm]

@[simp] theorem run_modify_eq_ok {f : σ → σ} {s s' : σ} {u : PUnit} :
    (modify f : StateT σ (Except ε) PUnit).run s = .ok (u, s') ↔ s' = f s := by
  change (Except.ok (PUnit.unit, f s) : Except ε (PUnit × σ)) = .ok (u, s') ↔ _
  simp [eq_comm]

@[simp] theorem run_map_eq_ok {x : StateT σ (Except ε) α} {f : α → β} {s s' : σ} {b : β} :
    (f <$> x).run s = .ok (b, s') ↔ ∃ a, x.run s = .ok (a, s') ∧ f a = b := by
  rw [StateT.run_map]
  cases x.run s with
  | error e => simp [Functor.map, Except.map]
  | ok p =>
    obtain ⟨a, s₁⟩ := p
    simp only [Functor.map, Except.map, Except.ok.injEq, Prod.mk.injEq]
    constructor
    · rintro ⟨rfl, rfl⟩
      exact ⟨a, ⟨rfl, rfl⟩, rfl⟩
    · rintro ⟨a, ⟨rfl, rfl⟩, rfl⟩
      exact ⟨rfl, rfl⟩

@[simp] theorem run_throw_ne_ok {e : ε} {s s' : σ} {a : α} :
    (throw e : StateT σ (Except ε) α).run s ≠ .ok (a, s') := by
  simp [throw, throwThe, MonadExceptOf.throw, bind, Except.bind]

/-! ### Computations that keep a relation -/

/-- Every successful run of `x` from `s` ends in a state that `R` relates to `s`. -/
def KeepsFrom (R : σ → σ → Prop) (s : σ) (x : StateT σ (Except ε) α) : Prop :=
  ∀ ⦃a : α⦄ ⦃s' : σ⦄, x.run s = .ok (a, s') → R s s'

/-- Every successful run of `x` ends in a state that `R` relates to the one it started in. -/
def Keeps (R : σ → σ → Prop) (x : StateT σ (Except ε) α) : Prop := ∀ s, KeepsFrom R s x

theorem keeps_throw {R : σ → σ → Prop} (e : ε) : Keeps R (throw e : StateT σ (Except ε) α) := by
  intro s a s' h
  exact absurd h run_throw_ne_ok

theorem keeps_throw_bind {R : σ → σ → Prop} (e : ε) (f : α → StateT σ (Except ε) β) :
    Keeps R (throw e >>= f) := by
  intro s b s' h
  obtain ⟨a, s₁, hx, -⟩ := run_bind_eq_ok.1 h
  exact absurd hx run_throw_ne_ok

theorem Keeps.ite {R : σ → σ → Prop} {c : Prop} [Decidable c] {x y : StateT σ (Except ε) α}
    (hx : Keeps R x) (hy : Keeps R y) : Keeps R (if c then x else y) := by
  split
  · exact hx
  · exact hy

theorem Keeps.mono {R R' : σ → σ → Prop} {x : StateT σ (Except ε) α} (h : Keeps R x)
    (hR : ∀ s s', R s s' → R' s s') : Keeps R' x :=
  fun s _ _ hr => hR _ _ (h s hr)

theorem KeepsFrom.mono {R R' : σ → σ → Prop} {s : σ} {x : StateT σ (Except ε) α} (h : KeepsFrom R s x)
    (hR : ∀ s', R s s' → R' s s') : KeepsFrom R' s x :=
  fun _ _ hr => hR _ (h hr)

theorem Keeps.and {R R' : σ → σ → Prop} {x : StateT σ (Except ε) α} (h : Keeps R x) (h' : Keeps R' x) :
    Keeps (fun s s' => R s s' ∧ R' s s') x :=
  fun s _ _ hr => ⟨h s hr, h' s hr⟩

section

variable {R : σ → σ → Prop}

theorem keeps_modify {f : σ → σ} (hf : ∀ s, R s (f s)) : Keeps R (modify f : StateT σ (Except ε) PUnit) := by
  intro s a s' h
  cases h
  exact hf s

/-- Code that reads the state: the rest of the computation is checked from the state it read. -/
theorem keeps_get_bind {f : σ → StateT σ (Except ε) β} (hf : ∀ s, KeepsFrom R s (f s)) :
    Keeps R (get >>= f) := by
  intro s b s' h
  obtain ⟨a, s₁, hg, hfs⟩ := run_bind_eq_ok.1 h
  cases hg
  exact hf s hfs

/-- The same, checked from one state. -/
theorem keepsFrom_get_bind {s : σ} {f : σ → StateT σ (Except ε) β} (hf : KeepsFrom R s (f s)) :
    KeepsFrom R s (get >>= f) := by
  intro b s' h
  obtain ⟨a, s₁, hg, hfs⟩ := run_bind_eq_ok.1 h
  obtain ⟨rfl, rfl⟩ := run_get_eq_ok.1 hg
  exact hf hfs

/-- Code that reads the state and goes on with a computation that keeps `R` from any state. -/
theorem Keeps.get_bind {f : σ → StateT σ (Except ε) β} (hf : ∀ s, Keeps R (f s)) : Keeps R (get >>= f) :=
  keeps_get_bind fun s => hf s s

/-- Writing back a state related to the one read. -/
theorem keepsFrom_set {s v : σ} (h : R s v) : KeepsFrom R s (set v : StateT σ (Except ε) PUnit) := by
  intro a s' hs
  cases hs
  exact h

/-- A step that leaves the state as it is can be skipped when checking from the state read before it. -/
theorem KeepsFrom.bind_of_eq {s : σ} {x : StateT σ (Except ε) α} {f : α → StateT σ (Except ε) β}
    (hx : Keeps Eq x) (hf : ∀ a, KeepsFrom R s (f a)) : KeepsFrom R s (x >>= f) := by
  intro b s'' h
  obtain ⟨a, s', hxs, hfs⟩ := run_bind_eq_ok.1 h
  cases hx s hxs
  exact hf a hfs

end

section Refl

variable {R : σ → σ → Prop} [Std.Refl R]

theorem keeps_pure (a : α) : Keeps R (pure a : StateT σ (Except ε) α) := by
  intro s b s' h
  obtain ⟨-, rfl⟩ := run_pure_eq_ok.1 h
  exact refl_of R s

theorem keeps_get : Keeps R (get : StateT σ (Except ε) σ) := by
  intro s a s' h
  cases h
  exact refl_of R s

theorem keeps_lift (x : Except ε α) : Keeps R (StateT.lift x : StateT σ (Except ε) α) := by
  intro s a s' h
  obtain ⟨-, rfl⟩ := run_lift_eq_ok.1 h
  exact refl_of R s

/-- A computation that changes nothing keeps every reflexive relation. -/
theorem Keeps.of_eq {x : StateT σ (Except ε) α} (h : Keeps Eq x) : Keeps R x :=
  h.mono fun s _ hs => hs ▸ refl_of R s

end Refl

section Trans

variable {R : σ → σ → Prop} [IsTrans σ R]

/-- The composition rule: the relation is kept by each part, hence by the whole. -/
theorem Keeps.bind {x : StateT σ (Except ε) α} {f : α → StateT σ (Except ε) β} (hx : Keeps R x)
    (hf : ∀ a, Keeps R (f a)) : Keeps R (x >>= f) := by
  intro s b s'' h
  obtain ⟨a, s', hxs, hfs⟩ := run_bind_eq_ok.1 h
  exact trans_of R (hx s hxs) (hf a s' hfs)

/-- A statement `if c then x` followed by `y` in a do block, the continuation standing in both branches. -/
theorem Keeps.ite_seq {c : Prop} [Decidable c] {x : StateT σ (Except ε) α} {y : StateT σ (Except ε) β}
    (hx : Keeps R x) (hy : Keeps R y) : Keeps R (if c then x >>= fun _ => y else y) :=
  Keeps.ite (Keeps.bind hx fun _ => hy) hy

theorem KeepsFrom.bind {s : σ} {x : StateT σ (Except ε) α} {f : α → StateT σ (Except ε) β}
    (hx : KeepsFrom R s x) (hf : ∀ a s', x.run s = .ok (a, s') → KeepsFrom R s' (f a)) :
    KeepsFrom R s (x >>= f) := by
  intro b s'' h
  obtain ⟨a, s', hxs, hfs⟩ := run_bind_eq_ok.1 h
  exact trans_of R (hx hxs) (hf a s' hxs hfs)

theorem keepsFrom_set_bind {s v : σ} {k : PUnit → StateT σ (Except ε) β} (h : R s v)
    (hk : KeepsFrom R v (k ⟨⟩)) : KeepsFrom R s (set v >>= k) :=
  KeepsFrom.bind (keepsFrom_set h) fun a s' hs => by
    cases hs
    exact hk

end Trans

/-! ### Results -/

/-- Every successful run of `x` from `s` ends with a result and a state that satisfy `Q`. -/
def Ensures (Q : α → σ → Prop) (s : σ) (x : StateT σ (Except ε) α) : Prop :=
  ∀ ⦃a : α⦄ ⦃s' : σ⦄, x.run s = .ok (a, s') → Q a s'

section

variable {Q : β → σ → Prop}

theorem ensures_pure {s : σ} {b : β} (h : Q b s) : Ensures Q s (pure b : StateT σ (Except ε) β) := by
  intro b' s' hr
  obtain ⟨rfl, rfl⟩ := run_pure_eq_ok.1 hr
  exact h

/-- The rest of the computation is checked from every state and result the first part can end in. -/
theorem ensures_bind {s : σ} {x : StateT σ (Except ε) α} {f : α → StateT σ (Except ε) β}
    (hf : ∀ a s', x.run s = .ok (a, s') → Ensures Q s' (f a)) : Ensures Q s (x >>= f) := by
  intro b s'' h
  obtain ⟨a, s', hxs, hfs⟩ := run_bind_eq_ok.1 h
  exact hf a s' hxs hfs

theorem ensures_throw_bind {s : σ} (e : ε) (f : α → StateT σ (Except ε) β) : Ensures Q s (throw e >>= f) :=
  ensures_bind fun _ _ hx => absurd hx run_throw_ne_ok

theorem Ensures.mono {Q' : β → σ → Prop} {s : σ} {x : StateT σ (Except ε) β} (h : Ensures Q s x)
    (hQ : ∀ b s', Q b s' → Q' b s') : Ensures Q' s x :=
  fun _ _ hr => hQ _ _ (h hr)

end

/-! ### Invariants -/

/-- `I` holds at the end of a run that started where it held: `Keeps (Preserved I) x` says that `x` preserves
`I`. -/
def Preserved (I : σ → Prop) (s s' : σ) : Prop := I s → I s'

instance {I : σ → Prop} : Std.Refl (Preserved I) := ⟨fun _ h => h⟩

instance {I : σ → Prop} : IsTrans σ (Preserved I) := ⟨fun _ _ _ h₁ h₂ h => h₂ (h₁ h)⟩

/-- A computation checked from a state may assume the invariant there. -/
theorem KeepsFrom.of_inv {I : σ → Prop} {s : σ} {x : StateT σ (Except ε) α}
    (h : I s → KeepsFrom (Preserved I) s x) : KeepsFrom (Preserved I) s x :=
  fun _ _ hr hi => h hi hr hi

end StateExcept
