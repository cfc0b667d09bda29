import Mathlib.Logic.Relation

/-!
# Rules for fallible state passing

`EStateM ε σ α` is a computation that ends in a value or in an error, and in either case in a state.
Nothing is rolled back on an error. This file gives the inversion rules for sequencing
(`bind_eq_ok_iff`, `bind_eq_error_iff`) and the frame rule: if every part of a computation moves the
state along a reflexive and transitive relation, the whole computation does, whatever its outcome
(`Moves.bind`).
-/

set_option autoImplicit false

namespace Morceau.Lib

universe u

variable {ε σ α β : Type u}

/-- The state a computation ended in, on success and on error alike. -/
def finalState : EStateM.Result ε σ α → σ
  | .ok _ s => s
  | .error _ s => s

@[simp] theorem finalState_ok (a : α) (s : σ) :
    finalState (EStateM.Result.ok a s : EStateM.Result ε σ α) = s := rfl

@[simp] theorem finalState_error (e : ε) (s : σ) :
    finalState (EStateM.Result.error e s : EStateM.Result ε σ α) = s := rfl

/-- Changing the error leaves the state. -/
theorem finalState_adaptExcept {ε' : Type u} (f : ε → ε') (x : EStateM ε σ α) (s : σ) :
    finalState (x.adaptExcept f s) = finalState (x s) := by
  unfold EStateM.adaptExcept
  cases x s <;> rfl

/-! ## Inversion of sequencing -/

theorem bind_of_ok {x : EStateM ε σ α} {f : α → EStateM ε σ β} {s s' : σ} {a : α}
    (h : x s = .ok a s') : (x >>= f) s = f a s' := by
  show EStateM.bind x f s = _
  simp [EStateM.bind, h]

theorem bind_of_error {x : EStateM ε σ α} {f : α → EStateM ε σ β} {s s' : σ} {e : ε}
    (h : x s = .error e s') : (x >>= f) s = .error e s' := by
  show EStateM.bind x f s = _
  simp [EStateM.bind, h]

/-- Two sequences agree on a state when their first parts do, and their second parts agree on what
the first can return. -/
theorem bind_congr_at {x y : EStateM ε σ α} {f g : α → EStateM ε σ β} {s : σ} (hxy : x s = y s)
    (h : ∀ a s', y s = .ok a s' → f a s' = g a s') : (x >>= f) s = (y >>= g) s := by
  cases hy : y s with
  | ok a s' =>
      rw [bind_of_ok (hxy.trans hy), bind_of_ok hy]
      exact h a s' hy
  | error e s' => rw [bind_of_error (hxy.trans hy), bind_of_error hy]

/-- What holds where the first part fails, and where the second part ends, holds where the sequence
ends. -/
theorem finalState_bind {Q : σ → Prop} {x : EStateM ε σ α} {f : α → EStateM ε σ β} {s : σ}
    (herror : ∀ e s', x s = .error e s' → Q s')
    (hok : ∀ a s', x s = .ok a s' → Q (finalState (f a s'))) : Q (finalState ((x >>= f) s)) := by
  cases hx : x s with
  | ok a s' =>
      rw [bind_of_ok hx]
      exact hok a s' hx
  | error e s' =>
      rw [bind_of_error hx]
      exact herror e s' hx

theorem finalState_bind_pure (x : EStateM ε σ α) (f : α → β) (s : σ) :
    finalState ((x >>= fun a => pure (f a)) s) = finalState (x s) := by
  cases hx : x s with
  | ok a s' =>
      rw [bind_of_ok hx]
      rfl
  | error e s' =>
      rw [bind_of_error hx]
      rfl

/-- A sequence succeeds exactly when both parts do. -/
theorem bind_eq_ok_iff {x : EStateM ε σ α} {f : α → EStateM ε σ β} {s s'' : σ} {b : β} :
    (x >>= f) s = .ok b s'' ↔ ∃ a s', x s = .ok a s' ∧ f a s' = .ok b s'' := by
  cases hx : x s with
  | ok a s' =>
      rw [bind_of_ok hx]
      constructor
      · intro h
        exact ⟨a, s', rfl, h⟩
      · rintro ⟨a', t, h1, h2⟩
        cases h1
        exact h2
  | error e s' =>
      rw [bind_of_error hx]
      simp

/-- A sequence fails exactly when the first part fails, or it succeeds and the second part
fails. -/
theorem bind_eq_error_iff {x : EStateM ε σ α} {f : α → EStateM ε σ β} {s s'' : σ} {e : ε} :
    (x >>= f) s = .error e s'' ↔
      x s = .error e s'' ∨ ∃ a s', x s = .ok a s' ∧ f a s' = .error e s'' := by
  cases hx : x s with
  | ok a s' =>
      rw [bind_of_ok hx]
      constructor
      · intro h
        exact Or.inr ⟨a, s', rfl, h⟩
      · rintro (h | ⟨a', t, h1, h2⟩)
        · cases h
        · cases h1
          exact h2
  | error e' s' =>
      rw [bind_of_error hx]
      constructor
      · intro h
        cases h
        exact Or.inl rfl
      · rintro (h | ⟨a', t, h1, -⟩)
        · cases h
          rfl
        · cases h1

/-- Changing the error leaves a success alone. -/
theorem adaptExcept_eq_ok_iff {ε' : Type u} {f : ε → ε'} {x : EStateM ε σ α} {s s' : σ} {a : α} :
    x.adaptExcept f s = .ok a s' ↔ x s = .ok a s' := by
  unfold EStateM.adaptExcept
  cases x s <;> simp

theorem adaptExcept_eq_error_iff {ε' : Type u} {f : ε → ε'} {x : EStateM ε σ α} {s s' : σ}
    {e' : ε'} : x.adaptExcept f s = .error e' s' ↔ ∃ e, x s = .error e s' ∧ f e = e' := by
  unfold EStateM.adaptExcept
  cases x s with
  | ok a t => simp
  | error e t =>
      constructor
      · intro h
        cases h
        exact ⟨e, rfl, rfl⟩
      · rintro ⟨_, ⟨⟩, rfl⟩
        rfl

theorem exceptBind_ok (a : α) (f : α → Except ε β) : (Except.ok a >>= f) = f a := rfl

/-- A sequence without a state succeeds exactly when both parts do. -/
theorem exceptBind_eq_ok_iff {x : Except ε α} {f : α → Except ε β} {b : β} :
    (x >>= f) = .ok b ↔ ∃ a, x = .ok a ∧ f a = .ok b := by
  cases x with
  | ok a => simp [bind, Except.bind]
  | error e => simp [bind, Except.bind]

/-- What a computation that only looks at the state gives, as a result in a state. -/
def outcome (r : Except ε α) (s : σ) : EStateM.Result ε σ α :=
  match r with
  | .ok a => .ok a s
  | .error e => .error e s

theorem outcome_eq_ok_iff {r : Except ε α} {s s' : σ} {a : α} :
    outcome r s = .ok a s' ↔ r = .ok a ∧ s = s' := by
  cases r <;> simp [outcome]

theorem get_apply (s : σ) : (get : EStateM ε σ σ) s = .ok s s := rfl

theorem set_apply (t s : σ) : (set t : EStateM ε σ PUnit) s = .ok ⟨⟩ t := rfl

theorem modify_apply (f : σ → σ) (s : σ) : (modify f : EStateM ε σ PUnit) s = .ok ⟨⟩ (f s) := rfl

/-! ## The frame rule -/

/-- Every run of `x` moves the state along `R`, whatever the outcome. -/
def Moves (R : σ → σ → Prop) (x : EStateM ε σ α) : Prop := ∀ s, R s (finalState (x s))

section Frame

variable {R : σ → σ → Prop}

theorem Moves.ok {x : EStateM ε σ α} (h : Moves R x) {s s' : σ} {a : α} (hx : x s = .ok a s') :
    R s s' := by
  have := h s
  rwa [hx] at this

theorem Moves.error {x : EStateM ε σ α} (h : Moves R x) {s s' : σ} {e : ε}
    (hx : x s = .error e s') : R s s' := by
  have := h s
  rwa [hx] at this

theorem Moves.pure (hrefl : ∀ s, R s s) (a : α) : Moves R (pure a : EStateM ε σ α) :=
  fun s => hrefl s

theorem Moves.throw (hrefl : ∀ s, R s s) (e : ε) : Moves R (throw e : EStateM ε σ α) :=
  fun s => hrefl s

theorem Moves.get (hrefl : ∀ s, R s s) : Moves R (get : EStateM ε σ σ) := fun s => hrefl s

/-- The frame rule for sequencing. -/
theorem Moves.bind (htrans : ∀ a b c, R a b → R b c → R a c) {x : EStateM ε σ α}
    {f : α → EStateM ε σ β} (hx : Moves R x) (hf : ∀ a, Moves R (f a)) : Moves R (x >>= f) := by
  intro s
  cases h : x s with
  | ok a s' =>
      rw [bind_of_ok h]
      exact htrans _ _ _ (hx.ok h) (hf a s')
  | error e s' =>
      rw [bind_of_error h]
      exact hx.error h

end Frame

end Morceau.Lib
