import Mathlib.Tactic.Basic

/-!
# Loops that advance

A turn of a loop ends it with a value, goes on from another state, or fails. `loop late turn fuel`
takes at most `fuel` turns and ends with the error `late` when these are not enough. The loop
computes a function of an indexed state if every turn ends with its value, or goes on where it has
the same value and the index is larger, up to a bound. More turns than there are indices left are
then enough (`loop_eq`).
-/

set_option autoImplicit false

namespace Morceau.Lib

universe u

/-- What a turn of a loop does. -/
inductive Turn (σ α : Type u) where
  | again (s : σ)
  | done (a : α)

variable {ε σ α : Type u}

/-- Take turns, at most as many as there is fuel. -/
def loop (late : ε) (turn : σ → Except ε (Turn σ α)) : Nat → σ → Except ε α
  | 0, _ => .error late
  | fuel + 1, s =>
      match turn s with
      | .error err => .error err
      | .ok (.done a) => .ok a
      | .ok (.again s') => loop late turn fuel s'

/-- The turn from `s` ends with the value of `f` at `s`, or goes on to a larger index, where `f` has
the same value. -/
def Computes (f : σ → Except ε α) (index : σ → Nat) (bound : Nat) (s : σ) :
    Except ε (Turn σ α) → Prop
  | .error err => f s = .error err
  | .ok (.done a) => f s = .ok a
  | .ok (.again s') => f s = f s' ∧ index s < index s' ∧ index s' ≤ bound

theorem Computes.advances {f : σ → Except ε α} {index : σ → Nat} {bound : Nat} {s s' : σ}
    {turn : Except ε (Turn σ α)} (h : Computes f index bound s turn) (ht : turn = .ok (.again s')) :
    index s < index s' ∧ index s' ≤ bound := by
  subst ht
  exact h.2

/-- A loop whose turns compute a function ends with the value of the function. -/
theorem loop_eq {late : ε} {turn : σ → Except ε (Turn σ α)} {f : σ → Except ε α}
    {index : σ → Nat} {bound : Nat}
    (hturn : ∀ s, index s ≤ bound → Computes f index bound s (turn s)) :
    ∀ (fuel : Nat) {s : σ}, index s ≤ bound → bound - index s < fuel →
      loop late turn fuel s = f s := by
  intro fuel
  induction fuel with
  | zero => exact fun _ h => absurd h (Nat.not_lt_zero _)
  | succ fuel ih =>
      intro s hs hfuel
      have hcomputes := hturn s hs
      rw [loop]
      cases ht : turn s with
      | error err =>
          rw [ht] at hcomputes
          exact hcomputes.symm
      | ok t =>
          rw [ht] at hcomputes
          cases t with
          | done a => exact hcomputes.symm
          | again s' =>
              obtain ⟨hsame, hlt, hle⟩ := hcomputes
              exact (ih hle (by omega)).trans hsame.symm

end Morceau.Lib
