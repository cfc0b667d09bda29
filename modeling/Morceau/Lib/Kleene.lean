import Mathlib.Data.List.Basic
import Mathlib.Data.Option.Basic

/-!
# Three-valued formulas

Formulas over atoms whose truth may be unknown, with two readings of the connectives. In the strong
reading a known operand that decides the connective decides it whatever the other one is. In the
weak reading an unknown operand makes the connective unknown, so a formula is unknown as soon as one
of its atoms is (`weak_eq_none_iff`). The two agree when all atoms are known, and otherwise only
where the strong reading is unknown too.
-/

set_option autoImplicit false

namespace Morceau.Lib

universe u

/-- A truth value, or unknown. -/
abbrev Truth := Option Bool

namespace Truth

def strongAnd : Truth → Truth → Truth
  | some false, _ => some false
  | _, some false => some false
  | some true, some true => some true
  | _, _ => none

def strongOr : Truth → Truth → Truth
  | some true, _ => some true
  | _, some true => some true
  | some false, some false => some false
  | _, _ => none

/-- Both operands are known, or the result is unknown. -/
def weak (f : Bool → Bool → Bool) : Truth → Truth → Truth
  | some a, some b => some (f a b)
  | _, _ => none

end Truth

/-- A formula over atoms. -/
inductive Formula (α : Type u) where
  | atom (a : α)
  | and (f g : Formula α)
  | or (f g : Formula α)
  | not (f : Formula α)

namespace Formula

variable {α : Type u}

def atoms : Formula α → List α
  | atom a => [a]
  | and f g => f.atoms ++ g.atoms
  | or f g => f.atoms ++ g.atoms
  | not f => f.atoms

/-- Kleene's strong value. -/
def strong (v : α → Truth) : Formula α → Truth
  | atom a => v a
  | and f g => (f.strong v).strongAnd (g.strong v)
  | or f g => (f.strong v).strongOr (g.strong v)
  | not f => (f.strong v).map fun b => !b

/-- The weak value: unknown operands win. -/
def weak (v : α → Truth) : Formula α → Truth
  | atom a => v a
  | and f g => Truth.weak (fun a b => a && b) (f.weak v) (g.weak v)
  | or f g => Truth.weak (fun a b => a || b) (f.weak v) (g.weak v)
  | not f => (f.weak v).map fun b => !b

/-- Every atom is known. -/
def Known (v : α → Truth) (f : Formula α) : Prop := ∀ a ∈ f.atoms, v a ≠ none

section Readings

variable {v : α → Truth}

theorem truth_weak_eq_none_iff {op : Bool → Bool → Bool} {x y : Truth} :
    Truth.weak op x y = none ↔ x = none ∨ y = none := by
  cases x <;> cases y <;> simp [Truth.weak]

theorem known_append {f g : Formula α} :
    (∀ a ∈ f.atoms ++ g.atoms, v a ≠ none) ↔ f.Known v ∧ g.Known v :=
  List.forall_mem_append

/-- One unknown atom makes the weak value unknown. -/
theorem weak_ne_none_iff (f : Formula α) : f.weak v ≠ none ↔ f.Known v := by
  induction f with
  | atom a => simp [weak, Known, atoms]
  | and f g ihf ihg =>
      rw [Known, atoms, known_append, ← ihf, ← ihg, weak, ne_eq, truth_weak_eq_none_iff, not_or]
  | or f g ihf ihg =>
      rw [Known, atoms, known_append, ← ihf, ← ihg, weak, ne_eq, truth_weak_eq_none_iff, not_or]
  | not f ih =>
      rw [weak, ne_eq, Option.map_eq_none_iff]
      exact ih

/-- With known atoms both readings are the classical one. -/
theorem weak_eq_strong {f : Formula α} (h : f.Known v) : f.weak v = f.strong v := by
  induction f with
  | atom a => rfl
  | and f g ihf ihg =>
      obtain ⟨hf, hg⟩ := known_append.1 h
      obtain ⟨x, hx⟩ := Option.ne_none_iff_exists'.1 ((weak_ne_none_iff f).2 hf)
      obtain ⟨y, hy⟩ := Option.ne_none_iff_exists'.1 ((weak_ne_none_iff g).2 hg)
      rw [weak, strong, ← ihf hf, ← ihg hg, hx, hy]
      cases x <;> cases y <;> rfl
  | or f g ihf ihg =>
      obtain ⟨hf, hg⟩ := known_append.1 h
      obtain ⟨x, hx⟩ := Option.ne_none_iff_exists'.1 ((weak_ne_none_iff f).2 hf)
      obtain ⟨y, hy⟩ := Option.ne_none_iff_exists'.1 ((weak_ne_none_iff g).2 hg)
      rw [weak, strong, ← ihf hf, ← ihg hg, hx, hy]
      cases x <;> cases y <;> rfl
  | not f ih => rw [weak, strong, ih h]

/-- The readings agree on a formula exactly when its atoms are known or its strong value is
unknown. -/
theorem weak_eq_strong_iff (f : Formula α) :
    f.weak v = f.strong v ↔ f.Known v ∨ f.strong v = none := by
  by_cases h : f.Known v
  · exact ⟨fun _ => .inl h, fun _ => weak_eq_strong h⟩
  · have hnone : f.weak v = none := not_not.1 (mt (weak_ne_none_iff f).1 h)
    rw [hnone]
    exact ⟨fun heq => .inr heq.symm, fun hor => (hor.resolve_left h).symm⟩

/-- The readings agree on whether a formula is true exactly when its atoms are known or its strong
value is not true. -/
theorem weak_true_iff_strong_true_iff (f : Formula α) :
    (f.weak v = some true ↔ f.strong v = some true) ↔ f.Known v ∨ f.strong v ≠ some true := by
  by_cases h : f.Known v
  · rw [weak_eq_strong h]
    exact ⟨fun _ => .inl h, fun _ => Iff.rfl⟩
  · have hnone : f.weak v = none := not_not.1 (mt (weak_ne_none_iff f).1 h)
    rw [hnone]
    constructor
    · intro hiff
      exact .inr fun htrue => by cases hiff.2 htrue
    · intro hor
      exact iff_of_false (by simp) (hor.resolve_left h)

end Readings

end Formula

end Morceau.Lib
