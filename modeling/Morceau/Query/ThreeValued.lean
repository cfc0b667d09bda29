import Morceau.Lib.Kleene
import Morceau.Query.Answers

/-!
# Unknown truth values in `WHERE`

`AND` and `OR` are `Null` as soon as one operand is, also when the other operand decides them. The
value of a formula is therefore its weak three-valued reading (`evalExpr_whereExpr`), not Kleene's
strong one: the two differ exactly when an atom is `Null` and the strong value is known, and a row
is lost exactly when an atom is `Null` and the strong value is true.
-/

set_option autoImplicit false

namespace Morceau

open Lib Interpreter

/-- A truth value as a value of the language: unknown is `Null`. -/
def truthValue : Truth → Value
  | some b => .bool b
  | none => .null

/-- A formula over expressions as an expression. -/
def whereExpr : Formula Expr → Expr
  | .atom a => a
  | .and f g => .binary .and (whereExpr f) (whereExpr g)
  | .or f g => .binary .or (whereExpr f) (whereExpr g)
  | .not f => .not (whereExpr f)

section Formulas

variable {σ : Type} {e : Engine σ} {row : Bindings} {params : Params}

theorem applyLogic_truthValue (name : String) (op : Bool → Bool → Bool) (x y : Truth) :
    applyLogic name op (truthValue x) (truthValue y) = .ok (truthValue (Truth.weak op x y)) := by
  cases x <;> cases y <;> rfl

/-- The interpreter computes the weak reading. -/
theorem evalExpr_whereExpr {v : Expr → Truth} (f : Formula Expr)
    (hv : ∀ a ∈ f.atoms, evalExpr e row params a = .ok (truthValue (v a))) :
    evalExpr e row params (whereExpr f) = .ok (truthValue (f.weak v)) := by
  induction f with
  | atom a => exact hv a (List.mem_singleton_self a)
  | and f g ihf ihg =>
      rw [Formula.atoms, List.forall_mem_append] at hv
      rw [whereExpr, evalExpr, ihf hv.1, ihg hv.2]
      exact applyLogic_truthValue _ _ _ _
  | or f g ihf ihg =>
      rw [Formula.atoms, List.forall_mem_append] at hv
      rw [whereExpr, evalExpr, ihf hv.1, ihg hv.2]
      exact applyLogic_truthValue _ _ _ _
  | not f ih =>
      rw [whereExpr, evalExpr, ih hv, Formula.weak]
      cases f.weak v <;> rfl

theorem truthValue_inj {x y : Truth} : truthValue x = truthValue y ↔ x = y := by
  cases x <;> cases y <;> simp [truthValue]

/-- A row is kept when the value is `TRUE`. -/
theorem evalPredicate_truthValue {expr : Expr} {x : Truth}
    (h : evalExpr e row params expr = .ok (truthValue x)) :
    evalPredicate e row params (some expr) = .ok true ↔ x = some true := by
  rw [evalPredicate, h]
  rcases x with _ | _ | _
  · simp [truthValue, bind, Except.bind]
  · simp [truthValue, bind, Except.bind]
  · simp [truthValue, bind, Except.bind]

/-- On a row where the atoms are booleans or `Null`, the value of a formula is its Kleene value
exactly when no atom is `Null` or the Kleene value is `Null`; and the row is kept if and only if the
Kleene value is `TRUE`, exactly when no atom is `Null` or the Kleene value is not `TRUE`. -/
theorem where_is_kleene_iff (f : Formula Expr) (v : Expr → Truth)
    (hv : ∀ a ∈ f.atoms, evalExpr e row params a = .ok (truthValue (v a))) :
    (evalExpr e row params (whereExpr f) = .ok (truthValue (f.strong v)) ↔
      f.Known v ∨ f.strong v = none) ∧
    ((evalPredicate e row params (some (whereExpr f)) = .ok true ↔ f.strong v = some true) ↔
      f.Known v ∨ f.strong v ≠ some true) := by
  have hweak := evalExpr_whereExpr f hv
  constructor
  · rw [hweak, Except.ok.injEq, truthValue_inj]
    exact f.weak_eq_strong_iff
  · rw [evalPredicate_truthValue hweak]
    exact f.weak_true_iff_strong_true_iff

end Formulas

/-- `x OR NOT y`. -/
def sampleFormula (x y : Expr) : Formula Expr := .or (.atom x) (.not (.atom y))

/-- The truth of a literal. -/
def literalTruth : Expr → Truth
  | .literal (.bool b) => some b
  | _ => none

/-- `true OR NOT false` and `false OR NOT NULL`: a known formula, and one whose Kleene value is
unknown. -/
theorem where_of_literals :
    evalExpr oneNode ∅ ∅
        (whereExpr (sampleFormula (.literal (.bool true)) (.literal (.bool false)))) =
        .ok (.bool true) ∧
      evalExpr oneNode ∅ ∅ (whereExpr (sampleFormula (.literal (.bool false)) (.literal .null))) =
        .ok .null := by
  constructor
  · refine (where_is_kleene_iff (sampleFormula _ _) literalTruth ?_).1.2 (.inl ?_)
    · simp [sampleFormula, Formula.atoms, evalExpr, literalTruth, truthValue]
    · simp [Formula.Known, sampleFormula, Formula.atoms, literalTruth]
  · refine (where_is_kleene_iff (sampleFormula _ _) literalTruth ?_).1.2 (.inr rfl)
    simp [sampleFormula, Formula.atoms, evalExpr, literalTruth, truthValue]

/-- `true OR n.age > 3`. -/
def trueOrOlder : Formula Expr :=
  .or (.atom (.literal (.bool true)))
    (.atom (.binary .gt (.property "n" ["age"]) (.literal (.i64 3))))

/-- A node without an age: `true OR n.age > 3` is `NULL`, where Kleene's value is true, and the
query does not return the node. -/
theorem where_loses_a_true_row :
    Reach bincode oneNode ∧
      parse "MATCH (n) WHERE true OR n.age > 3 RETURN n" =
        .ok (.matchReturn [.node ⟨"n", none, ∅⟩] (some (whereExpr trueOrOlder)) [.var "n"] none
          none) ∧
      evalExpr oneNode ((∅ : Bindings).insert "n" (.node (Node.new "a" "N"))) ∅
        (whereExpr trueOrOlder) = .ok .null ∧
      (trueOrOlder.strong fun a => if a = .literal (.bool true) then some true else none) =
        some true ∧
      ∃ q e', execute bincode (.matchReturn [.node ⟨"n", none, ∅⟩] (some (whereExpr trueOrOlder))
        [.var "n"] none none) ∅ oneNode = .ok q e' ∧ q.rows.length = 0 := by
  refine ⟨reach_oneNode, by decide +kernel, by decide +kernel, by decide +kernel, ?_⟩
  exact rowCount_eq_some (by decide +kernel)

end Morceau
