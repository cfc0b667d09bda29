import Morceau.Lib.Loops
import Morceau.Query.Answers

/-!
# `LIMIT`

The limit is enforced in two loops, the filter of `find_match_rows` when neither an order nor an
aggregate needs every row, and the projection. Both are the same loop (`Lib.collectLoop`), which
pushes a row before it tests the limit. So a statement with a limit returns the first rows of the
statement without one, but never fewer than one row if there is one: `LIMIT 0` acts as `LIMIT 1`.
-/

set_option autoImplicit false

namespace Morceau

open Lib Interpreter

section Loops

variable {σ : Type} (e : Engine σ) (params : Params) (limit : Option Nat)

/-- A row that passes `WHERE`. -/
def acceptedRow (whereClause : Option Expr) (row : Bindings) :
    Except InterpretError (Option Bindings) := do
  let accepted ← evalPredicate e row params whereClause
  pure (if accepted then some row else none)

theorem filterRows_eq_collectLoop (whereClause : Option Expr) (rows : List Bindings) :
    ∀ kept, filterRows e whereClause params limit kept rows =
      collectLoop (acceptedRow e params whereClause) limit kept rows := by
  induction rows with
  | nil => exact fun _ => rfl
  | cons row rows ih =>
      intro kept
      cases hrow : evalPredicate e row params whereClause with
      | error err => simp [filterRows, collectLoop, acceptedRow, hrow, bind, Except.bind]
      | ok accepted =>
          cases accepted <;> cases limit <;>
            simp [filterRows, collectLoop, acceptedRow, hrow, bind, Except.bind, pure, Except.pure,
              ih]

/-- The cells of a row. -/
def projectedRow (items : List ReturnItem) (row : Bindings) :
    Except InterpretError (Option (List ResultCell)) := do
  let cells ← items.mapM (project e row)
  pure (some cells)

theorem projectRows_eq_collectLoop (items : List ReturnItem) (rows : List Bindings) :
    ∀ kept, projectRows e items limit kept rows =
      collectLoop (projectedRow e items) limit kept rows := by
  induction rows with
  | nil => exact fun _ => rfl
  | cons row rows ih =>
      intro kept
      cases hrow : items.mapM (project e row) with
      | error err => simp [projectRows, collectLoop, projectedRow, hrow, bind, Except.bind]
      | ok cells =>
          cases limit <;>
            simp [projectRows, collectLoop, projectedRow, hrow, bind, Except.bind, pure,
              Except.pure, ih]

end Loops

section Limited

variable {σ : Type} {e : Engine σ} {params : Params}

theorem filterRows_limit (l : Nat) {whereClause : Option Expr} {rows out : List Bindings}
    (h : filterRows e whereClause params none 0 rows = .ok out) :
    filterRows e whereClause params (some l) 0 rows = .ok (out.take (max l 1)) := by
  rw [filterRows_eq_collectLoop] at h ⊢
  exact collectLoop_limit l h

/-- The filter fails only where `WHERE` does. -/
theorem filterRows_succeeds {whereClause : Option Expr} {rows : List Bindings}
    (h : ∀ row ∈ rows, ∃ b, evalPredicate e row params whereClause = .ok b) (limit : Option Nat) :
    ∃ out, filterRows e whereClause params limit 0 rows = .ok out := by
  obtain ⟨out, hout⟩ : ∃ out, filterRows e whereClause params none 0 rows = .ok out := by
    simp only [filterRows_eq_collectLoop]
    refine collectLoop_succeeds 0 fun row hrow => ?_
    obtain ⟨b, hb⟩ := h row hrow
    exact ⟨_, exceptBind_eq_ok_iff.2 ⟨b, hb, rfl⟩⟩
  cases limit with
  | none => exact ⟨out, hout⟩
  | some l => exact ⟨_, filterRows_limit l hout⟩

theorem projectRows_limit (l : Nat) {items : List ReturnItem} {rows : List Bindings}
    {out : List (List ResultCell)} (h : projectRows e items none 0 rows = .ok out) :
    projectRows e items (some l) 0 rows = .ok (out.take (max l 1)) := by
  rw [projectRows_eq_collectLoop] at h ⊢
  exact collectLoop_limit l h

theorem projectRows_take (k : Nat) {items : List ReturnItem} {rows : List Bindings}
    {out : List (List ResultCell)} (h : projectRows e items none 0 rows = .ok out) :
    projectRows e items none 0 (rows.take k) = .ok (out.take k) := by
  rw [projectRows_eq_collectLoop] at h ⊢
  refine collectLoop_take (fun row hnone => ?_) k h
  obtain ⟨cells, -, hcells⟩ := exceptBind_eq_ok_iff.1 hnone
  cases hcells

variable [Storage σ] {P : Platform} {e' : Engine σ} {patterns : List Pattern}
  {whereClause : Option Expr} {items : List ReturnItem} {orderBy : Option OrderBy}
  {limit : Option Nat}

/-- What `MATCH ... RETURN` does with the rows of the match. -/
theorem execute_matchReturn_iff {q : QueryResult} :
    execute P (.matchReturn patterns whereClause items orderBy limit) params e = .ok q e' ↔
      ∃ rows ordered,
        findMatchRows P patterns whereClause params (inlineLimit items orderBy limit) e =
          .ok rows e' ∧
        orderedRows P e' orderBy params rows = .ok ordered ∧
        projectedRows e' items limit ordered = .ok q.rows ∧
        q.columns = items.map returnItemColumnName := by
  have horder : ∀ {rows ordered : List Bindings} {e₁ e₂ : Engine σ},
      orderRows P orderBy params rows e₁ = .ok ordered e₂ ↔
        orderedRows P e₁ orderBy params rows = .ok ordered ∧ e₂ = e₁ := by
    intro rows ordered e₁ e₂
    cases orderBy with
    | none => simp [orderRows, orderedRows, pure, EStateM.pure, eq_comm]
    | some order => exact look_eq_ok_iff (x := fun e => sortRows P e rows order params)
  have hout : ∀ {rows : List Bindings} {out : List (List ResultCell)} {e₁ e₂ : Engine σ},
      outputRows items limit rows e₁ = .ok out e₂ ↔
        projectedRows e₁ items limit rows = .ok out ∧ e₂ = e₁ := by
    intro rows out e₁ e₂
    unfold outputRows projectedRows
    split
    · exact look_eq_ok_iff
    · exact look_eq_ok_iff
  simp only [execute, execMatchReturn, bind_eq_ok_iff, horder, hout]
  constructor
  · rintro ⟨rows, e₁, hfind, ordered, _, ⟨hordered, rfl⟩, out, _, ⟨hproject, rfl⟩, hq⟩
    cases hq
    exact ⟨rows, ordered, hfind, hordered, hproject, rfl⟩
  · rintro ⟨rows, ordered, hfind, hordered, hproject, hcols⟩
    refine ⟨rows, e', hfind, ordered, e', ⟨hordered, rfl⟩, q.rows, e', ⟨hproject, rfl⟩, ?_⟩
    rw [← hcols]
    rfl

theorem findMatchRows_limit (l : Nat) {rows : List Bindings}
    (h : findMatchRows P patterns whereClause params none e = .ok rows e') :
    findMatchRows P patterns whereClause params (some l) e = .ok (rows.take (max l 1)) e' := by
  simp only [findMatchRows, bind_eq_ok_iff, look_eq_ok_iff] at h ⊢
  obtain ⟨joined, e₁, hjoin, hfilter, rfl⟩ := h
  exact ⟨joined, e', hjoin, filterRows_limit l hfilter, rfl⟩

/-- A statement with a limit returns the first rows of the statement without one, and at least one
of them. -/
theorem execute_limit (hplain : items.any isAggregate = false) {r : QueryResult}
    (h : execute P (.matchReturn patterns whereClause items orderBy none) params e = .ok r e')
    (l : Nat) :
    execute P (.matchReturn patterns whereClause items orderBy (some l)) params e =
      .ok ⟨r.columns, r.rows.take (max l 1)⟩ e' := by
  obtain ⟨rows, ordered, hfind, hordered, hproject, hcols⟩ := execute_matchReturn_iff.1 h
  simp only [inlineLimit_none, projectedRows, hplain, Bool.false_eq_true, if_false]
    at hfind hproject
  simp only [execute_matchReturn_iff, projectedRows, hplain, Bool.false_eq_true, if_false]
  cases orderBy with
  | none =>
      -- the filter stops early, and the projection has nothing more to cut
      cases hordered
      have hcut := projectRows_limit l (projectRows_take (max l 1) hproject)
      rw [List.take_take, Nat.min_self] at hcut
      refine ⟨_, _, ?_, rfl, hcut, hcols⟩
      rw [inlineLimit, hplain]
      exact findMatchRows_limit l hfind
  | some order =>
      -- every row is sorted, and the projection cuts
      refine ⟨rows, ordered, ?_, hordered, projectRows_limit l hproject, hcols⟩
      rwa [inlineLimit_order]

/-- When `LIMIT` is a prefix. If a statement without aggregates returns the rows of `r` without a
limit, then with the limit `l` it returns the first `l` of them exactly if `l` is positive or there
is no row. -/
theorem limit_is_prefix_iff (hplain : items.any isAggregate = false) {r : QueryResult}
    (h : execute P (.matchReturn patterns whereClause items orderBy none) params e = .ok r e')
    (l : Nat) :
    (∃ e₁, execute P (.matchReturn patterns whereClause items orderBy (some l)) params e =
        .ok ⟨r.columns, r.rows.take l⟩ e₁) ↔ 1 ≤ l ∨ r.rows = [] := by
  rw [execute_limit hplain h l]
  constructor
  · rintro ⟨e₁, heq⟩
    -- otherwise the limit is zero and the first row is returned all the same
    by_contra hnot
    obtain ⟨hl, hrows⟩ := not_or.1 hnot
    obtain rfl : l = 0 := by omega
    simp [hrows] at heq
  · rintro (hl | hrows)
    · exact ⟨e', by rw [Nat.max_eq_left hl]⟩
    · exact ⟨e', by simp [hrows]⟩

end Limited

/-- The statement `MATCH (n) RETURN n`, with a limit. -/
def returnNodes (limit : Option Nat) : Statement :=
  .matchReturn [.node ⟨"n", none, ∅⟩] none [.var "n"] none limit

/-- `MATCH (n) RETURN n LIMIT 1` on one node. -/
theorem limit_one_is_prefix :
    ∃ r e' e₁, execute bincode (returnNodes none) ∅ oneNode = .ok r e' ∧
      execute bincode (returnNodes (some 1)) ∅ oneNode = .ok ⟨r.columns, r.rows.take 1⟩ e₁ := by
  obtain ⟨r, e', hr, -⟩ := rowCount_eq_some (n := 1)
    (by decide +kernel : rowCount (execute bincode (returnNodes none) ∅ oneNode) = some 1)
  obtain ⟨e₁, hlimit⟩ := (limit_is_prefix_iff rfl hr 1).2 (Or.inl le_rfl)
  exact ⟨r, e', e₁, hr, hlimit⟩

/-- `LIMIT 0` lets one row through: on one node, `MATCH (n) RETURN n LIMIT 0` returns it. -/
theorem limit_zero_returns_a_row :
    Reach bincode oneNode ∧ parse "MATCH (n) RETURN n LIMIT 0" = .ok (returnNodes (some 0)) ∧
      ∃ r e', execute bincode (returnNodes none) ∅ oneNode = .ok r e' ∧
        ¬ ∃ e₁, execute bincode (returnNodes (some 0)) ∅ oneNode =
          .ok ⟨r.columns, r.rows.take 0⟩ e₁ := by
  obtain ⟨r, e', hr, -⟩ := rowCount_eq_some (n := 1)
    (by decide +kernel : rowCount (execute bincode (returnNodes none) ∅ oneNode) = some 1)
  refine ⟨reach_oneNode, by decide +kernel, r, e', hr, ?_⟩
  rintro ⟨e₁, hzero⟩
  have hcount : rowCount (execute bincode (returnNodes (some 0)) ∅ oneNode) = some 1 := by
    decide +kernel
  rw [hzero] at hcount
  simp [rowCount] at hcount

end Morceau
