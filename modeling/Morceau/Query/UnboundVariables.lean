import Morceau.Query.OrderIndependence

/-!
# Names that no pattern binds

There is no pass that resolves names: each clause looks a name up when it is evaluated on a row. The
rows of `MATCH` bind variables of the patterns only (`mem_vars_of_join`), and an expression, a sort
or a projection that succeeds has found every name in it (`bound_of_evalExpr` and its companions),
so a name that no pattern binds is reported as soon as there is a row to evaluate on. `count(v)`
alone does not look at `v`; a statement that mentions a name nowhere else fails for the reasons that
any statement with aggregates does (`Evaluable`).
-/

set_option autoImplicit false

namespace Morceau

open Lib LawfulStorage Interpreter

/-! ## Names -/

/-- The variables of an expression. -/
def Expr.vars : Expr → List String
  | .literal _ => []
  | .param _ => []
  | .property var _ => [var]
  | .idOf var => [var]
  | .binary _ lhs rhs => lhs.vars ++ rhs.vars
  | .not inner => inner.vars

namespace ReturnItem

/-- The variable of an item. -/
def vars : ReturnItem → List String
  | .var v => [v]
  | .property v _ => [v]
  | .count target => target.toList
  | .collect (.var v) => [v]
  | .collect (.property v _) => [v]

/-- The variable that an item looks up. -/
def lookedUp : ReturnItem → List String
  | .count _ => []
  | item => item.vars

end ReturnItem

/-- The variables of `WHERE`. -/
def whereVars (whereClause : Option Expr) : List String := (whereClause.map Expr.vars).getD []

/-- The variables of `ORDER BY`. -/
def orderVars (orderBy : Option OrderBy) : List String :=
  (orderBy.map fun order => order.expr.vars).getD []

/-! ## What succeeds has found its names -/

section Bound

variable {σ : Type} {e : Engine σ} {params : Params} {row : Bindings} {rows : List Bindings}
  {x : String}

theorem mem_of_getElem?_eq_some {b : Binding} (h : row[x]? = some b) : x ∈ row := by
  rw [Std.ExtTreeMap.mem_iff_isSome_getElem?, h]
  rfl

theorem bound_of_resolvePropertyPath {path : List String} {v : Value}
    (h : resolvePropertyPath e row x path = .ok v) : x ∈ row := by
  cases hx : row[x]? with
  | some b => exact mem_of_getElem?_eq_some hx
  | none =>
      rw [resolvePropertyPath, hx] at h
      cases h

theorem bound_of_evalExpr {expr : Expr} :
    ∀ {v : Value}, evalExpr e row params expr = .ok v → ∀ x ∈ expr.vars, x ∈ row := by
  induction expr with
  | literal v => exact fun _ x hx => absurd hx List.not_mem_nil
  | param name => exact fun _ x hx => absurd hx List.not_mem_nil
  | property var path =>
      intro v h x hx
      rw [List.mem_singleton.1 hx]
      exact bound_of_resolvePropertyPath h
  | idOf var =>
      intro v h x hx
      rw [List.mem_singleton.1 hx]
      cases hvar : row[var]? with
      | some b => exact mem_of_getElem?_eq_some hvar
      | none =>
          rw [evalExpr, hvar] at h
          cases h
  | binary op lhs rhs ihl ihr =>
      -- both sides are evaluated, whatever the operator is
      intro v h x hx
      obtain ⟨l, hl, h⟩ := exceptBind_eq_ok_iff.1 h
      obtain ⟨r, hr, -⟩ := exceptBind_eq_ok_iff.1 h
      rcases List.mem_append.1 hx with hx | hx
      · exact ihl hl x hx
      · exact ihr hr x hx
  | not inner ih =>
      intro v h x hx
      obtain ⟨i, hi, -⟩ := exceptBind_eq_ok_iff.1 h
      exact ih hi x hx

theorem bound_of_evalPredicate {whereClause : Option Expr} {b : Bool}
    (h : evalPredicate e row params whereClause = .ok b) :
    ∀ x ∈ whereVars whereClause, x ∈ row := by
  cases whereClause with
  | none => exact fun x hx => absurd hx List.not_mem_nil
  | some expr =>
      obtain ⟨v, hv, -⟩ := exceptBind_eq_ok_iff.1 h
      exact bound_of_evalExpr hv

/-- The filter evaluates `WHERE` on the first row under any limit. -/
theorem bound_of_filterRows {whereClause : Option Expr} {limit : Option Nat} {kept : Nat}
    {out : List Bindings} (h : filterRows e whereClause params limit kept (row :: rows) = .ok out) :
    ∀ x ∈ whereVars whereClause, x ∈ row := by
  obtain ⟨b, hb, -⟩ := exceptBind_eq_ok_iff.1 h
  exact bound_of_evalPredicate hb

theorem bound_of_orderedRows {P : Platform} {orderBy : Option OrderBy} {out : List Bindings}
    (h : orderedRows P e orderBy params rows = .ok out) (hrow : row ∈ rows) :
    ∀ x ∈ orderVars orderBy, x ∈ row := by
  cases orderBy with
  | none => exact fun x hx => absurd hx List.not_mem_nil
  | some order =>
      obtain ⟨keyed, -, hkeyed, -⟩ := sortRows_eq_ok_iff.1 h
      obtain ⟨kr, -, hkr⟩ := mapM_ok hkeyed row hrow
      exact bound_of_evalExpr (keyedRow_eq_ok_iff.1 hkr).1

theorem bound_of_collectOne {target : CollectTarget} {v : Value}
    (h : collectOne e row target = .ok v) :
    ∀ x ∈ (ReturnItem.collect target).lookedUp, x ∈ row := by
  cases target with
  | var name =>
      intro x hx
      rw [List.mem_singleton.1 hx]
      cases hname : row[name]? with
      | some b => exact mem_of_getElem?_eq_some hname
      | none =>
          rw [collectOne, hname] at h
          cases h
  | property name path =>
      intro x hx
      rw [List.mem_singleton.1 hx]
      exact bound_of_resolvePropertyPath h

/-- A count looks nothing up; the other aggregates look at every row. -/
theorem bound_of_aggregateCell {item : ReturnItem} {cell : ResultCell}
    (h : aggregateCell e rows item = .ok cell) (hrow : row ∈ rows) :
    ∀ x ∈ item.lookedUp, x ∈ row := by
  cases item with
  | var v => cases h
  | property v path => cases h
  | count target => exact fun x hx => absurd hx List.not_mem_nil
  | collect target =>
      obtain ⟨list, hlist, -⟩ := exceptBind_eq_ok_iff.1 h
      obtain ⟨v, -, hv⟩ := mapM_ok hlist row hrow
      exact bound_of_collectOne hv

theorem bound_of_project {item : ReturnItem} {cell : ResultCell}
    (h : project e row item = .ok cell) : ∀ x ∈ item.lookedUp, x ∈ row := by
  cases item with
  | var v =>
      intro x hx
      rw [List.mem_singleton.1 hx]
      cases hv : row[v]? with
      | some b => exact mem_of_getElem?_eq_some hv
      | none =>
          rw [project, hv] at h
          cases h
  | property v path =>
      intro x hx
      rw [List.mem_singleton.1 hx]
      obtain ⟨value, hvalue, -⟩ := exceptBind_eq_ok_iff.1 h
      exact bound_of_resolvePropertyPath hvalue
  | count target => cases h
  | collect target => cases h

theorem bound_of_projectedRows {items : List ReturnItem} {out : List (List ResultCell)}
    (h : projectedRows e items none rows = .ok out) (hrow : row ∈ rows) {item : ReturnItem}
    (hitem : item ∈ items) : ∀ x ∈ item.lookedUp, x ∈ row := by
  rw [projectedRows] at h
  split at h
  · rw [projectAggregateRow_eq] at h
    obtain ⟨cells, hcells, -⟩ := exceptBind_eq_ok_iff.1 h
    obtain ⟨cell, -, hcell⟩ := mapM_ok hcells item hitem
    exact bound_of_aggregateCell hcell hrow
  · rw [projectRows_eq_collectLoop, collectLoop_none] at h
    cases hall : rows.mapM (projectedRow e items) with
    | error err =>
        rw [hall] at h
        cases h
    | ok all =>
        obtain ⟨cells, -, hcells⟩ := mapM_ok hall row hrow
        obtain ⟨cells, hcells, -⟩ := exceptBind_eq_ok_iff.1 hcells
        obtain ⟨cell, -, hcell⟩ := mapM_ok hcells item hitem
        exact bound_of_project hcell

end Bound

/-! ## The rows bind variables of the patterns -/

section Rows

variable {S : Snapshot} {params : Params} {whereClause : Option Expr} {patterns : List Pattern}

theorem mem_insert_cases {row : Bindings} {x y : String} {b : Binding} (h : y ∈ row.insert x b) :
    y = x ∨ y ∈ row := by
  rcases Std.ExtTreeMap.mem_insert.1 h with heq | hmem
  · exact .inl (Std.LawfulEqCmp.eq_of_compare heq).symm
  · exact .inr hmem

/-- A row of `MATCH` binds no name that is not a variable of the patterns. -/
theorem mem_vars_of_join {rows : List Bindings}
    (hjoin : S.join whereClause params patterns [∅] = .ok rows) :
    ∀ row ∈ rows, ∀ x ∈ row, x ∈ patterns.flatMap Pattern.vars := by
  refine Snapshot.join_induction
    (Q := fun rows => ∀ row ∈ rows, ∀ x ∈ row, x ∈ patterns.flatMap Pattern.vars)
    (by simp) ?_ ?_ ?_ (by simp) hjoin
  · intro p hp found row hrow x hx
    obtain ⟨n, -, rfl⟩ := List.mem_map.1 hrow
    rcases mem_insert_cases hx with rfl | hx
    · exact List.mem_flatMap.2 ⟨p, hp, List.mem_cons_self⟩
    · simp at hx
  · intro p hp hop hhop prevVar edgeProps rows hrows m hm x hx
    obtain ⟨row, hrow, hm⟩ := List.mem_flatMap.1 hm
    obtain ⟨d, id, t, -, rfl⟩ := Snapshot.mem_hopRows hm
    have hvars : ∀ y ∈ hopVars hop, y ∈ patterns.flatMap Pattern.vars := fun y hy =>
      List.mem_flatMap.2 ⟨p, hp, List.mem_cons_of_mem _ (List.mem_flatMap.2 ⟨hop, hhop, hy⟩)⟩
    rcases mem_insert_cases hx with rfl | hx
    · exact hvars _ (by simp [hopVars])
    · rcases mem_insert_cases hx with rfl | hx
      · exact hvars _ (by simp [hopVars])
      · exact hrows row hrow x hx
  · intro rows cands hrows hcands m hm x hx
    obtain ⟨r, hr, t, ht, hm⟩ := Snapshot.mem_joinRows.1 hm
    obtain ⟨-, rfl⟩ := unifyBindings_eq_some_iff.1 hm
    rw [Std.ExtTreeMap.mem_iff_isSome_getElem?, getElem?_merge, Option.isSome_or,
      Bool.or_eq_true] at hx
    rcases hx with hx | hx
    · exact hrows r hr x (Std.ExtTreeMap.mem_iff_isSome_getElem?.2 hx)
    · exact hcands t ht x (Std.ExtTreeMap.mem_iff_isSome_getElem?.2 hx)

end Rows

/-! ## Statements with aggregates -/

section Aggregates

variable {σ : Type} {e : Engine σ} {params : Params} {whereClause : Option Expr}

/-- The row passes `WHERE`. -/
def passes (e : Engine σ) (params : Params) (whereClause : Option Expr) (row : Bindings) : Bool :=
  match evalPredicate e row params whereClause with
  | .ok b => b
  | .error _ => false

theorem passes_of_eq_ok {row : Bindings} {b : Bool}
    (h : evalPredicate e row params whereClause = .ok b) : passes e params whereClause row = b := by
  rw [passes, h]

theorem passes_iff {row : Bindings} :
    passes e params whereClause row = true ↔ evalPredicate e row params whereClause = .ok true := by
  constructor
  · intro h
    rw [passes] at h
    split at h
    · rename_i b hb
      rw [hb, h]
    · cases h
  · exact passes_of_eq_ok

/-- Without a limit the filter evaluates `WHERE` on every row. -/
theorem filterRows_eq_ok_iff {rows : List Bindings} : ∀ {kept : Nat} {out : List Bindings},
    filterRows e whereClause params none kept rows = .ok out ↔
      (∀ row ∈ rows, ∃ b, evalPredicate e row params whereClause = .ok b) ∧
        out = rows.filter (passes e params whereClause) := by
  induction rows with
  | nil =>
      intro kept out
      rw [filterRows, Except.ok.injEq, eq_comm]
      simp
  | cons row rows ih =>
      intro kept out
      rw [filterRows, exceptBind_eq_ok_iff, List.forall_mem_cons]
      constructor
      · rintro ⟨b, hb, h⟩
        cases b with
        | false =>
            obtain ⟨hall, rfl⟩ := ih.1 h
            exact ⟨⟨⟨false, hb⟩, hall⟩, by simp [passes_of_eq_ok hb]⟩
        | true =>
            obtain ⟨rest, hrest, h⟩ := exceptBind_eq_ok_iff.1 h
            obtain ⟨hall, rfl⟩ := ih.1 hrest
            cases h
            exact ⟨⟨⟨true, hb⟩, hall⟩, by simp [passes_of_eq_ok hb]⟩
      · rintro ⟨⟨⟨b, hb⟩, hall⟩, rfl⟩
        refine ⟨b, hb, ?_⟩
        cases b with
        | false => exact ih.2 ⟨hall, by simp [passes_of_eq_ok hb]⟩
        | true =>
            refine exceptBind_eq_ok_iff.2 ⟨_, ih.2 ⟨hall, rfl⟩, ?_⟩
            simp only [List.filter_cons, passes_of_eq_ok hb, if_true]
            rfl

/-- Everything that a statement with aggregates evaluates, over the joined rows: `WHERE` on each of
them, the keys of those that pass, which the platform can sort, and what is collected from them.
There is no item but aggregates. -/
structure Evaluable (P : Platform) (e : Engine σ) (params : Params) (whereClause : Option Expr)
    (orderBy : Option OrderBy) (items : List ReturnItem) (rows : List Bindings) : Prop where
  predicate : ∀ row ∈ rows, ∃ b, evalPredicate e row params whereClause = .ok b
  key : ∀ order, orderBy = some order → ∀ row ∈ rows,
    evalPredicate e row params whereClause = .ok true →
      ∃ k, evalExpr e row params order.expr = .ok k
  sort : ∀ order, orderBy = some order → ∀ keyed,
    (rows.filter (passes e params whereClause)).mapM (keyedRow e params order) = .ok keyed →
      ∃ sorted, P.sortBy (fun a b => compareForSort a.1 b.1 order.direction) keyed = some sorted
  collect : ∀ target, .collect target ∈ items → ∀ row ∈ rows,
    evalPredicate e row params whereClause = .ok true → ∃ v, collectOne e row target = .ok v
  aggregates : ∀ item ∈ items, isAggregate item = true

/-- The cell of an aggregate over some rows. -/
theorem aggregateCell_succeeds_iff {rows : List Bindings} {item : ReturnItem} :
    (∃ cell, aggregateCell e rows item = .ok cell) ↔ isAggregate item = true ∧
      ∀ target, item = .collect target → ∀ row ∈ rows, ∃ v, collectOne e row target = .ok v := by
  cases item with
  | var v => exact ⟨fun ⟨_, h⟩ => (nomatch h), fun ⟨h, _⟩ => (nomatch h)⟩
  | property v path => exact ⟨fun ⟨_, h⟩ => (nomatch h), fun ⟨h, _⟩ => (nomatch h)⟩
  | count target => exact ⟨fun _ => ⟨rfl, fun _ h => (nomatch h)⟩, fun _ => ⟨_, rfl⟩⟩
  | collect target =>
      constructor
      · rintro ⟨cell, h⟩
        obtain ⟨list, hlist, -⟩ := exceptBind_eq_ok_iff.1 h
        refine ⟨rfl, fun _ heq row hrow => ?_⟩
        cases heq
        obtain ⟨v, -, hv⟩ := mapM_ok hlist row hrow
        exact ⟨v, hv⟩
      · rintro ⟨-, h⟩
        obtain ⟨list, hlist⟩ := mapM_succeeds (h target rfl)
        exact ⟨_, exceptBind_eq_ok_iff.2 ⟨list, hlist, rfl⟩⟩

theorem projectedRows_succeeds_iff {items : List ReturnItem} (hagg : items.any isAggregate = true)
    (limit : Option Nat) {rows : List Bindings} :
    (∃ out, projectedRows e items limit rows = .ok out) ↔
      ∀ item ∈ items, ∃ cell, aggregateCell e rows item = .ok cell := by
  rw [projectedRows, if_pos hagg, projectAggregateRow_eq]
  constructor
  · rintro ⟨out, h⟩ item hitem
    obtain ⟨cells, hcells, -⟩ := exceptBind_eq_ok_iff.1 h
    obtain ⟨cell, -, hcell⟩ := mapM_ok hcells item hitem
    exact ⟨cell, hcell⟩
  · intro h
    obtain ⟨cells, hcells⟩ := mapM_succeeds h
    exact ⟨_, exceptBind_eq_ok_iff.2 ⟨cells, hcells, rfl⟩⟩

/-- The rows can be ordered if each of them has a key and the platform can sort the keys. -/
theorem orderedRows_succeeds_iff {P : Platform} {orderBy : Option OrderBy} {rows : List Bindings} :
    (∃ ordered, orderedRows P e orderBy params rows = .ok ordered) ↔
      ∀ order, orderBy = some order →
        (∀ row ∈ rows, ∃ k, evalExpr e row params order.expr = .ok k) ∧
        ∀ keyed, rows.mapM (keyedRow e params order) = .ok keyed → ∃ sorted,
          P.sortBy (fun a b => compareForSort a.1 b.1 order.direction) keyed = some sorted := by
  constructor
  · rintro ⟨ordered, h⟩ order rfl
    obtain ⟨keyed, sorted, hkeyed, hsorted, -⟩ := sortRows_eq_ok_iff.1 h
    refine ⟨fun row hrow => ?_, fun keyed' hkeyed' => ?_⟩
    · obtain ⟨kr, -, hkr⟩ := mapM_ok hkeyed row hrow
      exact ⟨kr.1, (keyedRow_eq_ok_iff.1 hkr).1⟩
    · cases hkeyed'.symm.trans hkeyed
      exact ⟨sorted, hsorted⟩
  · intro h
    cases orderBy with
    | none => exact ⟨rows, rfl⟩
    | some order =>
        obtain ⟨hkey, hsort⟩ := h order rfl
        have hpairs : ∀ row ∈ rows, ∃ kr, keyedRow e params order row = .ok kr := by
          intro row hrow
          obtain ⟨k, hk⟩ := hkey row hrow
          exact ⟨(k, row), keyedRow_eq_ok_iff.2 ⟨hk, rfl⟩⟩
        obtain ⟨keyed, hkeyed⟩ := mapM_succeeds hpairs
        obtain ⟨sorted, hsorted⟩ := hsort keyed hkeyed
        exact ⟨_, sortRows_eq_ok_iff.2 ⟨keyed, sorted, hkeyed, hsorted, rfl⟩⟩

/-- A statement with an aggregate succeeds exactly if all that it evaluates can be evaluated. -/
theorem matchReturn_succeeds_iff {P : Platform} {S : Snapshot} {patterns : List Pattern}
    {items : List ReturnItem} {orderBy : Option OrderBy} {limit : Option Nat}
    {rows : List Bindings} (hjoin : S.join whereClause params patterns [∅] = .ok rows)
    (hagg : items.any isAggregate = true) :
    (∃ r, S.matchReturn P e patterns whereClause items orderBy limit params = .ok r) ↔
      Evaluable P e params whereClause orderBy items rows := by
  -- an aggregate needs every row, so the filter has no limit
  have hmatch : ∀ {kept}, S.matchRows e patterns whereClause params
      (inlineLimit items orderBy limit) = .ok kept ↔
        (∀ row ∈ rows, ∃ b, evalPredicate e row params whereClause = .ok b) ∧
          kept = rows.filter (passes e params whereClause) := by
    intro kept
    rw [inlineLimit_of_aggregate hagg, Snapshot.matchRows, hjoin]
    exact filterRows_eq_ok_iff
  have hmem : ∀ {row}, row ∈ rows.filter (passes e params whereClause) ↔
      row ∈ rows ∧ evalPredicate e row params whereClause = .ok true := by
    intro row
    rw [List.mem_filter, passes_iff]
  constructor
  · rintro ⟨r, h⟩
    obtain ⟨kept, ordered, hkept, hordered, hout, -⟩ := Snapshot.matchReturn_eq_ok_iff.1 h
    obtain ⟨hpredicate, rfl⟩ := hmatch.1 hkept
    have horder := orderedRows_succeeds_iff.1 ⟨ordered, hordered⟩
    have hcells := (projectedRows_succeeds_iff hagg limit).1 ⟨r.rows, hout⟩
    have hperm := perm_of_orderedRows hordered
    refine ⟨hpredicate, fun order heq row hrow htrue => ?_, fun order heq => (horder order heq).2,
      fun target hitem row hrow htrue => ?_, fun item hitem => ?_⟩
    · exact (horder order heq).1 row (hmem.2 ⟨hrow, htrue⟩)
    · exact (aggregateCell_succeeds_iff.1 (hcells _ hitem)).2 target rfl row
        (hperm.mem_iff.2 (hmem.2 ⟨hrow, htrue⟩))
    · exact (aggregateCell_succeeds_iff.1 (hcells item hitem)).1
  · intro h
    obtain ⟨ordered, hordered⟩ := orderedRows_succeeds_iff.2 fun order heq =>
      ⟨fun row hrow => h.key order heq row (hmem.1 hrow).1 (hmem.1 hrow).2, h.sort order heq⟩
    -- the sort only moves the rows, and each of them passes
    have hperm := perm_of_orderedRows hordered
    have hcells : ∀ item ∈ items, ∃ cell, aggregateCell e ordered item = .ok cell := by
      intro item hitem
      refine aggregateCell_succeeds_iff.2 ⟨h.aggregates item hitem, fun target heq row hrow => ?_⟩
      obtain ⟨hrow, htrue⟩ := hmem.1 (hperm.mem_iff.1 hrow)
      exact h.collect target (heq ▸ hitem) row hrow htrue
    obtain ⟨out, hout⟩ := (projectedRows_succeeds_iff hagg limit).2 hcells
    exact ⟨⟨items.map returnItemColumnName, out⟩, Snapshot.matchReturn_eq_ok_iff.2
      ⟨_, ordered, hmatch.2 ⟨h.predicate, rfl⟩, hordered, hout, rfl⟩⟩

theorem Evaluable.congr {P : Platform} {orderBy : Option OrderBy} {items : List ReturnItem}
    {rows : List Bindings} {τ : Type} {e' : Engine τ} (hmeta : SameMetadata e e')
    (h : Evaluable P e params whereClause orderBy items rows) :
    Evaluable P e' params whereClause orderBy items rows := by
  have hpasses : passes e params whereClause = passes e' params whereClause := by
    funext row
    simp only [passes, hmeta.evalPredicate]
  have hkeyed : ∀ order, keyedRow e params order = keyedRow e' params order := by
    intro order
    funext row
    simp only [keyedRow, hmeta.evalExpr]
  obtain ⟨hpredicate, hkey, hsort, hcollect, haggregates⟩ := h
  simp only [hmeta.evalPredicate, hmeta.evalExpr, hmeta.collectOne, hpasses, hkeyed] at *
  exact ⟨hpredicate, hkey, hsort, hcollect, haggregates⟩

end Aggregates

/-! ## Statements -/

section Results

/-- The variables that a statement mentions outside its patterns. -/
def mentionedVars (whereClause : Option Expr) (orderBy : Option OrderBy) (items : List ReturnItem) :
    List String :=
  whereVars whereClause ++ orderVars orderBy ++ items.flatMap ReturnItem.vars

/-- The variables that a statement looks up outside its patterns: all but the arguments of counts.
-/
def lookedUpVars (whereClause : Option Expr) (orderBy : Option OrderBy) (items : List ReturnItem) :
    List String :=
  whereVars whereClause ++ orderVars orderBy ++ items.flatMap ReturnItem.lookedUp

/-- The statement returns an error. -/
def Fails {σ : Type} [Storage σ] (P : Platform) (stmt : Statement) (params : Params)
    (e : Engine σ) : Prop :=
  ∃ err e', execute P stmt params e = .error err e'

variable {σ : Type} {e : Engine σ} {params : Params} {whereClause : Option Expr}
  {patterns : List Pattern} {items : List ReturnItem} {orderBy : Option OrderBy}
  {limit : Option Nat} {v : String}

/-- A statement that succeeds has found on its rows what it looks up. -/
theorem bound_of_matchReturn {S : Snapshot} {rows : List Bindings} {r : QueryResult}
    (hjoin : S.join whereClause params patterns [∅] = .ok rows) (hrows : rows ≠ [])
    (hpass : v ∉ whereVars whereClause →
      limit = none ∧ ∃ row ∈ rows, evalPredicate e row params whereClause = .ok true)
    {P : Platform} (h : S.matchReturn P e patterns whereClause items orderBy limit params = .ok r)
    (hv : v ∈ lookedUpVars whereClause orderBy items) : ∃ row ∈ rows, v ∈ row := by
  obtain ⟨kept, ordered, hkept, hordered, hout, -⟩ := Snapshot.matchReturn_eq_ok_iff.1 h
  rw [Snapshot.matchRows, hjoin] at hkept
  have hkept : filterRows e whereClause params (inlineLimit items orderBy limit) 0 rows =
      .ok kept := hkept
  by_cases hwhere : v ∈ whereVars whereClause
  · obtain ⟨row, rest, rfl⟩ := List.exists_cons_of_ne_nil hrows
    exact ⟨row, List.mem_cons_self, bound_of_filterRows hkept v hwhere⟩
  · -- a row that passes goes through the sort and the projection
    obtain ⟨rfl, row, hrow, htrue⟩ := hpass hwhere
    have hmem : row ∈ kept :=
      (filterRows_ok hkept).2.2 (inlineLimit_none items orderBy) row hrow htrue
    refine ⟨row, hrow, ?_⟩
    rcases List.mem_append.1 hv with hv | hv
    · rcases List.mem_append.1 hv with hv | hv
      · exact absurd hv hwhere
      · exact bound_of_orderedRows hordered hmem v hv
    · obtain ⟨item, hitem, hv⟩ := List.mem_flatMap.1 hv
      exact bound_of_projectedRows hout ((perm_of_orderedRows hordered).mem_iff.2 hmem) hitem v hv

variable [LawfulStorage σ] {P : Platform}

theorem fails_iff {g : PropertyGraph} (h : Backed P e g) :
    Fails P (.matchReturn patterns whereClause items orderBy limit) params e ↔
      ¬∃ r, (e.snapshot g).matchReturn P e patterns whereClause items orderBy limit params =
        .ok r := by
  have heval := h.execMatchReturn params whereClause patterns items orderBy limit
  simp only [← heval.ok_iff]
  constructor
  · rintro ⟨err, e', herr⟩ ⟨r, e'', hok⟩
    cases (show _ = _ from herr).symm.trans hok
  · intro hnot
    cases hexec : execute P (.matchReturn patterns whereClause items orderBy limit) params e with
    | ok r e' => exact absurd ⟨r, e', hexec⟩ hnot
    | error err e' => exact ⟨err, e', hexec⟩

/-- A variable that is mentioned and not looked up is the argument of a count. -/
theorem count_of_not_lookedUp (hmentioned : v ∈ mentionedVars whereClause orderBy items)
    (hnot : v ∉ lookedUpVars whereClause orderBy items) : .count (some v) ∈ items := by
  rcases List.mem_append.1 hmentioned with hv | hv
  · exact absurd (List.mem_append_left _ hv) hnot
  · obtain ⟨item, hitem, hv⟩ := List.mem_flatMap.1 hv
    have hskip : v ∉ item.lookedUp := fun hv =>
      hnot (List.mem_append_right _ (List.mem_flatMap.2 ⟨item, hitem, hv⟩))
    cases item with
    | count target =>
        rw [← Option.mem_toList.1 hv]
        exact hitem
    | var name => exact absurd hv hskip
    | property name path => exact absurd hv hskip
    | collect target => exact absurd hv hskip

/-- When an unbound variable is reported. The join of the patterns has a row, and if the variable is
not mentioned in `WHERE`, a row passes `WHERE` and there is no limit. Then the statement fails
exactly if it mentions the variable other than as the argument of a count, or something else in it
cannot be evaluated. -/
theorem unbound_variable_reported_iff (h : Reach P e) {rows : List Bindings} {e₁ : Engine σ}
    (hunbound : v ∉ patterns.flatMap Pattern.vars)
    (hmentioned : v ∈ mentionedVars whereClause orderBy items)
    (hjoin : joinPatterns P whereClause params patterns [∅] e = .ok rows e₁) (hrows : rows ≠ [])
    (hpass : v ∉ whereVars whereClause →
      limit = none ∧ ∃ row ∈ rows, evalPredicate e₁ row params whereClause = .ok true) :
    (Fails P (.matchReturn patterns whereClause items orderBy limit) params e ↔
      v ∈ lookedUpVars whereClause orderBy items ∨
        ¬Evaluable P e₁ params whereClause orderBy items rows) ∧
      (v ∉ lookedUpVars whereClause orderBy items → .count (some v) ∈ items) := by
  obtain ⟨log, hinv⟩ := h.inv
  have hbacked := hinv.toCore.backed
  obtain ⟨e₂, hq, hrun⟩ := Backed.joinPatterns params whereClause patterns [∅] hbacked
  rw [hjoin] at hrun
  obtain ⟨hsnapshot, rfl⟩ := outcome_eq_ok_iff.1 hrun.symm
  refine ⟨?_, count_of_not_lookedUp hmentioned⟩
  rw [fails_iff hbacked]
  by_cases hv : v ∈ lookedUpVars whereClause orderBy items
  · refine ⟨fun _ => .inl hv, ?_⟩
    rintro - ⟨r, hr⟩
    -- a success would have found the variable on a row
    have hpass' : v ∉ whereVars whereClause →
        limit = none ∧ ∃ row ∈ rows, evalPredicate e row params whereClause = .ok true := by
      intro hnot
      obtain ⟨hlimit, row, hrow, htrue⟩ := hpass hnot
      exact ⟨hlimit, row, hrow, (hq.sameMetadata.evalPredicate row params whereClause).trans htrue⟩
    obtain ⟨row, hrow, hbound⟩ := bound_of_matchReturn hsnapshot hrows hpass' hr hv
    exact hunbound (mem_vars_of_join hsnapshot row hrow v hbound)
  · -- the variable is the argument of a count, so there is an aggregate
    have hagg : items.any isAggregate = true :=
      List.any_eq_true.2 ⟨_, count_of_not_lookedUp hmentioned hv, rfl⟩
    rw [matchReturn_succeeds_iff hsnapshot hagg]
    have hsame : Evaluable P e params whereClause orderBy items rows ↔
        Evaluable P e₂ params whereClause orderBy items rows :=
      ⟨Evaluable.congr hq.sameMetadata, Evaluable.congr hq.sameMetadata.symm⟩
    rw [hsame, or_iff_right hv]

end Results

/-- The pattern `(n)`. -/
def anyNode : List Pattern := [.node ⟨"n", none, ∅⟩]

theorem joinPatterns_oneNode : ∃ rows e₁,
    joinPatterns bincode none ∅ anyNode [∅] oneNode = .ok rows e₁ ∧ rows ≠ [] := by
  have hne : resultRows (joinPatterns bincode none ∅ anyNode [∅] oneNode) ≠ [] := by
    decide +kernel
  obtain ⟨e₁, hjoin⟩ := resultRows_spec hne
  exact ⟨_, e₁, hjoin, hne⟩

/-- `MATCH (n) RETURN collect(m.p)` fails on one node. -/
theorem collect_of_unbound_fails :
    Fails bincode (.matchReturn anyNode none [.collect (.property "m" ["p"])] none none) ∅
      oneNode := by
  obtain ⟨rows, e₁, hjoin, hne⟩ := joinPatterns_oneNode
  refine (unbound_variable_reported_iff (v := "m") reach_oneNode (by decide) (by decide) hjoin hne
    fun _ => ⟨rfl, ?_⟩).1.2 (.inl (by decide))
  obtain ⟨row, hrow⟩ := List.exists_mem_of_ne_nil rows hne
  exact ⟨row, hrow, rfl⟩

/-- `MATCH (n) RETURN count(m)` counts the rows of `n`. -/
theorem count_of_unbound_succeeds :
    Reach bincode oneNode ∧
      parse "MATCH (n) RETURN count(m)" =
        .ok (.matchReturn anyNode none [.count (some "m")] none none) ∧
      "m" ∉ anyNode.flatMap Pattern.vars ∧ "m" ∈ mentionedVars none none [.count (some "m")] ∧
      (∃ rows e₁, joinPatterns bincode none ∅ anyNode [∅] oneNode = .ok rows e₁ ∧ rows ≠ []) ∧
      ∃ e', execute bincode (.matchReturn anyNode none [.count (some "m")] none none) ∅ oneNode =
        .ok ⟨["count(m)"], [[.value (.i64 1)]]⟩ e' := by
  refine ⟨reach_oneNode, by decide +kernel, by decide, by decide, joinPatterns_oneNode, ?_⟩
  exact resultTable_eq_some (by decide +kernel)

end Morceau
