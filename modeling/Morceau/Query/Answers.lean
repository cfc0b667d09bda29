import Morceau.Query.Matching

/-!
# `MATCH` computes the declarative answer

The pattern loop of `find_match_rows` is a natural join: unification by id is compatibility of rows
when the names are used consistently (`unifyBindings_iff_compatible`), so the rows after each
pattern are exactly those that satisfy the patterns so far. The loop that filters by `WHERE` keeps
the order and drops what is not accepted.

The main result is for every reachable engine: with well-named patterns the rows are exactly the
answers, each once. Two queries show that without the condition on the names a row need not satisfy
the patterns.
-/

set_option autoImplicit false

namespace Morceau

open Lib LawfulStorage Interpreter

/-! ## The join -/

theorem unifyBindings_eq_some_iff {a b m : Bindings} :
    unifyBindings a b = some m ↔
      (∀ (x : String) (v w : Binding), a[x]? = some v → b[x]? = some w → v.id = w.id) ∧
        m = merge a b := by
  rw [unifyBindings, Option.ite_none_right_eq_some, Option.some.injEq]
  refine and_congr ?_ eq_comm
  simp only [List.all_eq_true, Prod.forall, Std.ExtTreeMap.mem_toList_iff_getElem?_eq_some]
  refine forall_congr' fun x => ?_
  cases a[x]? with
  | none => simp
  | some v =>
      constructor
      · rintro hids _ w ⟨⟩ hw
        simpa using hids w hw
      · intro hids w hw
        simpa using hids v w rfl hw

section Join

variable {g : PropertyGraph} {params : Params} {whereClause : Option Expr}

/-- The row satisfies the pattern and what `WHERE` says about the id of its first node. -/
def Candidate (g : PropertyGraph) (params : Params) (whereClause : Option Expr) (p : Pattern)
    (row : Bindings) : Prop :=
  PatternHolds g params p row ∧ Pinned whereClause params p.start.var row

/-- The row is a candidate of every pattern. -/
def Joined (g : PropertyGraph) (params : Params) (whereClause : Option Expr)
    (patterns : List Pattern) (row : Bindings) : Prop :=
  ∀ p ∈ patterns, Candidate g params whereClause p row

theorem local_candidate (p : Pattern) : Local p.vars (Candidate g params whereClause p) := by
  rintro a b hab ⟨hholds, hpin⟩
  exact ⟨local_patternHolds p a b hab hholds,
    local_pinned _ _ _ a b (hab.mono (by simp [Pattern.vars])) hpin⟩

theorem local_joined (patterns : List Pattern) :
    Local (patterns.flatMap Pattern.vars) (Joined g params whereClause patterns) := by
  intro a b hab h p hp
  exact local_candidate p a b (hab.mono fun x hx => List.mem_flatMap.2 ⟨p, hp, hx⟩) (h p hp)

theorem WellNamed.of_append {ps qs : List Pattern} (h : WellNamed (ps ++ qs)) : WellNamed ps where
  distinct p hp := h.distinct p (by simp [hp])
  kinds p hp q hq := h.kinds p (by simp [hp]) q (by simp [hq])

/-- Rows of consistently named patterns unify exactly when they are compatible. -/
theorem unifyBindings_iff_compatible {patterns : List Pattern} {p : Pattern}
    (hnamed : WellNamed (patterns ++ [p])) {r c m : Bindings}
    (hr : Binds r (patterns.flatMap Pattern.vars))
    (hjoined : Joined g params whereClause patterns r)
    (hc : Binds c p.vars) (hcand : Candidate g params whereClause p c) :
    unifyBindings r c = some m ↔ Compatible r c ∧ m = merge r c := by
  rw [unifyBindings_eq_some_iff]
  refine and_congr_left fun _ => forall_congr' fun x => forall_congr' fun v => forall_congr'
    fun w => forall_congr' fun hv => forall_congr' fun hw => ⟨fun hid => ?_, fun heq => by rw [heq]⟩
  -- both rows bind `x`, so `x` is a variable of an earlier pattern and of this one
  have hx : x ∈ patterns.flatMap Pattern.vars := by
    rw [← hr x, Std.ExtTreeMap.mem_iff_isSome_getElem?, hv]
    rfl
  have hx' : x ∈ p.vars := by
    rw [← hc x, Std.ExtTreeMap.mem_iff_isSome_getElem?, hw]
    rfl
  obtain ⟨q, hq, hxq⟩ := List.mem_flatMap.1 hx
  exact eq_of_id_eq hnamed (by simp [hq]) (by simp) (hjoined q hq).1 hcand.1 hxq hx' hv hw hid

/-- Joining a listing of rows with the candidates of one more pattern. -/
theorem joinRows_lists {patterns : List Pattern} {p : Pattern}
    (hnamed : WellNamed (patterns ++ [p])) {rows candidates : List Bindings}
    (hrows : ListsExactly (fun r => Binds r (patterns.flatMap Pattern.vars) ∧
      Joined g params whereClause patterns r) rows)
    (hcands : ListsExactly (fun c => Binds c p.vars ∧ Candidate g params whereClause p c)
      candidates) :
    ListsExactly (fun r => Binds r ((patterns ++ [p]).flatMap Pattern.vars) ∧
      Joined g params whereClause (patterns ++ [p]) r) (joinRows rows candidates) := by
  have hjoin := hrows.join hcands (local_joined patterns) (local_candidate p)
    fun r c m hr hjoined hc hcand => unifyBindings_iff_compatible hnamed hr hjoined hc hcand
  refine hjoin.congr fun r => ?_
  simp [Joined, or_imp, forall_and]

/-- The pattern loop lists the rows that satisfy all the patterns. `done` are the patterns joined
so far. -/
theorem Snapshot.Faithful.join_lists {S : Snapshot} (h : S.Faithful) {patterns : List Pattern} :
    ∀ (done : List Pattern) {rows out : List Bindings}, WellNamed (done ++ patterns) →
      ListsExactly (fun r => Binds r (done.flatMap Pattern.vars) ∧
        Joined S.graph params whereClause done r) rows →
      S.join whereClause params patterns rows = .ok out →
      ListsExactly (fun r => Binds r ((done ++ patterns).flatMap Pattern.vars) ∧
        Joined S.graph params whereClause (done ++ patterns) r) out := by
  induction patterns with
  | nil =>
      intro done rows out _ hrows hr
      cases hr
      simpa using hrows
  | cons p patterns ih =>
      intro done rows out hnamed hrows hr
      rw [List.append_cons] at hnamed ⊢
      obtain ⟨candidates, hcands, hr⟩ := exceptBind_eq_ok_iff.1 hr
      have hnext := joinRows_lists hnamed.of_append hrows
        (h.candidates_lists (hnamed.distinct p (by simp)) hcands)
      cases hempty : (joinRows rows candidates).isEmpty with
      | false =>
          simp only [hempty] at hr
          exact ih (done ++ [p]) hnamed hnext hr
      | true =>
          simp only [hempty] at hr
          cases hr
          -- the early exit: the part of a row at the patterns so far would be in the empty join
          refine ListsExactly.nil fun r hrow => ?_
          obtain ⟨hbinds, hjoined⟩ := hrow
          have hsub : (done ++ [p]).flatMap Pattern.vars ⊆
              ((done ++ [p]) ++ patterns).flatMap Pattern.vars := by
            intro x hx
            obtain ⟨q, hq, hxq⟩ := List.mem_flatMap.1 hx
            exact List.mem_flatMap.2 ⟨q, List.mem_append_left _ hq, hxq⟩
          have hpart : Joined S.graph params whereClause (done ++ [p])
              (restrict r ((done ++ [p]).flatMap Pattern.vars)) :=
            local_joined _ r _ (agree_restrict r _).symm fun q hq =>
              hjoined q (List.mem_append_left _ hq)
          have hmem := (hnext.2 _).2 ⟨hbinds.restrict hsub, hpart⟩
          rw [List.isEmpty_iff.1 hempty] at hmem
          cases hmem

end Join

/-! ## The filter -/

section Filter

variable {σ : Type} {e e' : Engine σ} {params : Params} {whereClause : Option Expr}

theorem evalPredicate_eq_true_iff {row : Bindings} :
    evalPredicate e row params whereClause = .ok true ↔
      ∀ expr, whereClause = some expr → evalExpr e row params expr = .ok (.bool true) := by
  cases whereClause with
  | none => simp [evalPredicate]
  | some expr =>
      simp only [evalPredicate, Option.some.injEq, forall_eq']
      cases evalExpr e row params expr with
      | error err => simp [bind, Except.bind]
      | ok v => cases v <;> simp [bind, Except.bind]

/-- An accepted row is kept, and either it reaches the limit or the loop goes on. -/
theorem filterRows_cons_of_accepted {limit : Option Nat} {kept : Nat} {row : Bindings}
    {rows out : List Bindings} (hrow : evalPredicate e row params whereClause = .ok true)
    (h : filterRows e whereClause params limit kept (row :: rows) = .ok out) :
    (limit ≠ none ∧ out = [row]) ∨
      ∃ rest, filterRows e whereClause params limit (kept + 1) rows = .ok rest ∧
        out = row :: rest := by
  cases hrest : filterRows e whereClause params limit (kept + 1) rows with
  | error err =>
      cases limit with
      | none => simp [filterRows, hrow, hrest, bind, Except.bind] at h
      | some l =>
          by_cases hl : l ≤ kept + 1
          · simp [filterRows, hrow, hl, bind, Except.bind, pure, Except.pure] at h
            exact Or.inl ⟨by simp, h.symm⟩
          · simp [filterRows, hrow, hl, hrest, bind, Except.bind] at h
  | ok rest =>
      cases limit with
      | none =>
          simp [filterRows, hrow, hrest, bind, Except.bind, pure, Except.pure] at h
          exact Or.inr ⟨rest, rfl, h.symm⟩
      | some l =>
          by_cases hl : l ≤ kept + 1
          · simp [filterRows, hrow, hl, bind, Except.bind, pure, Except.pure] at h
            exact Or.inl ⟨by simp, h.symm⟩
          · simp [filterRows, hrow, hl, hrest, bind, Except.bind, pure, Except.pure] at h
            exact Or.inr ⟨rest, rfl, h.symm⟩

/-- The filter keeps the order, keeps only accepted rows, and without a limit keeps all of them. -/
theorem filterRows_ok {limit : Option Nat} {rows : List Bindings} :
    ∀ {kept : Nat} {out : List Bindings},
      filterRows e whereClause params limit kept rows = .ok out →
      out.Sublist rows ∧ (∀ r ∈ out, evalPredicate e r params whereClause = .ok true) ∧
        (limit = none → ∀ r ∈ rows, evalPredicate e r params whereClause = .ok true → r ∈ out) := by
  induction rows with
  | nil =>
      intro kept out h
      cases h
      simp
  | cons row rows ih =>
      intro kept out h
      cases hrow : evalPredicate e row params whereClause with
      | error err => simp [filterRows, hrow, bind, Except.bind] at h
      | ok accepted =>
          cases accepted with
          | false =>
              simp only [filterRows, hrow, bind, Except.bind] at h
              obtain ⟨hsub, hacc, hall⟩ := ih h
              refine ⟨hsub.cons row, hacc, fun hlimit r hr hr' => ?_⟩
              rcases List.mem_cons.1 hr with rfl | hr
              · rw [hrow] at hr'
                cases hr'
              · exact hall hlimit r hr hr'
          | true =>
              rcases filterRows_cons_of_accepted hrow h with ⟨hlimit, rfl⟩ | ⟨rest, hrest, rfl⟩
              · refine ⟨by simp, by simp [hrow], fun hnone => absurd hnone hlimit⟩
              · obtain ⟨hsub, hacc, hall⟩ := ih hrest
                refine ⟨hsub.cons_cons row, ?_, fun hlimit r hr hr' => ?_⟩
                · simpa [hrow] using hacc
                · rcases List.mem_cons.1 hr with rfl | hr
                  · exact List.mem_cons_self
                  · exact List.mem_cons_of_mem row (hall hlimit r hr hr')

end Filter

/-! ## Two nodes and an edge -/

/-- Two nodes and an edge from the first to the second. -/
def oneEdge : Engine MemoryStorage :=
  inMemory
    [.query "CREATE (n:N \x7bid: 'x'\x7d)" ∅, .query "CREATE (n:N \x7bid: 'y'\x7d)" ∅,
      .op (.insertEdge (Edge.new "r" "L" "x" "y"))]

theorem reach_oneEdge : Reach bincode oneEdge := reach_inMemory (by decide +kernel)

/-- The pattern `(a)-[r:L]->(b)` and the pattern `(b:N)`. -/
def edgeAndTarget : List Pattern :=
  [.path ⟨"a", none, ∅⟩ [(⟨"r", some "L", ∅⟩, ⟨"b", none, ∅⟩)], .node ⟨"b", some "N", ∅⟩]

theorem wellNamed_edgeAndTarget : WellNamed edgeAndTarget := ⟨by decide, by decide⟩

/-- `WHERE id(a) = 'x'`. -/
def fromX : Expr := .binary .eq (.idOf "a") (.literal (.string "x"))

/-- The rows of a result. -/
def resultRows (r : EStateM.Result InterpretError (Engine MemoryStorage) (List Bindings)) :
    List Bindings :=
  match r with
  | .ok rows _ => rows
  | .error _ _ => []

theorem resultRows_spec {r : EStateM.Result InterpretError (Engine MemoryStorage) (List Bindings)}
    (h : resultRows r ≠ []) : ∃ e', r = .ok (resultRows r) e' := by
  cases r with
  | ok rows e' => exact ⟨e', rfl⟩
  | error err e' => exact absurd rfl h

/-- The table of a result. -/
def resultTable (r : EStateM.Result InterpretError (Engine MemoryStorage) QueryResult) :
    Option QueryResult :=
  match r with
  | .ok q _ => some q
  | .error _ _ => none

theorem resultTable_eq_some
    {r : EStateM.Result InterpretError (Engine MemoryStorage) QueryResult} {q : QueryResult}
    (h : resultTable r = some q) : ∃ e', r = .ok q e' := by
  cases r with
  | ok q' e' =>
      cases h
      exact ⟨e', rfl⟩
  | error err e' => cases h

/-- The number of rows of a result. -/
def rowCount (r : EStateM.Result InterpretError (Engine MemoryStorage) QueryResult) : Option Nat :=
  match r with
  | .ok q _ => some q.rows.length
  | .error _ _ => none

theorem rowCount_eq_some {r : EStateM.Result InterpretError (Engine MemoryStorage) QueryResult}
    {n : Nat} (h : rowCount r = some n) : ∃ q e', r = .ok q e' ∧ q.rows.length = n := by
  cases r with
  | ok q e' => exact ⟨q, e', rfl, Option.some.inj h⟩
  | error err e' => cases h

/-! ## The rows of a query -/

section Results

variable {σ : Type} [LawfulStorage σ] {P : Platform} {e e' : Engine σ} {log : List Mutation}
  {patterns : List Pattern} {whereClause : Option Expr} {params : Params}

/-- The rows that `find_match_rows` filters. -/
theorem findMatchRows_from (h : Core P e log) (hnamed : WellNamed patterns) {limit : Option Nat}
    {out : List Bindings} (hr : findMatchRows P patterns whereClause params limit e = .ok out e') :
    ∃ rows, ListsExactly (fun r => Binds r (patterns.flatMap Pattern.vars) ∧
        Joined (PropertyGraph.ofLog log) params whereClause patterns r) rows ∧
      out.Sublist rows ∧ (∀ r ∈ out, evalPredicate e r params whereClause = .ok true) ∧
      (limit = none → ∀ r ∈ rows, evalPredicate e r params whereClause = .ok true → r ∈ out) := by
  have heval := (h.backed.findMatchRows params whereClause patterns limit).eq_ok hr
  obtain ⟨rows, hrows, hfilter⟩ := exceptBind_eq_ok_iff.1 heval
  have hstart : ListsExactly (fun r => Binds r ([].flatMap Pattern.vars) ∧
      Joined (PropertyGraph.ofLog log) params whereClause [] r) [(∅ : Bindings)] :=
    ⟨by simp, fun r => by simp [Joined, binds_nil]⟩
  exact ⟨rows, h.faithful.join_lists [] hnamed hstart hrows, filterRows_ok hfilter⟩

/-- `MATCH` computes the declarative answer. On a reachable engine, whose reads are those of the
graph of its log, the rows of well-named patterns without a limit are exactly the answers, each
once. -/
theorem match_rows_are_answers (h : Reach P e) :
    ∃ log, contents e.storage = header ++ encodeLog P log ∧ Agrees P e (PropertyGraph.ofLog log) ∧
      ∀ (patterns : List Pattern) (whereClause : Option Expr) (params : Params)
        (rows : List Bindings) (e' : Engine σ), WellNamed patterns →
        findMatchRows P patterns whereClause params none e = .ok rows e' →
        ListsExactly (IsAnswer e (PropertyGraph.ofLog log) patterns whereClause params) rows := by
  obtain ⟨log, hinv⟩ := h.inv
  refine ⟨log, by simpa [storeImage] using hinv.contents, hinv.toCore.agrees, ?_⟩
  intro patterns whereClause params out e' hnamed hr
  obtain ⟨rows, hlists, hsub, haccepted, hall⟩ := findMatchRows_from hinv.toCore hnamed hr
  refine ⟨hlists.1.sublist hsub, fun r => ?_⟩
  constructor
  · intro hmem
    obtain ⟨hbinds, hjoined⟩ := (hlists.2 r).1 (hsub.subset hmem)
    exact ⟨hbinds, fun p hp => (hjoined p hp).1, evalPredicate_eq_true_iff.1 (haccepted r hmem)⟩
  · intro hanswer
    have hjoined : Joined (PropertyGraph.ofLog log) params whereClause patterns r :=
      fun p hp => ⟨hanswer.holds p hp, pinned_of_accepted hanswer.accepted⟩
    exact hall rfl r ((hlists.2 r).2 ⟨hanswer.binds, hjoined⟩)
      (evalPredicate_eq_true_iff.2 hanswer.accepted)

/-- The one row of `MATCH (a)-[r:L]->(b), (b:N) WHERE id(a) = 'x'` on two nodes and an edge is the
only answer. -/
theorem oneEdge_row_is_answer :
    ∃ rows e' log, findMatchRows bincode edgeAndTarget (some fromX) ∅ none oneEdge = .ok rows e' ∧
      rows.length = 1 ∧
      ListsExactly
        (IsAnswer oneEdge (PropertyGraph.ofLog log) edgeAndTarget (some fromX) ∅) rows := by
  have hlen : (resultRows
      (findMatchRows bincode edgeAndTarget (some fromX) ∅ none oneEdge)).length = 1 := by
    decide +kernel
  obtain ⟨e', hr⟩ := resultRows_spec (List.ne_nil_of_length_eq_add_one hlen)
  obtain ⟨log, -, -, hanswers⟩ := match_rows_are_answers reach_oneEdge
  exact ⟨_, e', log, hr, hlen, hanswers _ _ _ _ e' wellNamed_edgeAndTarget hr⟩

end Results

/-- The pattern `(a)-[r]->(a)`. -/
def selfPath : Pattern := .path ⟨"a", none, ∅⟩ [(⟨"r", none, ∅⟩, ⟨"a", none, ∅⟩)]

/-- The pattern `(a)-[x]->(b)`. -/
def edgeNamedX : Pattern := .path ⟨"a", none, ∅⟩ [(⟨"x", none, ∅⟩, ⟨"b", none, ∅⟩)]

/-- The source of the edge `r` and the node `a` of a row. -/
def sourceAndNode (row : Bindings) : Option (String × String) :=
  match row["r"]?, row["a"]? with
  | some (.edge d), some (.node n) => some (d.fromId, n.id)
  | _, _ => none

theorem not_holds_selfPath {row : Bindings} (hrow : sourceAndNode row = some ("x", "y"))
    (g : PropertyGraph) : ¬ PatternHolds g ∅ selfPath row := by
  rintro ⟨-, ⟨_, s, d, t, -, hs, hd, -, hop⟩, -⟩
  -- the hop starts at the node that `a` is bound to, which is its target
  have hs : row["a"]? = some (.node s) := hs
  have hd : row["r"]? = some (.edge d) := hd
  simp only [sourceAndNode, hs, hd, Option.some.injEq, Prod.mk.injEq] at hrow
  rw [hop.fromSource, hrow.2] at hrow
  simp at hrow

/-- The row binds `x` to a node. -/
def nodeAtX (row : Bindings) : Bool :=
  match row["x"]? with
  | some (.node _) => true
  | _ => false

/-- Names that are not used well. `MATCH (a)-[r]->(a)` finds the edge from `x` to `y`, with `a`
bound to `y` only; and `MATCH (x), (a)-[x]->(b)` takes a node and an edge with the same id for one
entity. In no graph do these rows satisfy the patterns. -/
theorem row_of_repeated_name :
    (Reach bincode oneEdge ∧ ∃ rows e', findMatchRows bincode [selfPath] none ∅ none oneEdge =
        .ok rows e' ∧ ∃ row ∈ rows, ∀ g, ¬ PatternHolds g ∅ selfPath row) ∧
    (Reach bincode selfLoop ∧ ∃ rows e',
      findMatchRows bincode [.node ⟨"x", none, ∅⟩, edgeNamedX] none ∅ none selfLoop = .ok rows e' ∧
        ∃ row ∈ rows, ∀ g, ¬ PatternHolds g ∅ edgeNamedX row) := by
  constructor
  · have hrows : ∃ row ∈ resultRows (findMatchRows bincode [selfPath] none ∅ none oneEdge),
        sourceAndNode row = some ("x", "y") := by decide +kernel
    obtain ⟨row, hmem, hrow⟩ := hrows
    obtain ⟨e', hr⟩ := resultRows_spec (List.ne_nil_of_mem hmem)
    exact ⟨reach_oneEdge, _, e', hr, row, hmem, not_holds_selfPath hrow⟩
  · have hrows : ∃ row ∈ resultRows
        (findMatchRows bincode [.node ⟨"x", none, ∅⟩, edgeNamedX] none ∅ none selfLoop),
        nodeAtX row = true := by decide +kernel
    obtain ⟨row, hmem, hrow⟩ := hrows
    obtain ⟨e', hr⟩ := resultRows_spec (List.ne_nil_of_mem hmem)
    refine ⟨reach_inMemory (by decide +kernel), _, e', hr, row, hmem, ?_⟩
    rintro g ⟨-, ⟨_, s, d, t, -, -, hd, -⟩, -⟩
    have hd : row["x"]? = some (.edge d) := hd
    simp [nodeAtX, hd] at hrow

end Morceau
