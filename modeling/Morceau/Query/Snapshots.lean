import Morceau.GraphRefinement
import Morceau.Lib.Loops

/-!
# What a query sees

A query reads the engine through `iter_nodes`, `get_node` and `iter_edges_from`. While it only
reads, their answers do not change, so together they are one value, a `Snapshot`: the graph that the
lookups answer from, and the orders in which the nodes and the outgoing edges are enumerated.
`MATCH` over a snapshot is a pure function (`Snapshot.join`), and an expression consults the engine
for the flags and the schema only (`SameMetadata`).

The main results are that on an engine backed by a graph `find_match_rows` and `exec_match_return`
evaluate to those pure functions, whatever they return (`Backed.findMatchRows`,
`Backed.execMatchReturn`). Everything about the rows of a query can then be said without the engine.
-/

set_option autoImplicit false

namespace Morceau

open Lib LawfulStorage Interpreter

/-! ## Expressions and the engine -/

/-- The engines agree in what an expression can ask for: the flags and the schema. -/
structure SameMetadata {σ τ : Type} (e : Engine σ) (e' : Engine τ) : Prop where
  flags : ∀ id, e.isForeshadow id = e'.isForeshadow id
  schema : e.currentSchema = e'.currentSchema

namespace SameMetadata

variable {σ τ : Type} {e : Engine σ} {e' : Engine τ}

theorem symm (h : SameMetadata e e') : SameMetadata e' e :=
  ⟨fun id => (h.flags id).symm, h.schema.symm⟩

theorem resolvePropertyPath (h : SameMetadata e e') (row : Bindings) (var : String)
    (path : List String) :
    Interpreter.resolvePropertyPath e row var path =
      Interpreter.resolvePropertyPath e' row var path := by
  have hmeta : ∀ n rest, morceauMetadata e n rest = morceauMetadata e' n rest := by
    intro n rest
    unfold morceauMetadata
    rw [h.flags, h.schema]
  unfold Interpreter.resolvePropertyPath resolveNodePropertyPath
  simp only [hmeta]

theorem evalExpr (h : SameMetadata e e') (row : Bindings) (params : Params) (expr : Expr) :
    Interpreter.evalExpr e row params expr = Interpreter.evalExpr e' row params expr := by
  induction expr with
  | literal v => rfl
  | param name => rfl
  | property var path => exact h.resolvePropertyPath row var path
  | idOf var => rfl
  | binary op lhs rhs ihl ihr => rw [Interpreter.evalExpr, Interpreter.evalExpr, ihl, ihr]
  | not inner ih => rw [Interpreter.evalExpr, Interpreter.evalExpr, ih]

theorem evalPredicate (h : SameMetadata e e') (row : Bindings) (params : Params)
    (whereClause : Option Expr) :
    Interpreter.evalPredicate e row params whereClause =
      Interpreter.evalPredicate e' row params whereClause := by
  cases whereClause with
  | none => rfl
  | some expr => rw [Interpreter.evalPredicate, Interpreter.evalPredicate, h.evalExpr]

theorem filterRows (h : SameMetadata e e') (whereClause : Option Expr) (params : Params)
    (limit : Option Nat) (rows : List Bindings) : ∀ kept,
    Interpreter.filterRows e whereClause params limit kept rows =
      Interpreter.filterRows e' whereClause params limit kept rows := by
  induction rows with
  | nil => exact fun _ => rfl
  | cons row rows ih =>
      intro kept
      simp only [Interpreter.filterRows, h.evalPredicate, ih]

theorem sortRows (h : SameMetadata e e') (P : Platform) (rows : List Bindings) (order : OrderBy)
    (params : Params) :
    Interpreter.sortRows P e rows order params = Interpreter.sortRows P e' rows order params := by
  simp only [Interpreter.sortRows, h.evalExpr]

theorem collectOne (h : SameMetadata e e') (row : Bindings) (target : CollectTarget) :
    Interpreter.collectOne e row target = Interpreter.collectOne e' row target := by
  cases target with
  | var v => rfl
  | property var path => exact h.resolvePropertyPath row var path

theorem projectAggregateRow (h : SameMetadata e e') (items : List ReturnItem)
    (rows : List Bindings) :
    Interpreter.projectAggregateRow e items rows =
      Interpreter.projectAggregateRow e' items rows := by
  simp only [Interpreter.projectAggregateRow, h.collectOne]

theorem project (h : SameMetadata e e') (row : Bindings) :
    Interpreter.project e row = Interpreter.project e' row := by
  funext item
  cases item with
  | var v => rfl
  | property var path => simp only [Interpreter.project, h.resolvePropertyPath]
  | count target => rfl
  | collect target => rfl

theorem projectRows (h : SameMetadata e e') (items : List ReturnItem) (limit : Option Nat)
    (rows : List Bindings) : ∀ kept,
    Interpreter.projectRows e items limit kept rows =
      Interpreter.projectRows e' items limit kept rows := by
  induction rows with
  | nil => exact fun _ => rfl
  | cons row rows ih =>
      intro kept
      simp only [Interpreter.projectRows, h.project, ih]

end SameMetadata

/-- Reads do not change the flags and the schema. -/
theorem Quiet.sameMetadata {σ : Type} [LawfulStorage σ] {e e' : Engine σ} (h : Quiet e e') :
    SameMetadata e e' := by
  rw [h.rest]
  exact ⟨fun _ => rfl, rfl⟩

/-! ## Snapshots -/

namespace Pattern

/-- The node pattern a pattern starts with. -/
def start : Pattern → NodePattern
  | .node np => np
  | .path np _ => np

/-- The hops of a pattern. -/
def hops : Pattern → List (EdgePattern × NodePattern)
  | .node _ => []
  | .path _ chain => chain

end Pattern

/-- The row of a hop over an edge, if its target is live and the hop's conditions hold. -/
def hopRow (g : PropertyGraph) (edgePat : EdgePattern) (targetPat : NodePattern)
    (edgeProps : BTreeMap String Value) (row : Bindings) (d : Edge) : Option Bindings :=
  if edgePatternMatches edgePat d edgeProps then
    match g.nodes.lookup d.toId with
    | some t =>
        if patternMatchesNode targetPat t then
          some ((row.insert edgePat.var (.edge d)).insert targetPat.var (.node t))
        else none
    | none => none
  else none

/-- The answers to the reads of a query: the graph that the lookups answer from, all the nodes, and
the edges that leave a node, with a label if one is given. -/
structure Snapshot where
  graph : PropertyGraph
  nodes : List Node
  edgesFrom : String → Option String → List Edge

namespace Snapshot

variable (S : Snapshot)

/-- The nodes that the first node of a pattern is chosen from. -/
def startNodes : Option String → List Node
  | some id => (S.graph.nodes.lookup id).toList
  | none => S.nodes

/-- The rows for the first node of a pattern. -/
def startRows (np : NodePattern) (found : Option String) : List Bindings :=
  ((S.startNodes found).filter (patternMatchesNode np)).map (nodeRow np.var)

/-- The rows of one hop from one row. -/
def hopRows (prevVar : String) (edgePat : EdgePattern) (targetPat : NodePattern)
    (edgeProps : BTreeMap String Value) (row : Bindings) : List Bindings :=
  match row[prevVar]? with
  | some (.node n) =>
      (S.edgesFrom n.id edgePat.label).filterMap
        (hopRow S.graph edgePat targetPat edgeProps row)
  | _ => []

/-- The rows after the hops of a path. -/
def walk (params : Params) : String → List (EdgePattern × NodePattern) → List Bindings →
    Except InterpretError (List Bindings)
  | _, [], rows => .ok rows
  | prevVar, (edgePat, targetPat) :: chain, rows => do
      let edgeProps ← evalPropertyMap edgePat.properties params
      walk params targetPat.var chain
        (rows.flatMap (S.hopRows prevVar edgePat targetPat edgeProps))

/-- The rows of one pattern. -/
def candidates (whereClause : Option Expr) (params : Params) (p : Pattern) :
    Except InterpretError (List Bindings) := do
  let found ← extractIdPredicate p.start.var params whereClause
  S.walk params p.start.var p.hops (S.startRows p.start found)

/-- The rows of a list of patterns, joined to rows that are there already. -/
def join (whereClause : Option Expr) (params : Params) :
    List Pattern → List Bindings → Except InterpretError (List Bindings)
  | [], rows => .ok rows
  | p :: patterns, rows => do
      let cands ← S.candidates whereClause params p
      if (joinRows rows cands).isEmpty then .ok []
      else join whereClause params patterns (joinRows rows cands)

/-- The rows of `MATCH`; `e` is consulted for the flags and the schema. -/
def matchRows {σ : Type} (e : Engine σ) (patterns : List Pattern) (whereClause : Option Expr)
    (params : Params) (limit : Option Nat) : Except InterpretError (List Bindings) := do
  let rows ← S.join whereClause params patterns [∅]
  filterRows e whereClause params limit 0 rows

variable {S}

/-- A row of a hop is the row before it with an edge and a node of the graph bound. -/
theorem mem_hopRows {prevVar : String} {edgePat : EdgePattern} {targetPat : NodePattern}
    {edgeProps : BTreeMap String Value} {row m : Bindings}
    (hm : m ∈ S.hopRows prevVar edgePat targetPat edgeProps row) :
    ∃ d id t, S.graph.nodes.lookup id = some t ∧
      m = (row.insert edgePat.var (.edge d)).insert targetPat.var (.node t) := by
  rw [hopRows] at hm
  split at hm
  · obtain ⟨d, -, hm⟩ := List.mem_filterMap.1 hm
    rw [hopRow] at hm
    split at hm
    · split at hm
      next t ht =>
        split at hm
        · cases hm
          exact ⟨d, d.toId, t, ht, rfl⟩
        · cases hm
      next => cases hm
    · cases hm
  · cases hm

/-- A row of a join extends a row by a candidate that agrees with it. -/
theorem mem_joinRows {rows cands : List Bindings} {m : Bindings} :
    m ∈ joinRows rows cands ↔ ∃ r ∈ rows, ∃ t ∈ cands, unifyBindings r t = some m := by
  simp only [joinRows, List.mem_flatMap, List.mem_filterMap]

/-- One turn of the pattern loop: an empty join ends it. -/
theorem join_cons {whereClause : Option Expr} {params : Params} {p : Pattern}
    {patterns : List Pattern} {rows cands : List Bindings}
    (hcands : S.candidates whereClause params p = .ok cands) :
    S.join whereClause params (p :: patterns) rows =
      if joinRows rows cands = [] then .ok []
      else S.join whereClause params patterns (joinRows rows cands) := by
  rw [join, hcands]
  simp only [bind, Except.bind, List.isEmpty_iff]

/-- What holds of the rows for the first nodes, and is kept by the hops and by the join, holds of
the rows of `MATCH`. -/
theorem join_induction {Q : List Bindings → Prop} {params : Params} {whereClause : Option Expr}
    {patterns : List Pattern} (hnil : Q [])
    (hstart : ∀ p ∈ patterns, ∀ found, Q (S.startRows p.start found))
    (hhop : ∀ p ∈ patterns, ∀ hop ∈ p.hops, ∀ prevVar edgeProps rows, Q rows →
      Q (rows.flatMap (S.hopRows prevVar hop.1 hop.2 edgeProps)))
    (hjoin : ∀ rows cands, Q rows → Q cands → Q (joinRows rows cands)) :
    ∀ {rows out : List Bindings}, Q rows →
      S.join whereClause params patterns rows = .ok out → Q out := by
  have hwalk : ∀ p ∈ patterns, ∀ chain ⊆ p.hops, ∀ {prevVar : String} {rows out : List Bindings},
      Q rows → S.walk params prevVar chain rows = .ok out → Q out := by
    intro p hp chain
    induction chain with
    | nil =>
        intro _ prevVar rows out hQ hrun
        cases hrun
        exact hQ
    | cons hop chain ih =>
        intro hsub prevVar rows out hQ hrun
        obtain ⟨hhead, htail⟩ := List.cons_subset.1 hsub
        obtain ⟨edgeProps, -, hrun⟩ := exceptBind_eq_ok_iff.1 hrun
        exact ih htail (hhop p hp hop hhead prevVar edgeProps rows hQ) hrun
  induction patterns with
  | nil =>
      intro rows out hQ hrun
      cases hrun
      exact hQ
  | cons p patterns ih =>
      intro rows out hQ hrun
      obtain ⟨cands, hcands, hrun⟩ := exceptBind_eq_ok_iff.1 hrun
      obtain ⟨found, -, hcands⟩ := exceptBind_eq_ok_iff.1 hcands
      have hp := List.mem_cons_self (a := p) (l := patterns)
      have hnext := hjoin rows cands hQ
        (hwalk p hp p.hops (List.Subset.refl _) (hstart p hp found) hcands)
      -- an empty join ends the loop
      split at hrun
      · cases hrun
        exact hnil
      · exact ih (fun q hq => hstart q (List.mem_cons_of_mem p hq))
          (fun q hq => hhop q (List.mem_cons_of_mem p hq))
          (fun q hq => hwalk q (List.mem_cons_of_mem p hq)) hnext hrun

end Snapshot

/-- The row with its key. -/
def keyedRow {σ : Type} (e : Engine σ) (params : Params) (order : OrderBy) (row : Bindings) :
    Except InterpretError (Value × Bindings) := do
  let key ← evalExpr e row params order.expr
  pure (key, row)

theorem keyedRow_eq_ok_iff {σ : Type} {e : Engine σ} {params : Params} {order : OrderBy}
    {row : Bindings} {kr : Value × Bindings} :
    keyedRow e params order row = .ok kr ↔
      evalExpr e row params order.expr = .ok kr.1 ∧ kr.2 = row := by
  rw [keyedRow, exceptBind_eq_ok_iff]
  constructor
  · rintro ⟨key, hkey, h⟩
    cases h
    exact ⟨hkey, rfl⟩
  · rintro ⟨hkey, rfl⟩
    exact ⟨kr.1, hkey, rfl⟩

theorem sortRows_eq {σ : Type} {P : Platform} {e : Engine σ} {rows : List Bindings}
    {order : OrderBy} {params : Params} :
    sortRows P e rows order params = (do
      let keyed ← rows.mapM (keyedRow e params order)
      match P.sortBy (fun a b => compareForSort a.1 b.1 order.direction) keyed with
      | some sorted => .ok (sorted.map Prod.snd)
      | none => .error (.panicked orderViolation)) := rfl

/-- What `sort_rows` does with the keys of the rows. -/
theorem sortRows_eq_ok_iff {σ : Type} {P : Platform} {e : Engine σ} {rows out : List Bindings}
    {order : OrderBy} {params : Params} :
    sortRows P e rows order params = .ok out ↔
      ∃ keyed sorted, rows.mapM (keyedRow e params order) = .ok keyed ∧
        P.sortBy (fun a b => compareForSort a.1 b.1 order.direction) keyed = some sorted ∧
        out = sorted.map Prod.snd := by
  rw [sortRows_eq, exceptBind_eq_ok_iff]
  constructor
  · rintro ⟨keyed, hkeyed, h⟩
    split at h
    · rename_i sorted hsorted
      cases h
      exact ⟨keyed, sorted, hkeyed, hsorted, rfl⟩
    · cases h
  · rintro ⟨keyed, sorted, hkeyed, hsorted, rfl⟩
    refine ⟨keyed, hkeyed, ?_⟩
    rw [hsorted]

/-- The rows in the order that the statement asks for. -/
def orderedRows (P : Platform) {σ : Type} (e : Engine σ) (orderBy : Option OrderBy)
    (params : Params) (rows : List Bindings) : Except InterpretError (List Bindings) :=
  match orderBy with
  | some order => sortRows P e rows order params
  | none => .ok rows

theorem rows_of_keyedRows {σ : Type} {e : Engine σ} {params : Params} {order : OrderBy}
    {rows : List Bindings} {keyed : List (Value × Bindings)}
    (h : rows.mapM (keyedRow e params order) = .ok keyed) : keyed.map Prod.snd = rows := by
  have hrows : List.Forall₂ Eq rows (keyed.map Prod.snd) := List.forall₂_map_right_iff.2
    ((mapM_eq_ok_iff.1 h).imp fun _ _ hrow => (keyedRow_eq_ok_iff.1 hrow).2.symm)
  rw [List.forall₂_eq_eq_eq] at hrows
  exact hrows.symm

/-- Sorting only moves the rows. -/
theorem perm_of_sortRows {P : Platform} {σ : Type} {e : Engine σ} {order : OrderBy}
    {params : Params} {rows out : List Bindings}
    (h : sortRows P e rows order params = .ok out) : out.Perm rows := by
  obtain ⟨keyed, sorted, hkeyed, hsorted, rfl⟩ := sortRows_eq_ok_iff.1 h
  rw [← rows_of_keyedRows hkeyed]
  exact (P.perm_sortBy hsorted).map Prod.snd

theorem perm_of_orderedRows {P : Platform} {σ : Type} {e : Engine σ} {orderBy : Option OrderBy}
    {params : Params} {rows out : List Bindings}
    (h : orderedRows P e orderBy params rows = .ok out) : out.Perm rows := by
  cases orderBy with
  | none =>
      cases h
      exact List.Perm.refl _
  | some order => exact perm_of_sortRows h

/-- The cells of the rows. -/
def projectedRows {σ : Type} (e : Engine σ) (items : List ReturnItem) (limit : Option Nat)
    (rows : List Bindings) : Except InterpretError (List (List ResultCell)) :=
  if items.any isAggregate then projectAggregateRow e items rows
  else projectRows e items limit 0 rows

theorem SameMetadata.projectedRows {σ τ : Type} {e : Engine σ} {e' : Engine τ}
    (h : SameMetadata e e') (items : List ReturnItem) (limit : Option Nat) (rows : List Bindings) :
    Morceau.projectedRows e items limit rows = Morceau.projectedRows e' items limit rows := by
  unfold Morceau.projectedRows
  rw [h.projectAggregateRow, h.projectRows]

@[simp] theorem inlineLimit_none (items : List ReturnItem) (orderBy : Option OrderBy) :
    inlineLimit items orderBy none = none :=
  ite_self none

@[simp] theorem inlineLimit_order (items : List ReturnItem) (order : OrderBy)
    (limit : Option Nat) : inlineLimit items (some order) limit = none := by
  simp [inlineLimit]

theorem inlineLimit_of_aggregate {items : List ReturnItem} (h : items.any isAggregate = true)
    (orderBy : Option OrderBy) (limit : Option Nat) : inlineLimit items orderBy limit = none := by
  simp [inlineLimit, h]

/-- The result of `MATCH ... RETURN`. -/
def Snapshot.matchReturn (S : Snapshot) (P : Platform) {σ : Type} (e : Engine σ)
    (patterns : List Pattern) (whereClause : Option Expr) (items : List ReturnItem)
    (orderBy : Option OrderBy) (limit : Option Nat) (params : Params) :
    Except InterpretError QueryResult := do
  let rows ← S.matchRows e patterns whereClause params (inlineLimit items orderBy limit)
  let rows ← orderedRows P e orderBy params rows
  let outRows ← projectedRows e items limit rows
  pure ⟨items.map returnItemColumnName, outRows⟩

theorem QueryResult.eq_of_fields {q q' : QueryResult} (hcols : q.columns = q'.columns)
    (hrows : q.rows = q'.rows) : q = q' := by
  cases q
  cases q'
  rw [QueryResult.mk.injEq]
  exact ⟨hcols, hrows⟩

/-- The stages of `MATCH ... RETURN`. -/
theorem Snapshot.matchReturn_eq_ok_iff {S : Snapshot} {P : Platform} {σ : Type} {e : Engine σ}
    {patterns : List Pattern} {whereClause : Option Expr} {items : List ReturnItem}
    {orderBy : Option OrderBy} {limit : Option Nat} {params : Params} {q : QueryResult} :
    S.matchReturn P e patterns whereClause items orderBy limit params = .ok q ↔
      ∃ rows ordered,
        S.matchRows e patterns whereClause params (inlineLimit items orderBy limit) = .ok rows ∧
        orderedRows P e orderBy params rows = .ok ordered ∧
        projectedRows e items limit ordered = .ok q.rows ∧
        q.columns = items.map returnItemColumnName := by
  simp only [matchReturn, exceptBind_eq_ok_iff]
  constructor
  · rintro ⟨rows, hrows, ordered, hordered, out, hout, hq⟩
    cases hq
    exact ⟨rows, ordered, hrows, hordered, hout, rfl⟩
  · rintro ⟨rows, ordered, hrows, hordered, hout, hcols⟩
    refine ⟨rows, hrows, ordered, hordered, q.rows, hout, ?_⟩
    rw [← hcols]
    rfl

/-- The snapshot of an engine that is backed by the graph. -/
def Engine.snapshot {σ : Type} (e : Engine σ) (g : PropertyGraph) : Snapshot where
  graph := g
  nodes := listing g.nodes e.nodeIndex.keys
  edgesFrom nodeId label := listing g.edges (e.outgoingIds nodeId label)

/-- The snapshot lists the nodes of its graph and the outgoing edges of each node, each once. -/
structure Snapshot.Faithful (S : Snapshot) : Prop where
  nodeIds : ∀ id n, S.graph.nodes.lookup id = some n → n.id = id
  nodes : ListsExactly (fun n => S.graph.nodes.lookup n.id = some n) S.nodes
  edgesFrom : ∀ nodeId label, ListsExactly (fun d => S.graph.edges.lookup d.id = some d ∧
    d.fromId = nodeId ∧ ∀ l, label = some l → d.label = l) (S.edgesFrom nodeId label)

theorem Core.faithful {σ : Type} [LawfulStorage σ] {P : Platform} {e : Engine σ}
    {log : List Mutation} (h : Core P e log) : (e.snapshot (PropertyGraph.ofLog log)).Faithful where
  nodeIds := h.agrees.nodeIds
  nodes := h.consistent.nodes.listsAll
  edgesFrom nodeId label :=
    h.consistent.edges.listsExactly (nodup_outgoingIds e nodeId label) (h.mem_outgoing nodeId label)

/-! ## Evaluation -/

section Evaluation

variable {σ : Type} [LawfulStorage σ] {P : Platform} {e e' : Engine σ} {g : PropertyGraph}
  {α β : Type}

/-- The computation only reads, and gives `r`. -/
def Evaluates (x : InterpretM σ α) (e : Engine σ) (r : Except InterpretError α) : Prop :=
  ∃ e', Quiet e e' ∧ x e = outcome r e'

namespace Evaluates

theorem pure (a : α) : Evaluates (Pure.pure a : InterpretM σ α) e (.ok a) := ⟨e, Quiet.refl e, rfl⟩

theorem look (f : Engine σ → Except InterpretError α) :
    Evaluates (Interpreter.look f) e (f e) := by
  refine ⟨e, Quiet.refl e, ?_⟩
  unfold Interpreter.look outcome
  cases f e <;> rfl

/-- A read of the engine that succeeds. -/
theorem read {x : EngineM σ α} {a : α} (h : ∃ e', x e = .ok a e' ∧ Quiet e e') :
    Evaluates (callEngine x) e (.ok a) := by
  obtain ⟨e', hx, hq⟩ := h
  exact ⟨e', hq, callEngine_eq_ok_iff.2 hx⟩

theorem bind {x : InterpretM σ α} {f : α → InterpretM σ β} {r : Except InterpretError α}
    {k : α → Except InterpretError β} (hx : Evaluates x e r)
    (hf : ∀ a e', Quiet e e' → Evaluates (f a) e' (k a)) : Evaluates (x >>= f) e (r >>= k) := by
  obtain ⟨e₁, hq, hx⟩ := hx
  cases r with
  | error err => exact ⟨e₁, hq, bind_of_error hx⟩
  | ok a =>
      obtain ⟨e₂, hq', hf⟩ := hf a e₁ hq
      exact ⟨e₂, Quiet.trans _ _ _ hq hq', (bind_of_ok hx).trans hf⟩

/-- A first part that succeeds with a known value. -/
theorem bind_ok {x : InterpretM σ α} {f : α → InterpretM σ β} {a : α}
    {r : Except InterpretError β} (hx : Evaluates x e (.ok a))
    (hf : ∀ e', Quiet e e' → Evaluates (f a) e' r) : Evaluates (x >>= f) e r := by
  obtain ⟨e₁, hq, hx⟩ := hx
  obtain ⟨e₂, hq', hf⟩ := hf e₁ hq
  exact ⟨e₂, Quiet.trans _ _ _ hq hq', (bind_of_ok hx).trans hf⟩

theorem ok_iff {x : InterpretM σ α} {r : Except InterpretError α} (h : Evaluates x e r) {a : α} :
    (∃ e', x e = .ok a e') ↔ r = .ok a := by
  obtain ⟨e₁, -, hx⟩ := h
  rw [hx]
  simp [outcome_eq_ok_iff]

theorem eq_ok {x : InterpretM σ α} {r : Except InterpretError α} (h : Evaluates x e r) {a : α}
    (hx : x e = .ok a e') : r = .ok a := h.ok_iff.1 ⟨e', hx⟩

end Evaluates

theorem Quiet.snapshot (h : Quiet e e') (g : PropertyGraph) : e'.snapshot g = e.snapshot g := by
  rw [h.rest]
  rfl

namespace Backed

variable (params : Params) (whereClause : Option Expr)

/-- The fast path and the scan give the rows for the first node of a pattern. -/
theorem nodeCandidates (h : Backed P e g) (np : NodePattern) :
    Evaluates (Interpreter.nodeCandidates P np whereClause params) e
      (extractIdPredicate np.var params whereClause >>= fun found =>
        .ok ((e.snapshot g).startRows np found)) := by
  refine Evaluates.bind (Evaluates.look _) fun found e₁ hq => ?_
  rw [← hq.snapshot g]
  cases found with
  | none =>
      exact Evaluates.bind_ok (Evaluates.read (h.quiet hq).iterNodes) fun _ _ => Evaluates.pure _
  | some id =>
      refine Evaluates.bind_ok (Evaluates.read ((h.quiet hq).getNode id)) fun e₂ _ => ?_
      show Evaluates _ e₂ (.ok (((g.nodes.lookup id).toList.filter _).map _))
      cases g.nodes.lookup id with
      | none => exact Evaluates.pure _
      | some n => cases hm : patternMatchesNode np n <;> simp [hm] <;> exact Evaluates.pure _

/-- The edges of one row of a hop. -/
theorem hopEdges (edgePat : EdgePattern) (targetPat : NodePattern)
    (edgeProps : BTreeMap String Value) (row : Bindings) (edges : List Edge) :
    ∀ {e : Engine σ}, Backed P e g →
      Evaluates (Interpreter.hopEdges P edgePat targetPat edgeProps row edges) e
        (.ok (edges.filterMap (hopRow g edgePat targetPat edgeProps row))) := by
  induction edges with
  | nil => exact fun _ => Evaluates.pure _
  | cons d edges ih =>
      intro e h
      rw [Interpreter.hopEdges]
      cases hmatch : edgePatternMatches edgePat d edgeProps with
      | false =>
          rw [List.filterMap_cons_none (by simp [hopRow, hmatch])]
          exact ih h
      | true =>
          -- the target is looked up, and the row is built if it is live and has the label
          refine Evaluates.bind_ok (Evaluates.read (h.getNode d.toId)) fun e₁ hq => ?_
          cases hlook : g.nodes.lookup d.toId with
          | none =>
              rw [List.filterMap_cons_none (by simp [hopRow, hmatch, hlook])]
              exact ih (h.quiet hq)
          | some t =>
              cases hlabel : patternMatchesNode targetPat t with
              | false =>
                  rw [List.filterMap_cons_none (by simp [hopRow, hmatch, hlook, hlabel])]
                  simpa [hlabel] using ih (h.quiet hq)
              | true =>
                  rw [List.filterMap_cons_some (by simp [hopRow, hmatch, hlook, hlabel]; rfl)]
                  simp only [hlabel]
                  exact Evaluates.bind_ok (ih (h.quiet hq)) fun _ _ => Evaluates.pure _

/-- The rows of one hop. -/
theorem hopRows (prevVar : String) (edgePat : EdgePattern) (targetPat : NodePattern)
    (edgeProps : BTreeMap String Value) (rows : List Bindings) :
    ∀ {e : Engine σ}, Backed P e g →
      Evaluates (Interpreter.hopRows P prevVar edgePat targetPat edgeProps rows) e
        (.ok (rows.flatMap ((e.snapshot g).hopRows prevVar edgePat targetPat edgeProps))) := by
  induction rows with
  | nil => exact fun _ => Evaluates.pure _
  | cons row rows ih =>
      intro e h
      rw [Interpreter.hopRows, List.flatMap_cons, Snapshot.hopRows]
      rcases hrow : row[prevVar]? with _ | n | d
      · exact ih h
      -- only a row that binds the name to a node goes on
      · obtain ⟨e', hread, hq⟩ := h.materializeEdges (e.outgoingIds n.id edgePat.label)
        refine Evaluates.bind_ok
          (Evaluates.read ⟨e', (iterEdgesFrom_eq e n.id edgePat.label).trans hread, hq⟩)
          fun e₁ hq₁ => ?_
        refine Evaluates.bind_ok (hopEdges edgePat targetPat edgeProps row _ (h.quiet hq₁))
          fun e₂ hq₂ => ?_
        have hq₂ : Quiet e e₂ := Quiet.trans _ _ _ hq₁ hq₂
        have hrest := ih (h.quiet hq₂)
        rw [hq₂.snapshot g] at hrest
        exact Evaluates.bind_ok hrest fun _ _ => Evaluates.pure _
      · exact ih h

theorem walkChain (chain : List (EdgePattern × NodePattern)) :
    ∀ {e : Engine σ} (prevVar : String) (rows : List Bindings), Backed P e g →
      Evaluates (Interpreter.walkChain P params prevVar chain rows) e
        ((e.snapshot g).walk params prevVar chain rows) := by
  induction chain with
  | nil => exact fun _ _ _ => Evaluates.pure _
  | cons hop chain ih =>
      intro e prevVar rows h
      refine Evaluates.bind (Evaluates.look _) fun edgeProps e₁ hq₁ => ?_
      refine Evaluates.bind_ok (hopRows prevVar hop.1 hop.2 edgeProps rows (h.quiet hq₁))
        fun e₂ hq₂ => ?_
      have hq₂ : Quiet e e₂ := Quiet.trans _ _ _ hq₁ hq₂
      -- the reads of this hop left the snapshot as it was
      rw [hq₁.snapshot g, ← hq₂.snapshot g]
      exact ih hop.2.var _ (h.quiet hq₂)

theorem candidatesForPattern (h : Backed P e g) (p : Pattern) :
    Evaluates (Interpreter.candidatesForPattern P p whereClause params) e
      ((e.snapshot g).candidates whereClause params p) := by
  have hstart := h.nodeCandidates params whereClause p.start
  cases p with
  | node np => exact hstart
  | path start chain =>
      -- the candidates for the first node, and then the hops
      have hpath := Evaluates.bind (f := Interpreter.walkChain P params start.var chain)
        (k := (e.snapshot g).walk params start.var chain) hstart fun rows e₁ hq => by
          rw [← hq.snapshot g]
          exact walkChain params chain start.var rows (h.quiet hq)
      rwa [bind_assoc] at hpath

theorem joinPatterns (patterns : List Pattern) :
    ∀ {e : Engine σ} (rows : List Bindings), Backed P e g →
      Evaluates (Interpreter.joinPatterns P whereClause params patterns rows) e
        ((e.snapshot g).join whereClause params patterns rows) := by
  induction patterns with
  | nil => exact fun _ _ => Evaluates.pure _
  | cons p patterns ih =>
      intro e rows h
      refine Evaluates.bind (h.candidatesForPattern params whereClause p) fun cands e₁ hq => ?_
      show Evaluates (if (joinRows rows cands).isEmpty then _ else _) e₁
        (if (joinRows rows cands).isEmpty then _ else _)
      split
      · exact Evaluates.pure _
      · rw [← hq.snapshot g]
        exact ih _ (h.quiet hq)

/-- `find_match_rows` evaluates to the rows of the snapshot. -/
theorem findMatchRows (h : Backed P e g) (patterns : List Pattern) (limit : Option Nat) :
    Evaluates (Interpreter.findMatchRows P patterns whereClause params limit) e
      ((e.snapshot g).matchRows e patterns whereClause params limit) := by
  refine Evaluates.bind (joinPatterns params whereClause patterns _ h) fun rows e₁ hq => ?_
  rw [hq.sameMetadata.filterRows]
  exact Evaluates.look _

/-- `exec_match_return` evaluates to the result over the snapshot. -/
theorem execMatchReturn (h : Backed P e g) (patterns : List Pattern) (items : List ReturnItem)
    (orderBy : Option OrderBy) (limit : Option Nat) :
    Evaluates
      (Interpreter.execMatchReturn P patterns whereClause items orderBy limit params) e
      ((e.snapshot g).matchReturn P e patterns whereClause items orderBy limit params) := by
  refine Evaluates.bind (h.findMatchRows params whereClause patterns _) fun rows e₁ hq₁ => ?_
  refine Evaluates.bind ?_ fun ordered e₂ hq₂ => Evaluates.bind ?_ fun out e₃ _ => Evaluates.pure _
  · cases orderBy with
    | none => exact Evaluates.pure _
    | some order =>
        rw [orderedRows, hq₁.sameMetadata.sortRows]
        exact Evaluates.look _
  · have hq₂ : Quiet e e₂ := Quiet.trans _ _ _ hq₁ hq₂
    rw [hq₂.sameMetadata.projectedRows]
    unfold outputRows Morceau.projectedRows
    split
    · exact Evaluates.look _
    · exact Evaluates.look _

end Backed

end Evaluation

end Morceau
