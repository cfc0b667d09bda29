import Morceau.Lib.Coupling
import Morceau.Query.Deletes
import Morceau.Query.FailedQueries
import Morceau.Query.OrderIndependence

/-!
# The graph determines what an engine does

Two engines that hold the same graph may have got there by different logs, on different backends and
with different indexes. From then on they answer every call alike, and hold the same graph again
after it: the relation `SameGraph` is a bisimulation. Each operation is coupled with itself
(`Coupled`); the operations that commit several records do so in an order of their own on each
engine, and are compared by what they leave. A query that only reads is compared unless it panics,
which the sort of `ORDER BY` may do on one engine alone.
-/

set_option autoImplicit false

namespace Morceau

open Lib LawfulStorage Interpreter

theorem PropertyGraph.ext_lookup {g g' : PropertyGraph}
    (hn : ∀ i, g.nodes.lookup i = g'.nodes.lookup i)
    (he : ∀ i, g.edges.lookup i = g'.edges.lookup i) (hs : g.schema = g'.schema) : g = g' := by
  obtain ⟨nodes, edges, schema⟩ := g
  obtain ⟨nodes', edges', schema'⟩ := g'
  have hnodes : nodes = nodes' := Finmap.ext_lookup hn
  have hedges : edges = edges' := Finmap.ext_lookup he
  cases hs
  rw [hnodes, hedges]

/-- What a graph says about the content of an engine: the buckets are those of its edges, and what
is live is a foreshadow. -/
def PropertyGraph.content (g : PropertyGraph) : Content where
  graph := g
  byLabel k := {id | ∃ d, g.edges.lookup id = some d ∧ d.label = k}
  byFrom k := {id | ∃ d, g.edges.lookup id = some d ∧ d.fromId = k}
  byTo k := {id | ∃ d, g.edges.lookup id = some d ∧ d.toId = k}
  flag id := (g.nodes.lookup id).isSome || (g.edges.lookup id).isSome

/-! ## Engines with the same graph -/

section Invariant

variable {σ : Type} [LawfulStorage σ] {P : Platform} {e : Engine σ} {log : List Mutation}

/-- What is live is a foreshadow, since every record of the log is one. -/
theorem Inv.isForeshadow (h : Inv P e log) (id : String) :
    e.isForeshadow id = (PropertyGraph.ofLog log).content.flag id := by
  have hflag : ∀ {entry op}, Located P log entry op → entry.foreshadow = true := by
    rintro entry op ⟨pre, m, post, rfl, rfl, -⟩
    exact h.foreshadow m (by simp)
  show _ = (((PropertyGraph.ofLog log).nodes.lookup id).isSome || _)
  unfold Engine.isForeshadow
  cases hn : e.nodeIndex.lookup id with
  | some entry =>
      obtain ⟨n, hl, -, hat⟩ := h.consistent.nodes.of_some hn
      rw [hl]
      exact hflag hat
  | none =>
      rw [h.consistent.nodes.of_none hn]
      cases he : e.edgeIndex.lookup id with
      | some entry =>
          obtain ⟨d, hl, -, hat⟩ := h.consistent.edges.of_some he
          rw [hl]
          exact hflag hat
      | none =>
          rw [h.consistent.edges.of_none he]
          rfl

theorem Inv.holds (h : Inv P e log) : Holds P e (PropertyGraph.ofLog log).content where
  backed := h.toCore.backed
  byLabel k id := h.consistent.byLabel.mem_iff k id
  byFrom k id := h.consistent.byFrom.mem_iff k id
  byTo k id := h.consistent.byTo.mem_iff k id
  schema := h.consistent.schema
  flags := h.isForeshadow

/-- A call whose appends succeed keeps the invariant, for whatever log it leaves. -/
theorem Inv.final {ε α : Type} {fault : ε → Fault} {x : EStateM ε (Engine σ) α} (h : Inv P e log)
    (hx : Chained P fault x) (hok : AppendsSucceed fault (x e)) {log' : List Mutation}
    (hcore : Core P (finalState (x e)) log') : Inv P (finalState (x e)) log' := by
  obtain ⟨hs, hch⟩ := hx.chain h.toCore hok
  obtain ⟨ms, hinv, -, -⟩ := h.chain hch
  rwa [hcore.log_eq hinv.toCore]

end Invariant

section SameGraph

variable {σ τ : Type} [LawfulStorage σ] [LawfulStorage τ] {P Q : Platform} {e : Engine σ}
  {e' : Engine τ}

/-- The engines hold the same graph, each on a log of its own. -/
def SameGraph (P Q : Platform) (e : Engine σ) (e' : Engine τ) : Prop :=
  ∃ log log', Inv P e log ∧ Inv Q e' log' ∧ PropertyGraph.ofLog log = PropertyGraph.ofLog log'

/-- The call did not fail in the I/O layer. -/
abbrev Io {ε : Type} (fault : ε → Fault) (err : ε) : Prop := fault err = .io

theorem spared_iff {ε α υ : Type} {fault : ε → Fault} {r : EStateM.Result ε (Engine υ) α} :
    Spared (Io fault) r ↔ AppendsSucceed fault r := by
  cases r <;> exact Iff.rfl

namespace SameGraph

theorem agrees (h : SameGraph P Q e e') : ∃ g, Agrees P e g ∧ Agrees Q e' g := by
  obtain ⟨log, log', hinv, hinv', hgraph⟩ := h
  exact ⟨_, hinv.toCore.agrees, hgraph ▸ hinv'.toCore.agrees⟩

theorem holds (h : SameGraph P Q e e') : ∃ c, Holds P e c ∧ Holds Q e' c := by
  obtain ⟨log, log', hinv, hinv', hgraph⟩ := h
  exact ⟨_, hinv.holds, hgraph ▸ hinv'.holds⟩

theorem quiet (h : SameGraph P Q e e') {e₁ : Engine σ} {e₁' : Engine τ} (hq : Quiet e e₁)
    (hq' : Quiet e' e₁') : SameGraph P Q e₁ e₁' := by
  obtain ⟨log, log', hinv, hinv', hgraph⟩ := h
  exact ⟨log, log', hinv.quiet hq, hinv'.quiet hq', hgraph⟩

theorem hasNode (h : SameGraph P Q e e') (id : String) : e.hasNode id = e'.hasNode id := by
  obtain ⟨g, hg, hg'⟩ := h.agrees
  rw [hg.hasNode, hg'.hasNode]

theorem hasEdge (h : SameGraph P Q e e') (id : String) : e.hasEdge id = e'.hasEdge id := by
  obtain ⟨g, hg, hg'⟩ := h.agrees
  rw [hg.hasEdge, hg'.hasEdge]

theorem schema (h : SameGraph P Q e e') : e.currentSchema = e'.currentSchema := by
  obtain ⟨g, hg, hg'⟩ := h.agrees
  rw [hg.schema, hg'.schema]

theorem mem_nodeIndex (h : SameGraph P Q e e') (id : String) :
    id ∈ e.nodeIndex ↔ id ∈ e'.nodeIndex := by
  have hsame := h.hasNode id
  unfold Engine.hasNode at hsame
  exact decide_eq_decide.1 hsame

theorem mem_edgeIndex (h : SameGraph P Q e e') (id : String) :
    id ∈ e.edgeIndex ↔ id ∈ e'.edgeIndex := by
  have hsame := h.hasEdge id
  unfold Engine.hasEdge at hsame
  exact decide_eq_decide.1 hsame

/-! ## The checks -/

theorem schemaChecks (h : SameGraph P Q e e') (label : String) (properties : Properties) :
    Engine.schemaChecks label properties e = Engine.schemaChecks label properties e' := by
  unfold Engine.schemaChecks Engine.validateLabel Engine.validateProperties
  rw [h.schema]

theorem nodeChecks (h : SameGraph P Q e e') (node : Node) :
    Engine.nodeChecks node e = Engine.nodeChecks node e' := by
  unfold Engine.nodeChecks
  simp only [h.mem_nodeIndex, h.schemaChecks]

theorem edgeChecks (h : SameGraph P Q e e') (edge : Edge) :
    Engine.edgeChecks edge e = Engine.edgeChecks edge e' := by
  unfold Engine.edgeChecks
  simp only [h.mem_edgeIndex, h.hasNode, h.schemaChecks]

/-! ## Commits -/

/-- The same commit on both engines. -/
theorem commit (h : SameGraph P Q e e') {op : MutationOp} (hf : Fresh e op) (hf' : Fresh e' op)
    (hok : AppendsSucceed EngineError.fault (Engine.commit P op e))
    (hok' : AppendsSucceed EngineError.fault (Engine.commit Q op e')) :
    CoupledResult (SameGraph P Q) Eq (Engine.commit P op e) (Engine.commit Q op e') := by
  obtain ⟨log, log', hinv, hinv', hgraph⟩ := h
  rcases hinv.toCore.commit hf with ⟨e₁, hc, -⟩ | ⟨err, e₁, hc, herr, -⟩
  · rcases hinv'.toCore.commit hf' with ⟨e₁', hc', -⟩ | ⟨err, e₁', hc', herr, -⟩
    · rw [hc, hc']
      refine .ok rfl ⟨_, _, hinv.commit hf hc, hinv'.commit hf' hc', ?_⟩
      rw [PropertyGraph.ofLog_snoc, PropertyGraph.ofLog_snoc, hgraph]
      rfl
    · rw [hc'] at hok'
      exact absurd herr hok'
  · rw [hc] at hok
    exact absurd herr hok

/-- Calls that leave logs with the same graph. -/
theorem final {ε ε' α β : Type} {fault : ε → Fault} {fault' : ε' → Fault}
    {x : EStateM ε (Engine σ) α} {y : EStateM ε' (Engine τ) β} {log log' : List Mutation}
    (hinv : Inv P e log) (hinv' : Inv Q e' log') (hx : Chained P fault x) (hy : Chained Q fault' y)
    (hok : AppendsSucceed fault (x e)) (hok' : AppendsSucceed fault' (y e'))
    {l l' : List Mutation} (hcore : Core P (finalState (x e)) l)
    (hcore' : Core Q (finalState (y e')) l')
    (hgraph : PropertyGraph.ofLog l = PropertyGraph.ofLog l') :
    SameGraph P Q (finalState (x e)) (finalState (y e')) :=
  ⟨l, l', hinv.final hx hok hcore, hinv'.final hy hok' hcore', hgraph⟩

end SameGraph

end SameGraph

/-! ## Operations -/

/-- What a call returns. -/
inductive Reply where
  | done
  | deleted (found : Bool)
  | cascaded (found : Bool) (edges : Nat)
  | result (r : QueryResult)

/-- The operation with what it returns. -/
def Op.reply {υ : Type} [Storage υ] (P : Platform) : Op → EngineM υ Reply
  | .insertNode node => do
      Engine.insertNode P node
      pure .done
  | .insertEdge edge => do
      Engine.insertEdge P edge
      pure .done
  | .deleteNode id => do
      let found ← Engine.deleteNode P id
      pure (.deleted found)
  | .deleteEdge id => do
      let found ← Engine.deleteEdge P id
      pure (.deleted found)
  | .deleteNodeWithCascade id => do
      let (found, edges) ← Engine.deleteNodeWithCascade P id
      pure (.cascaded found edges)
  | .applySchema schema => do
      Engine.applySchema P schema
      pure .done

/-- The call with what it returns. -/
def Call.reply {υ : Type} [Storage υ] (P : Platform) : Call → EStateM CallError (Engine υ) Reply
  | .op o => (o.reply P).adaptExcept .engine
  | .query cypher params => do
      let r ← (Engine.query P cypher params).adaptExcept .query
      pure (.result r)

section Operations

variable {σ τ : Type} [LawfulStorage σ] [LawfulStorage τ] {P Q : Platform}

/-- The calls are coupled on engines that hold the same graph. -/
abbrev Twins (P Q : Platform) {ε ε' α β : Type} (fault : ε → Fault) (fault' : ε' → Fault)
    (R : α → β → Prop) (x : EStateM ε (Engine σ) α) (y : EStateM ε' (Engine τ) β) : Prop :=
  Coupled (SameGraph P Q) (Io fault) (Io fault') R x y

theorem twins_commit {op : MutationOp} (hop : ∀ d, op ≠ .edgeInsert d) :
    Twins P Q EngineError.fault EngineError.fault Eq (Engine.commit P op : EngineM σ Unit)
      (Engine.commit Q op : EngineM τ Unit) := by
  have hfresh : ∀ {υ : Type} (e : Engine υ), Fresh e op := by
    intro υ e
    cases op with
    | edgeInsert d => exact absurd rfl (hop d)
    | nodeInsert n => trivial
    | nodeDelete id => trivial
    | edgeDelete id => trivial
    | schemaApply s => trivial
  intro e e' h hok hok'
  exact h.commit (hfresh e) (hfresh e') (spared_iff.1 hok) (spared_iff.1 hok')

theorem twins_insertNode (node : Node) :
    Twins P Q EngineError.fault EngineError.fault Eq (Engine.insertNode P node : EngineM σ Unit)
      (Engine.insertNode Q node : EngineM τ Unit) := by
  intro e e' h hok hok'
  rw [insertNode_eq] at hok hok' ⊢
  rw [insertNode_eq]
  rw [h.nodeChecks node] at hok ⊢
  cases hcheck : Engine.nodeChecks node e' with
  | error err => exact .error h
  | ok _ =>
      rw [hcheck] at hok hok'
      exact h.commit trivial trivial (spared_iff.1 hok) (spared_iff.1 hok')

theorem twins_insertEdge (edge : Edge) :
    Twins P Q EngineError.fault EngineError.fault Eq (Engine.insertEdge P edge : EngineM σ Unit)
      (Engine.insertEdge Q edge : EngineM τ Unit) := by
  intro e e' h hok hok'
  rw [insertEdge_eq] at hok hok' ⊢
  rw [insertEdge_eq]
  rw [h.edgeChecks edge] at hok ⊢
  cases hcheck : Engine.edgeChecks edge e' with
  | error err => exact .error h
  | ok _ =>
      rw [hcheck] at hok hok'
      -- the edge passed the same checks on both, so its id is fresh on both
      have hfresh : edge.id ∉ e'.edgeIndex := (edgeChecks_ok hcheck).1
      have hfresh' : edge.id ∉ e.edgeIndex := fun hmem => hfresh ((h.mem_edgeIndex _).1 hmem)
      exact h.commit hfresh' hfresh (spared_iff.1 hok) (spared_iff.1 hok')

theorem twins_deleteNode (id : String) :
    Twins P Q EngineError.fault EngineError.fault Eq (Engine.deleteNode P id : EngineM σ Bool)
      (Engine.deleteNode Q id : EngineM τ Bool) := by
  refine Coupled.get.bind fun e₀ e₀' h₀ => ?_
  rw [h₀.hasNode id]
  split
  · exact .pure rfl
  · exact (twins_commit (by simp)).bind fun _ _ _ => .pure rfl

theorem twins_deleteEdge (id : String) :
    Twins P Q EngineError.fault EngineError.fault Eq (Engine.deleteEdge P id : EngineM σ Bool)
      (Engine.deleteEdge Q id : EngineM τ Bool) := by
  refine Coupled.get.bind fun e₀ e₀' h₀ => ?_
  rw [h₀.hasEdge id]
  split
  · exact .pure rfl
  · exact (twins_commit (by simp)).bind fun _ _ _ => .pure rfl

/-- The cascades commit the edges in orders of their own; what they leave is the same. -/
theorem twins_deleteNodeWithCascade (id : String) :
    Twins P Q EngineError.fault EngineError.fault Eq
      (Engine.deleteNodeWithCascade P id : EngineM σ (Bool × Nat))
      (Engine.deleteNodeWithCascade Q id : EngineM τ (Bool × Nat)) := by
  intro e e' h hok hok'
  cases hid : e.hasNode id with
  | false =>
      rw [deleteNodeWithCascade_dead hid, deleteNodeWithCascade_dead (h.hasNode id ▸ hid)]
      exact .ok rfl h
  | true =>
      have hid' : e'.hasNode id = true := h.hasNode id ▸ hid
      obtain ⟨log, log', hinv, hinv', hgraph⟩ := h
      obtain ⟨ids, ms, e₁, hnodup, hids, hcore, -, hend⟩ := hinv.toCore.deleteNodeWithCascade hid
      obtain ⟨ids', ms', e₁', hnodup', hids', hcore', -, hend'⟩ :=
        hinv'.toCore.deleteNodeWithCascade hid'
      rcases hend with ⟨hrun, hops⟩ | ⟨err, hrun, hio⟩
      · rcases hend' with ⟨hrun', hops'⟩ | ⟨err, hrun', hio⟩
        · rw [← hgraph] at hids'
          have hlength : ids.length = ids'.length :=
            ((List.perm_ext_iff_of_nodup hnodup hnodup').2 fun i =>
              (hids i).trans (hids' i).symm).length_eq
          have hsame : PropertyGraph.ofLog (log ++ ms) = PropertyGraph.ofLog (log' ++ ms') := by
            rw [PropertyGraph.ofLog_append, PropertyGraph.ofLog_append, hops, hops', ← hgraph]
            obtain ⟨hn, he, hs⟩ := PropertyGraph.applyAll_cascadeOps hids
            obtain ⟨hn', he', hs'⟩ := PropertyGraph.applyAll_cascadeOps hids'
            refine PropertyGraph.ext_lookup (fun i => ?_) (fun i => ?_) (hs.trans hs'.symm)
            · rw [hn, hn']
            · rw [he, he']
          have hchained := fun {υ : Type} [LawfulStorage υ] (C : Platform) =>
            (Shaped.deleteNodeWithCascade id :
              Shaped C EngineError.fault (Engine.deleteNodeWithCascade C id : EngineM υ _)).chained
          have hfinal := SameGraph.final hinv hinv' (hchained P) (hchained Q) (spared_iff.1 hok)
            (spared_iff.1 hok') (by rw [hrun]; exact hcore) (by rw [hrun']; exact hcore') hsame
          rw [hrun, hrun'] at hfinal ⊢
          exact .ok (by rw [hlength]) hfinal
        · rw [hrun'] at hok'
          exact absurd hio hok'
      · rw [hrun] at hok
        exact absurd hio hok

theorem twins_op (o : Op) :
    Twins P Q EngineError.fault EngineError.fault Eq (o.reply P : EngineM σ Reply)
      (o.reply Q : EngineM τ Reply) := by
  cases o with
  | insertNode node => exact (twins_insertNode node).bind fun _ _ _ => .pure rfl
  | insertEdge edge => exact (twins_insertEdge edge).bind fun _ _ _ => .pure rfl
  | deleteNode id =>
      refine (twins_deleteNode id).bind fun a b hab => .pure ?_
      rw [hab]
  | deleteEdge id =>
      refine (twins_deleteEdge id).bind fun a b hab => .pure ?_
      rw [hab]
  | deleteNodeWithCascade id =>
      refine (twins_deleteNodeWithCascade id).bind fun a b hab => .pure ?_
      rw [hab]
  | applySchema schema => exact (twins_commit (by simp)).bind fun _ _ _ => .pure rfl

end Operations

/-! ## Queries -/

section Queries

variable {σ τ : Type} [LawfulStorage σ] [LawfulStorage τ] {P Q : Platform} {e : Engine σ}
  {e' : Engine τ} {α β : Type}

/-- Results of a statement on two engines: the rows of a `MATCH ... RETURN` may come in another
order. With a limit they may be other rows, so nothing is asked of them. -/
def SameResult : Statement → QueryResult → QueryResult → Prop
  | .matchReturn _ _ items _ _, r, r' => r.columns = r'.columns ∧ SameRows items r.rows r'.rows
  | _, r, r' => r = r'

/-- The statement only reads. -/
def Statement.isRead : Statement → Bool
  | .matchReturn _ _ _ _ _ => true
  | _ => false

/-- The query has panicked. -/
def QueryError.isPanic : QueryError → Bool
  | .parse _ => false
  | .interpret err => err.isPanic

/-- The call has panicked. -/
def CallError.isPanic : CallError → Bool
  | .engine _ => false
  | .query err => err.isPanic

theorem twins_look {f : Except InterpretError α} :
    Twins P Q InterpretError.fault InterpretError.fault Eq
      (look (fun _ => f) : InterpretM σ α) (look (fun _ => f) : InterpretM τ α) := by
  intro e e' h _ _
  unfold look
  cases f with
  | ok a => exact .ok rfl h
  | error err => exact .error h

theorem twins_callEngine {R : α → β → Prop} {x : EngineM σ α} {y : EngineM τ β}
    (h : Twins P Q EngineError.fault EngineError.fault R x y) :
    Twins P Q InterpretError.fault InterpretError.fault R (callEngine x) (callEngine y) :=
  h.adaptExcept (fun _ herr => herr) fun _ herr => herr

/-- Queries that only read, with outcomes that are alike. -/
theorem SameGraph.evaluates {R : α → β → Prop} {x : InterpretM σ α} {y : InterpretM τ β}
    {r : Except InterpretError α} {r' : Except InterpretError β} (h : SameGraph P Q e e')
    (hx : Evaluates x e r) (hy : Evaluates y e' r') (halike : Alike R r r') :
    CoupledResult (SameGraph P Q) R (x e) (y e') := by
  obtain ⟨e₁, hq, hx⟩ := hx
  obtain ⟨e₁', hq', hy⟩ := hy
  rw [hx, hy]
  cases r with
  | ok a =>
      cases r' with
      | ok b => exact .ok halike (h.quiet hq hq')
      | error err => exact halike.elim
  | error err =>
      cases r' with
      | ok b => exact halike.elim
      | error err' => exact .error (h.quiet hq hq')

theorem twins_findMatchRows (patterns : List Pattern) (whereClause : Option Expr)
    (params : Params) :
    Twins P Q InterpretError.fault InterpretError.fault List.Perm
      (findMatchRows P patterns whereClause params none : InterpretM σ _)
      (findMatchRows Q patterns whereClause params none : InterpretM τ _) := by
  intro e e' h _ _
  obtain ⟨c, hc, hc'⟩ := h.holds
  exact h.evaluates (hc.backed.findMatchRows params whereClause patterns none)
    (hc'.backed.findMatchRows params whereClause patterns none)
    ((hc.reordered hc').matchRows params whereClause (hc.sameMetadata hc') patterns)

/-- The loop stops at its first row if that does not bind the name to a node. -/
theorem deleteRows_refused {var : String} {row : Bindings} (h : kindAt row var ≠ some true)
    (detach : Bool) (rows : List Bindings) :
    ∃ err, deleteRows P var detach (row :: rows) e = .error err e := by
  rcases hb : row[var]? with _ | n | d
  · exact ⟨.deleteVariableMismatch var, by simp only [deleteRows, hb]; rfl⟩
  · exact absurd (by simp [kindAt, hb, Binding.isNode]) h
  · exact ⟨.deleteEdgeUnsupported, by simp only [deleteRows, hb]; rfl⟩

theorem exists_node_of_kindAt {row : Bindings} {var : String} (h : kindAt row var = some true) :
    ∃ n, row[var]? = some (.node n) := by
  rcases hb : row[var]? with _ | n | d
  · simp [kindAt, hb] at h
  · exact ⟨n, rfl⟩
  · simp [kindAt, hb, Binding.isNode] at h

/-- The rows of a match, deleted on the engine that they were read from. -/
theorem Core.deleteRows {log : List Mutation} (h : Core P e log) {patterns : List Pattern}
    {whereClause : Option Expr} {params : Params} {rows : List Bindings} {e₁ : Engine σ}
    (hfind : findMatchRows P patterns whereClause params none e = .ok rows e₁) {var : String}
    (hkinds : ∀ row ∈ rows, kindAt row var = some true) {detach : Bool}
    (hok : AppendsSucceed InterpretError.fault (Interpreter.deleteRows P var detach rows e₁)) :
    ∃ ms e₂, Interpreter.deleteRows P var detach rows e₁ = .ok () e₂ ∧
      Deleting P detach log (matchedIds var rows) ms e₂ := by
  have hcore₁ : Core P e₁ log :=
    h.quiet ((Reading.findMatchRows params whereClause patterns none).quiet.ok hfind)
  obtain ⟨ms, e₂, hrun, hdel⟩ := (Deleting.start hcore₁).rows (fun row hrow => by
    obtain ⟨n, hn⟩ := exists_node_of_kindAt (hkinds row hrow)
    have hlive := h.findMatchRows_live hfind row hrow var n hn
    exact ⟨n, hn, by rw [hlive]; rfl⟩) hok
  rw [Finset.empty_union] at hdel
  exact ⟨ms, e₂, hrun, hdel⟩

/-- Removing the same nodes from the same graph, in whatever order. -/
theorem Deleting.graph_eq {log log' ms ms' : List Mutation} {detach : Bool} {D : Finset String}
    (h : Deleting P detach log D ms e) (h' : Deleting Q detach log' D ms' e')
    (hgraph : PropertyGraph.ofLog log = PropertyGraph.ofLog log') :
    PropertyGraph.ofLog (log ++ ms) = PropertyGraph.ofLog (log' ++ ms') := by
  obtain ⟨hn, he, hs⟩ := h.graph
  obtain ⟨hn', he', hs'⟩ := h'.graph
  rw [← hgraph] at hn' he' hs'
  refine PropertyGraph.ext_lookup (fun i => ?_) (fun i => ?_) (hs.trans hs'.symm)
  · rw [hn, hn']
  · rw [he, he']

/-- The loops over the same rows, in two orders: both are refused at their first row, or both remove
the same nodes. -/
theorem coupled_deleteRows {log log' : List Mutation} (hinv : Inv P e log) (hinv' : Inv Q e' log')
    (hgraph : PropertyGraph.ofLog log = PropertyGraph.ofLog log') {patterns : List Pattern}
    {whereClause : Option Expr} {params : Params} {rows rows' : List Bindings} {e₁ : Engine σ}
    {e₁' : Engine τ} (hfind : findMatchRows P patterns whereClause params none e = .ok rows e₁)
    (hfind' : findMatchRows Q patterns whereClause params none e' = .ok rows' e₁')
    (hperm : rows.Perm rows') {var : String} {detach : Bool}
    (hok : AppendsSucceed InterpretError.fault (deleteRows P var detach rows e₁))
    (hok' : AppendsSucceed InterpretError.fault (deleteRows Q var detach rows' e₁')) :
    CoupledResult (SameGraph P Q) Eq (deleteRows P var detach rows e₁)
      (deleteRows Q var detach rows' e₁') := by
  have hinv₁ : Inv P e₁ log :=
    hinv.quiet ((Reading.findMatchRows params whereClause patterns none).quiet.ok hfind)
  have hinv₁' : Inv Q e₁' log' :=
    hinv'.quiet ((Reading.findMatchRows params whereClause patterns none).quiet.ok hfind')
  by_cases hkinds : ∀ row ∈ rows, kindAt row var = some true
  · obtain ⟨ms, e₂, hrun, hdel⟩ := hinv.toCore.deleteRows hfind hkinds hok
    obtain ⟨ms', e₂', hrun', hdel'⟩ := hinv'.toCore.deleteRows hfind'
      (fun row hrow => hkinds row (hperm.mem_iff.2 hrow)) hok'
    have hids : matchedIds var rows' = matchedIds var rows := by
      ext id
      simp only [mem_matchedIds, hperm.mem_iff]
    rw [hids] at hdel'
    have hfinal := SameGraph.final hinv₁ hinv₁' (Shaped.deleteRows var detach rows).chained
      (Shaped.deleteRows var detach rows').chained hok hok' (by rw [hrun]; exact hdel.core)
      (by rw [hrun']; exact hdel'.core) (hdel.graph_eq hdel' hgraph)
    rw [hrun, hrun'] at hfinal ⊢
    exact .ok rfl hfinal
  · -- one row does not bind the name to a node, so no row does
    obtain ⟨bad, hbad, hkind⟩ : ∃ row ∈ rows, kindAt row var ≠ some true := by
      simpa using hkinds
    have hnone : ∀ row ∈ rows, kindAt row var ≠ some true := fun row hrow => by
      rw [hinv.toCore.sameKinds hfind row hrow bad hbad var]
      exact hkind
    cases rows with
    | nil => cases hbad
    | cons row rows =>
        cases rows' with
        | nil => exact absurd hperm.symm (List.not_perm_nil_cons _ _)
        | cons row' rows' =>
            have hmem' : row' ∈ row :: rows := hperm.mem_iff.2 List.mem_cons_self
            obtain ⟨err, hrun⟩ := deleteRows_refused (P := P) (e := e₁)
              (hnone row List.mem_cons_self) detach rows
            obtain ⟨err', hrun'⟩ := deleteRows_refused (P := Q) (e := e₁') (hnone row' hmem')
              detach rows'
            rw [hrun, hrun']
            exact .error ⟨log, log', hinv₁, hinv₁', hgraph⟩

theorem twins_execMatchDelete (patterns : List Pattern) (whereClause : Option Expr) (var : String)
    (detach : Bool) (params : Params) :
    Twins P Q InterpretError.fault InterpretError.fault Eq
      (execMatchDelete P patterns whereClause var detach params : InterpretM σ _)
      (execMatchDelete Q patterns whereClause var detach params : InterpretM τ _) := by
  intro e e' h hok hok'
  have hrows := twins_findMatchRows (P := P) (Q := Q) patterns whereClause params e e' h
    hok.of_bind hok'.of_bind
  refine hrows.bind fun rows rows' e₁ e₁' hfind hfind' hperm _ => ?_
  obtain ⟨log, log', hinv, hinv', hgraph⟩ := h
  unfold execMatchDelete at hok hok'
  rw [bind_of_ok hfind] at hok
  rw [bind_of_ok hfind'] at hok'
  have hloop := coupled_deleteRows hinv hinv' hgraph hfind hfind' hperm
    (spared_iff.1 hok.of_bind) (spared_iff.1 hok'.of_bind)
  exact hloop.bind fun _ _ _ _ _ _ _ hs => .ok rfl hs

/-! ## Statements -/

theorem twins_execute {s : Statement} (hs : s.isRead = false) (params : Params) :
    Twins P Q InterpretError.fault InterpretError.fault (SameResult s)
      (execute P s params : InterpretM σ _) (execute Q s params : InterpretM τ _) := by
  cases s with
  | create pattern =>
      refine twins_look.bind fun parts parts' hparts => ?_
      cases hparts
      exact (twins_callEngine (twins_insertNode _)).bind fun _ _ _ => .pure rfl
  | merge pattern =>
      refine twins_look.bind fun parts parts' hparts => ?_
      cases hparts
      refine Coupled.get.bind fun e₀ e₀' h₀ => ?_
      rw [h₀.hasNode]
      split
      · exact .pure rfl
      · exact (twins_callEngine (twins_insertNode _)).bind fun _ _ _ => .pure rfl
  | matchReturn patterns whereClause items orderBy limit => cases hs
  | matchDelete patterns whereClause var detach =>
      exact twins_execMatchDelete patterns whereClause var detach params

end Queries

/-! ## Calls -/

/-- The statement of a query. -/
def Call.statement : Call → Option Statement
  | .op _ => none
  | .query cypher _ => (parse cypher).toOption

/-- The call is a query that only reads. -/
def Call.isRead (c : Call) : Bool := c.statement.any Statement.isRead

/-- The replies to a call on two engines: results of queries are compared as `SameResult` says, and
other replies are equal. -/
def Call.SameReply (c : Call) : Reply → Reply → Prop
  | .result r, .result r' => ∀ s, c.statement = some s → SameResult s r r'
  | reply, reply' => reply = reply'

theorem Op.run_eq {υ : Type} [Storage υ] {P : Platform} (o : Op) :
    (o.run P : EngineM υ Unit) = (o.reply P >>= fun _ => pure ()) := by
  cases o <;> simp [Op.run, Op.reply]

/-- `Call.run` drops the reply. -/
theorem Call.run_eq {υ : Type} [Storage υ] {P : Platform} (c : Call) (e : Engine υ) :
    c.run P e = (c.reply P >>= fun _ => pure ()) e := by
  cases c with
  | query cypher params => simp [Call.run, Call.reply]
  | op o =>
      have hop := congrFun (o.run_eq (υ := υ) (P := P)) e
      rw [Call.run, Call.reply, EStateM.adaptExcept, hop]
      cases hrun : o.reply P e with
      | ok a e₁ =>
          rw [bind_of_ok hrun, bind_of_ok (adaptExcept_eq_ok_iff.2 hrun)]
          rfl
      | error err e₁ =>
          rw [bind_of_error hrun, bind_of_error (adaptExcept_eq_error_iff.2 ⟨err, hrun, rfl⟩)]

section Calls

variable {σ τ : Type} [LawfulStorage σ] [LawfulStorage τ] {P Q : Platform} {e : Engine σ}
  {e' : Engine τ}

theorem twins_query {cypher : String} {s : Statement} (hparse : parse cypher = .ok s)
    (hs : s.isRead = false) (params : Params) :
    Twins P Q QueryError.fault QueryError.fault (SameResult s)
      (Engine.query P cypher params : EStateM QueryError (Engine σ) QueryResult)
      (Engine.query Q cypher params : EStateM QueryError (Engine τ) QueryResult) := by
  unfold Engine.query
  rw [hparse]
  exact (twins_execute hs params).adaptExcept (fun _ herr => herr) fun _ herr => herr

theorem twins_call {c : Call} (hc : c.isRead = false) :
    Twins P Q CallError.fault CallError.fault c.SameReply
      (c.reply P : EStateM CallError (Engine σ) Reply)
      (c.reply Q : EStateM CallError (Engine τ) Reply) := by
  cases c with
  | op o =>
      have hop : Twins P Q CallError.fault CallError.fault Eq
          ((Call.op o).reply P : EStateM CallError (Engine σ) Reply)
          ((Call.op o).reply Q : EStateM CallError (Engine τ) Reply) :=
        (twins_op o).adaptExcept (fun _ herr => herr) fun _ herr => herr
      refine hop.mono fun reply reply' heq => ?_
      subst heq
      cases reply with
      | result r => exact fun s hs => nomatch hs
      | _ => rfl
  | query cypher params =>
      cases hparse : parse cypher with
      | error err =>
          -- a text that does not parse is refused on both
          intro e e' h _ _
          have hrun : ∀ {υ : Type} [LawfulStorage υ] (C : Platform) (x : Engine υ),
              (Call.query cypher params).reply C x = .error (.query (.parse err)) x := by
            intro υ _ C x
            have hquery : Engine.query C cypher params x = .error (.parse err) x := by
              unfold Engine.query
              rw [hparse]
              rfl
            exact bind_of_error (adaptExcept_eq_error_iff.2 ⟨_, hquery, rfl⟩)
          rw [hrun, hrun]
          exact .error h
      | ok s =>
          have hstatement : (Call.query cypher params).statement = some s := by
            rw [Call.statement, hparse]
            rfl
          have hs : s.isRead = false := by
            rw [Call.isRead, hstatement] at hc
            exact hc
          have hquery : Twins P Q CallError.fault CallError.fault (SameResult s)
              ((Engine.query P cypher params).adaptExcept .query :
                EStateM CallError (Engine σ) QueryResult)
              ((Engine.query Q cypher params).adaptExcept .query :
                EStateM CallError (Engine τ) QueryResult) :=
            (twins_query hparse hs params).adaptExcept (fun _ herr => herr) fun _ herr => herr
          refine hquery.bind fun r r' hr => .pure ?_
          intro s' hs'
          rw [hstatement] at hs'
          cases hs'
          exact hr

/-- The statement of a query that only reads. -/
theorem Call.eq_of_isRead {c : Call} (hc : c.isRead = true) :
    ∃ cypher params patterns whereClause items orderBy limit, c = .query cypher params ∧
      parse cypher = .ok (.matchReturn patterns whereClause items orderBy limit) := by
  cases c with
  | op o => cases hc
  | query cypher params =>
      rw [Call.isRead, Call.statement] at hc
      cases hparse : parse cypher with
      | error err =>
          rw [hparse] at hc
          cases hc
      | ok s =>
          rw [hparse] at hc
          cases s with
          | matchReturn patterns whereClause items orderBy limit =>
              exact ⟨cypher, params, patterns, whereClause, items, orderBy, limit, rfl, hparse⟩
          | _ => cases hc

/-- Such a query leaves the engine as it is. -/
theorem Call.quiet_of_isRead {c : Call} (hc : c.isRead = true) :
    Moves Quiet (c.reply P : EStateM CallError (Engine σ) Reply) := by
  intro e
  obtain ⟨cypher, params, patterns, whereClause, items, orderBy, limit, rfl, hparse⟩ :=
    Call.eq_of_isRead hc
  rw [Call.reply, finalState_bind_pure, finalState_adaptExcept, Engine.query, hparse]
  dsimp only
  rw [finalState_adaptExcept]
  exact (Reading.execMatchReturn params whereClause patterns items orderBy limit).quiet e

/-- After any call the engines hold the same graph again. -/
theorem SameGraph.call (h : SameGraph P Q e e') {c : Call}
    (hok : AppendsSucceed CallError.fault (c.run P e))
    (hok' : AppendsSucceed CallError.fault (c.run Q e')) :
    SameGraph P Q (finalState (c.run P e)) (finalState (c.run Q e')) := by
  rw [Call.run_eq] at hok hok' ⊢
  rw [Call.run_eq, finalState_bind_pure, finalState_bind_pure]
  cases hc : c.isRead with
  | false =>
      exact (twins_call hc e e' h (spared_iff.2 hok.of_bind) (spared_iff.2 hok'.of_bind)).final
  | true => exact h.quiet (Call.quiet_of_isRead hc e) (Call.quiet_of_isRead hc e')

theorem SameGraph.runAll (cs : List Call) : ∀ {e : Engine σ} {e' : Engine τ}, SameGraph P Q e e' →
    Call.AllSucceed P cs e → Call.AllSucceed Q cs e' →
    SameGraph P Q (Call.runAll P cs e) (Call.runAll Q cs e') := by
  induction cs with
  | nil => exact fun h _ _ => h
  | cons c cs ih => exact fun h hok hok' => ih (h.call hok.1 hok'.1) hok.2 hok'.2

/-- The reads of an engine determine the graph that it agrees with. -/
theorem Agrees.graph_eq {g g' : PropertyGraph} (h : Agrees P e g) (h' : Agrees P e g') :
    g = g' := by
  refine PropertyGraph.ext_lookup (fun i => ?_) (fun i => ?_) (h.schema.symm.trans h'.schema)
  · obtain ⟨n, e₁, hrun, -, hn⟩ := h.getNode i
    obtain ⟨n', e₁', hrun', -, hn'⟩ := h'.getNode i
    rw [hrun] at hrun'
    cases hrun'
    exact hn.symm.trans hn'
  · obtain ⟨d, e₁, hrun, -, hd⟩ := h.getEdge i
    obtain ⟨d', e₁', hrun', -, hd'⟩ := h'.getEdge i
    rw [hrun] at hrun'
    cases hrun'
    exact hd.symm.trans hd'

/-- Both calls succeeded with replies that are the same, or both failed. -/
inductive Call.SameOutcome (c : Call) :
    EStateM.Result CallError (Engine σ) Reply → EStateM.Result CallError (Engine τ) Reply → Prop
  | ok {reply reply' : Reply} (h : c.SameReply reply reply') (e : Engine σ) (e' : Engine τ) :
      c.SameOutcome (.ok reply e) (.ok reply' e')
  | error (ε ε' : CallError) (e : Engine σ) (e' : Engine τ) :
      c.SameOutcome (.error ε e) (.error ε' e')

end Calls

end Morceau
