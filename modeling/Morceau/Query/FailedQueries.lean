import Morceau.Query.Answers

/-!
# A failed query changes nothing

A query that the interpreter refuses leaves the engine as it was (`RefusesQuietly`). Reading code
does, whatever its outcome, and `CREATE` and `MERGE` check everything before their only commit. For
`MATCH ... DELETE` the argument is about the rows: all the rows of a match bind the same names, each
to the same kind of entity (`SameKinds`), so the loop that deletes either refuses the first row,
before any commit, or no row at all.
-/

set_option autoImplicit false

namespace Morceau

open Lib LawfulStorage Interpreter

/-! ## The rows of a match bind the same names to the same kinds -/

/-- Whether a binding is a node. -/
def Binding.isNode : Binding → Bool
  | .node _ => true
  | .edge _ => false

/-- What a row says about a name: whether it is bound, and whether to a node. -/
def kindAt (row : Bindings) (x : String) : Option Bool := (row[x]?).map Binding.isNode

/-- The rows bind the same names, each to the same kind of entity. -/
def SameKinds (rows : List Bindings) : Prop :=
  ∀ r ∈ rows, ∀ r' ∈ rows, ∀ x, kindAt r x = kindAt r' x

theorem kindAt_insert (row : Bindings) (x y : String) (b : Binding) :
    kindAt (row.insert x b) y = if x = y then some b.isNode else kindAt row y := by
  unfold kindAt
  rw [Std.ExtTreeMap.getElem?_insert]
  by_cases hxy : x = y
  · simp [hxy]
  · simp [hxy, Std.LawfulEqCmp.compare_eq_iff_eq]

theorem kindAt_merge (a b : Bindings) (x : String) :
    kindAt (merge a b) x = (kindAt a x).or (kindAt b x) := by
  unfold kindAt
  rw [getElem?_merge]
  cases a[x]? <;> simp

theorem sameKinds_startRows (S : Snapshot) (np : NodePattern) (found : Option String) :
    SameKinds (S.startRows np found) := by
  intro r hr r' hr' x
  obtain ⟨n, -, rfl⟩ := List.mem_map.1 hr
  obtain ⟨n', -, rfl⟩ := List.mem_map.1 hr'
  simp only [nodeRow, kindAt_insert, Binding.isNode]

theorem SameKinds.hopRows {S : Snapshot} {rows : List Bindings} (h : SameKinds rows)
    (prevVar : String) (edgePat : EdgePattern) (targetPat : NodePattern)
    (edgeProps : BTreeMap String Value) :
    SameKinds (rows.flatMap (S.hopRows prevVar edgePat targetPat edgeProps)) := by
  intro m hm m' hm' x
  obtain ⟨r, hr, hm⟩ := List.mem_flatMap.1 hm
  obtain ⟨r', hr', hm'⟩ := List.mem_flatMap.1 hm'
  obtain ⟨d, _, t, -, rfl⟩ := Snapshot.mem_hopRows hm
  obtain ⟨d', _, t', -, rfl⟩ := Snapshot.mem_hopRows hm'
  simp only [kindAt_insert, Binding.isNode, h r hr r' hr' x]

theorem SameKinds.joinRows {rows cands : List Bindings} (h : SameKinds rows)
    (hc : SameKinds cands) : SameKinds (joinRows rows cands) := by
  intro m hm m' hm' x
  obtain ⟨r, hr, t, ht, hm⟩ := Snapshot.mem_joinRows.1 hm
  obtain ⟨r', hr', t', ht', hm'⟩ := Snapshot.mem_joinRows.1 hm'
  obtain ⟨-, rfl⟩ := unifyBindings_eq_some_iff.1 hm
  obtain ⟨-, rfl⟩ := unifyBindings_eq_some_iff.1 hm'
  rw [kindAt_merge, kindAt_merge, h r hr r' hr' x, hc t ht t' ht' x]

/-- All the rows of a match bind the same names, each to the same kind of entity. -/
theorem Core.sameKinds {σ : Type} [LawfulStorage σ] {P : Platform} {e e' : Engine σ}
    {log : List Mutation} (h : Core P e log) {patterns : List Pattern} {whereClause : Option Expr}
    {params : Params} {limit : Option Nat} {out : List Bindings}
    (hr : findMatchRows P patterns whereClause params limit e = .ok out e') : SameKinds out := by
  have heval := (h.backed.findMatchRows params whereClause patterns limit).eq_ok hr
  obtain ⟨joined, hjoin, hfilter⟩ := exceptBind_eq_ok_iff.1 heval
  have hempty : SameKinds [(∅ : Bindings)] := by
    intro r hmem r' hmem' x
    rw [List.mem_singleton.1 hmem, List.mem_singleton.1 hmem']
  have hall : SameKinds joined := by
    refine Snapshot.join_induction (by simp [SameKinds]) ?_ ?_ ?_ hempty hjoin
    · exact fun p _ found => sameKinds_startRows _ p.start found
    · exact fun p _ hop _ prevVar edgeProps rows h => h.hopRows prevVar hop.1 hop.2 edgeProps
    · exact fun rows cands h hc => h.joinRows hc
  -- `WHERE` only drops rows
  have hsub := (filterRows_ok hfilter).1.subset
  exact fun r hmem r' hmem' => hall r (hsub hmem) r' (hsub hmem')

/-! ## Deletes are never refused -/

section Deletes

variable {σ : Type} [LawfulStorage σ] {P : Platform} {ε α β : Type} {fault : ε → Fault}

/-- On an engine that keeps the invariant the call is not refused. -/
def NeverRefuses (P : Platform) (fault : ε → Fault) (x : EStateM ε (Engine σ) α) : Prop :=
  ∀ (e : Engine σ) (log : List Mutation), Core P e log →
    ∀ err e', x e = .error err e' → fault err ≠ .refusal

namespace NeverRefuses

theorem pure (a : α) : NeverRefuses P fault (pure a : EStateM ε (Engine σ) α) := by
  intro e log _ err e' hr
  cases hr

/-- The engine keeps the invariant in between. -/
theorem bind {x : EStateM ε (Engine σ) α} {f : α → EStateM ε (Engine σ) β}
    (hchained : Chained P fault x) (hx : NeverRefuses P fault x)
    (hf : ∀ a, NeverRefuses P fault (f a)) : NeverRefuses P fault (x >>= f) := by
  intro e log h err e' hr
  rcases bind_eq_error_iff.1 hr with hr | ⟨a, e₁, hok, hr⟩
  · exact hx e log h err e' hr
  · have hend := hchained e log h
    rw [hok] at hend
    cases hend with
    | ok hch =>
        obtain ⟨ms, h₁⟩ := hch.core h
        exact hf a e₁ _ h₁ err e' hr

theorem commitOp {op : MutationOp} (hf : ∀ e : Engine σ, Fresh e op) :
    NeverRefuses P EngineError.fault (Engine.commit P op : EngineM σ Unit) := by
  intro e log h err e' hr
  rcases h.commit (hf e) with ⟨e₁, hc, -⟩ | ⟨err₁, e₁, hc, hio, -⟩
  · rw [hc] at hr
    cases hr
  · rw [hc] at hr
    cases hr
    simp [hio]

theorem get : NeverRefuses P fault (get : EStateM ε (Engine σ) (Engine σ)) := by
  intro e log _ err e' hr
  cases hr

theorem callEngine {x : EngineM σ α} (hx : NeverRefuses P EngineError.fault x) :
    NeverRefuses P InterpretError.fault (Interpreter.callEngine x) := by
  intro e log h err e' hr
  obtain ⟨cause, hcause, rfl⟩ := adaptExcept_eq_error_iff.1 hr
  exact hx e log h cause e' hcause

theorem deleteNode (id : String) :
    NeverRefuses P EngineError.fault (Engine.deleteNode P id : EngineM σ Bool) := by
  refine bind Shaped.get.chained get fun e₀ => ?_
  split
  · exact pure false
  · exact bind (Shaped.commitOp (by simp)).chained (commitOp fun _ => trivial) fun _ => pure true

theorem commitDeletes (ids : List String) :
    NeverRefuses P EngineError.fault
      (Engine.commitAll P (ids.map MutationOp.edgeDelete) : EngineM σ Unit) := by
  induction ids with
  | nil => exact pure ()
  | cons id ids ih =>
      exact bind (Shaped.commitOp (by simp)).chained (commitOp fun _ => trivial) fun _ => ih

theorem deleteNodeWithCascade (id : String) :
    NeverRefuses P EngineError.fault
      (Engine.deleteNodeWithCascade P id : EngineM σ (Bool × Nat)) := by
  refine bind Shaped.get.chained get fun e₀ => ?_
  split
  · exact pure _
  · have hread : Reading P EngineError.fault (Engine.iterEdgesIncidentTo P id : EngineM σ _) :=
      .read (Engine.quiet_iterEdgesIncidentTo id) fun e log h => ⟨_, h.iterEdgesIncidentTo id⟩
    refine bind hread.chained ?_ fun incident => ?_
    · intro e log h err e' hr
      obtain ⟨e₁, hok, -⟩ := h.iterEdgesIncidentTo id
      rw [hok] at hr
      cases hr
    · have hall : (incident.map fun d => MutationOp.edgeDelete d.id) =
          (incident.map Edge.id).map MutationOp.edgeDelete := by simp
      rw [hall]
      refine bind (Shaped.commitAll _ (by simp)).chained (commitDeletes _) fun _ => ?_
      exact bind (Shaped.commitOp (by simp)).chained (commitOp fun _ => trivial) fun _ => pure _

/-- The loop of `exec_match_delete`, when the rows bind the name to nodes. -/
theorem deleteRows {var : String} (detach : Bool) {rows : List Bindings}
    (hrows : ∀ r ∈ rows, kindAt r var = some true) :
    NeverRefuses P InterpretError.fault
      (Interpreter.deleteRows P var detach rows : InterpretM σ Unit) := by
  induction rows with
  | nil => exact pure ()
  | cons row rows ih =>
      have hrest := ih fun r hr => hrows r (List.mem_cons_of_mem row hr)
      have hrow := hrows row List.mem_cons_self
      unfold kindAt at hrow
      rcases hb : row[var]? with _ | n | d
      · simp [hb] at hrow
      · simp only [Interpreter.deleteRows, hb]
        cases detach with
        | true =>
            exact bind (Shaped.callEngine (Shaped.deleteNodeWithCascade n.id)).chained
              (callEngine (deleteNodeWithCascade n.id)) fun _ => hrest
        | false =>
            exact bind (Shaped.callEngine (Shaped.deleteNode n.id)).chained
              (callEngine (deleteNode n.id)) fun _ => hrest
      · simp [hb, Binding.isNode] at hrow

end NeverRefuses

end Deletes

/-! ## Refused queries -/

section Refused

variable {σ : Type} [LawfulStorage σ] {P : Platform} {ε α β : Type} {fault : ε → Fault}

/-- A refusal of the call leaves the engine as it was, up to the backend's own state. -/
def RefusesQuietly (P : Platform) (fault : ε → Fault) (x : EStateM ε (Engine σ) α) : Prop :=
  ∀ (e : Engine σ) (log : List Mutation), Core P e log →
    ∀ err e', x e = .error err e' → fault err = .refusal → Quiet e e'

namespace RefusesQuietly

theorem reading {x : EStateM ε (Engine σ) α} (hx : Reading P fault x) : RefusesQuietly P fault x :=
  fun _ _ _ _ _ hr _ => hx.quiet.error hr

/-- Reading code before a call. -/
theorem after {x : EStateM ε (Engine σ) α} {f : α → EStateM ε (Engine σ) β} (hx : Reading P fault x)
    (hf : ∀ a e e' log, Core P e log → x e = .ok a e' → RefusesQuietly P fault (f a)) :
    RefusesQuietly P fault (x >>= f) := by
  intro e log h err e' hr hrefused
  rcases bind_eq_error_iff.1 hr with hr | ⟨a, e₁, hok, hr⟩
  · exact hx.quiet.error hr
  · have hq : Quiet e e₁ := hx.quiet.ok hok
    exact hq.trans _ _ _ (hf a e e₁ log h hok e₁ log (h.quiet hq) err e' hr hrefused)

/-- A call before code that does not fail. -/
theorem before {x : EStateM ε (Engine σ) α} (hx : RefusesQuietly P fault x) (f : α → β) :
    RefusesQuietly P fault (x >>= fun a => pure (f a)) := by
  intro e log h err e' hr hrefused
  rcases bind_eq_error_iff.1 hr with hr | ⟨a, e₁, -, hr⟩
  · exact hx e log h err e' hr hrefused
  · cases hr

theorem insertNode (node : Node) :
    RefusesQuietly P EngineError.fault (Engine.insertNode P node : EngineM σ Unit) := by
  intro e log h err e' hr hrefused
  rcases insertNode_cases (P := P) node e with ⟨err₁, hr₁, -⟩ | hr₁
  · rw [hr₁] at hr
    cases hr
    exact Quiet.refl e
  · rw [hr₁] at hr
    have hcommit : NeverRefuses P EngineError.fault
        (Engine.commit P (.nodeInsert node) : EngineM σ Unit) :=
      NeverRefuses.commitOp fun _ => trivial
    exact absurd hrefused (hcommit e log h err e' hr)

theorem adapt {ε' : Type} {fault' : ε' → Fault} {x : EStateM ε (Engine σ) α} (f : ε → ε')
    (hf : ∀ err, fault' (f err) = fault err) (hx : RefusesQuietly P fault x) :
    RefusesQuietly P fault' (x.adaptExcept f) := by
  intro e log h err e' hr hrefused
  obtain ⟨cause, hcause, rfl⟩ := adaptExcept_eq_error_iff.1 hr
  exact hx e log h cause e' hcause ((hf cause).symm.trans hrefused)

theorem callEngine {x : EngineM σ α} (hx : RefusesQuietly P EngineError.fault x) :
    RefusesQuietly P InterpretError.fault (Interpreter.callEngine x) :=
  adapt _ (fun _ => rfl) hx

/-- The loop of `exec_match_delete` refuses at the first row or not at all. -/
theorem deleteRows (var : String) (detach : Bool) {rows : List Bindings} (h : SameKinds rows) :
    RefusesQuietly P InterpretError.fault
      (Interpreter.deleteRows P var detach rows : InterpretM σ Unit) := by
  cases rows with
  | nil => exact reading (Reading.pure ())
  | cons row rows =>
      by_cases hnode : kindAt row var = some true
      · intro e log hcore err e' hr hrefused
        have hall : ∀ r ∈ row :: rows, kindAt r var = some true :=
          fun r hr => (h r hr row List.mem_cons_self var).trans hnode
        exact absurd hrefused (NeverRefuses.deleteRows detach hall e log hcore err e' hr)
      · rcases hb : row[var]? with _ | n | d
        · simp only [Interpreter.deleteRows, hb]
          exact reading (Reading.throw rfl)
        · exact absurd (by simp [kindAt, hb, Binding.isNode]) hnode
        · simp only [Interpreter.deleteRows, hb]
          exact reading (Reading.throw rfl)

theorem execute (stmt : Statement) (params : Params) :
    RefusesQuietly P InterpretError.fault (Interpreter.execute P stmt params : InterpretM σ _) := by
  have hparts : ∀ pattern : NodePattern, Reading P InterpretError.fault
      (Interpreter.look (fun _ => nodeParts pattern params) : InterpretM σ _) :=
    fun pattern => Reading.lookAt fun _ => refuses_nodeParts params pattern
  cases stmt with
  | create pattern =>
      refine after (hparts pattern) fun parts _ _ _ _ _ => ?_
      exact before (callEngine (insertNode _)) _
  | merge pattern =>
      refine after (hparts pattern) fun parts _ _ _ _ _ => ?_
      refine after Reading.get fun e₀ _ _ _ _ _ => ?_
      split
      · exact reading (Reading.pure _)
      · exact before (callEngine (insertNode _)) _
  | matchReturn patterns whereClause returnItems orderBy limit =>
      exact reading (Reading.execMatchReturn params whereClause patterns returnItems orderBy limit)
  | matchDelete patterns whereClause var detach =>
      -- the rows are known here, so they bind the deleted name to one kind of entity
      refine after (Reading.findMatchRows params whereClause patterns none)
        fun rows e e' log h hrows => ?_
      exact before (deleteRows var detach (h.sameKinds hrows)) _

theorem query (cypher : String) (params : Params) :
    RefusesQuietly P QueryError.fault (Engine.query P cypher params : EStateM _ (Engine σ) _) := by
  unfold Engine.query
  cases Morceau.parse cypher with
  | error err => exact reading (Reading.throw rfl)
  | ok stmt => exact adapt _ (fun _ => rfl) (execute stmt params)

end RefusesQuietly

/-- A failed query changes nothing. When a query on a reachable engine fails, and not in the I/O
layer, the bytes of the store are what they were, and so is every field of the engine but the
backend itself: the indexes, the schema, the next sequence number and the mutation log. -/
theorem failed_query_changes_nothing {e e' : Engine σ} (h : Reach P e) {cypher : String}
    {params : Params} {err : QueryError} (hr : Engine.query P cypher params e = .error err e')
    (hio : err.fault ≠ .io) :
    contents e'.storage = contents e.storage ∧ e' = { e with storage := e'.storage } := by
  obtain ⟨log, hinv⟩ := h.inv
  have hrefused : err.fault = .refusal := by
    have hend := (Shaped.query params cypher).chained e log hinv.toCore
    rw [hr] at hend
    cases hend with
    | rejected herr _ => exact herr
    | broken herr _ _ _ => exact absurd herr hio
  have hq : Quiet e e' :=
    RefusesQuietly.query cypher params e log hinv.toCore err e' hr hrefused
  exact ⟨hq.contents, hq.rest⟩

end Refused

/-- The error of a query, if it failed. -/
def queryError (r : EStateM.Result QueryError (Engine MemoryStorage) QueryResult) :
    Option QueryError :=
  match r with
  | .ok _ _ => none
  | .error err _ => some err

/-- A `DELETE` of the edge of a match is refused, and the store with its two nodes and its edge
stays as it is. -/
theorem delete_of_edge_changes_nothing :
    ∃ err e', Engine.query bincode "MATCH (a)-[r]->(b) DELETE r" ∅ oneEdge = .error err e' ∧
      err = .interpret .deleteEdgeUnsupported ∧
      contents e'.storage = contents oneEdge.storage ∧
      e' = { oneEdge with storage := e'.storage } := by
  have herr : queryError (Engine.query bincode "MATCH (a)-[r]->(b) DELETE r" ∅ oneEdge) =
      some (.interpret .deleteEdgeUnsupported) := by decide +kernel
  cases hr : Engine.query bincode "MATCH (a)-[r]->(b) DELETE r" ∅ oneEdge with
  | ok result e' => simp [hr, queryError] at herr
  | error err e' =>
      have herr : err = .interpret .deleteEdgeUnsupported := by simpa [hr, queryError] using herr
      subst herr
      exact ⟨_, e', rfl, rfl, failed_query_changes_nothing reach_oneEdge hr (by decide)⟩

end Morceau
