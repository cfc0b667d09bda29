import Morceau.GraphRefinement

/-!
# Guards on the records of a log

A guard is a condition on an operation and the graph it is applied to. `Guarded P G e` says that the
engine satisfies the invariant for a log in which every record satisfied the guard `G` when it was
appended. Code that only reads keeps it; a commit keeps it when its operation satisfies the guard in
the graph of the log so far; and so do sequences of both (`KeepsGuard`).

`ReachBy P allowed e` are the engines that runs of allowed calls reach, whatever the outcome of each
call. If every allowed call keeps a guard, every such engine satisfies it (`ReachBy.guarded`), and
so does every engine opened on a prefix of its store (`Guarded.open_prefix`).
-/

set_option autoImplicit false

namespace Morceau

open Lib LawfulStorage

variable {σ : Type} [LawfulStorage σ] {P : Platform} {G : PropertyGraph → MutationOp → Prop}

/-- The engine satisfies the invariant for a log whose records satisfied the guard. -/
def Guarded (P : Platform) (G : PropertyGraph → MutationOp → Prop) (e : Engine σ) : Prop :=
  ∃ log, Core P e log ∧ GuardedLog G log

/-- Whatever its outcome, the code keeps the guard. -/
def KeepsGuard (P : Platform) (G : PropertyGraph → MutationOp → Prop) {ε α : Type}
    (x : EStateM ε (Engine σ) α) : Prop :=
  Moves (fun e e' => Guarded P G e → Guarded P G e') x

theorem Guarded.quiet {e e' : Engine σ} (h : Guarded P G e) (hq : Quiet e e') :
    Guarded P G e' := by
  obtain ⟨log, hcore, hlog⟩ := h
  exact ⟨log, hcore.quiet hq, hlog⟩

theorem Guarded.wire {e : Engine σ} (h : Guarded P G e) (l : MutationLog) :
    Guarded P G (e.withMutationLog l) := by
  obtain ⟨log, hcore, hlog⟩ := h
  exact ⟨log, ⟨hcore.contents, hcore.encodable, hcore.wf, hcore.indexes, hcore.reliable⟩, hlog⟩

/-- A commit whose operation satisfies the guard keeps it, also when it fails. -/
theorem Core.guarded_commit {e : Engine σ} {log : List Mutation} (h : Core P e log)
    (hlog : GuardedLog G log) {op : MutationOp} (hf : Fresh e op)
    (hop : G (PropertyGraph.ofLog log) op) : Guarded P G (finalState (Engine.commit P op e)) := by
  rcases h.commit hf with ⟨e', hc, hcom⟩ | ⟨err, e', hc, -, hfail⟩
  · rw [hc]
    exact ⟨_, hcom.core, guardedLog_snoc.2 ⟨hlog, hop⟩⟩
  · rw [hc]
    exact ⟨log, h.failed hfail, hlog⟩

/-- `insert_node` keeps the guard if it holds of the node when it passes the checks. -/
theorem Core.guarded_insertNode {e : Engine σ} {log : List Mutation} (h : Core P e log)
    (hlog : GuardedLog G log) {node : Node} (hop : Engine.nodeChecks node e = .ok () →
      G (PropertyGraph.ofLog log) (.nodeInsert node)) :
    Guarded P G (finalState (Engine.insertNode P node e)) := by
  rw [insertNode_eq]
  cases hchecks : Engine.nodeChecks node e with
  | error err => exact ⟨log, h, hlog⟩
  | ok u => exact h.guarded_commit hlog trivial (hop hchecks)

/-- `insert_edge` keeps the guard if it holds of the edge when it passes the checks. -/
theorem Core.guarded_insertEdge {e : Engine σ} {log : List Mutation} (h : Core P e log)
    (hlog : GuardedLog G log) {edge : Edge} (hop : Engine.edgeChecks edge e = .ok () →
      G (PropertyGraph.ofLog log) (.edgeInsert edge)) :
    Guarded P G (finalState (Engine.insertEdge P edge e)) := by
  rw [insertEdge_eq]
  cases hchecks : Engine.edgeChecks edge e with
  | error err => exact ⟨log, h, hlog⟩
  | ok u => exact h.guarded_commit hlog (edgeChecks_ok hchecks).1 (hop hchecks)

namespace KeepsGuard

variable {ε α β : Type}

theorem bind {x : EStateM ε (Engine σ) α} {f : α → EStateM ε (Engine σ) β}
    (hx : KeepsGuard P G x) (hf : ∀ a, KeepsGuard P G (f a)) : KeepsGuard P G (x >>= f) :=
  Moves.bind (fun _ _ _ hab hbc h => hbc (hab h)) hx hf

theorem adaptExcept {ε' : Type} (f : ε → ε') {x : EStateM ε (Engine σ) α}
    (hx : KeepsGuard P G x) : KeepsGuard P G (x.adaptExcept f) := by
  intro e h
  rw [finalState_adaptExcept]
  exact hx e h

theorem pure (a : α) : KeepsGuard P G (pure a : EStateM ε (Engine σ) α) := fun _ h => h

theorem throw (err : ε) : KeepsGuard P G (throw err : EStateM ε (Engine σ) α) := fun _ h => h

theorem get : KeepsGuard P G (get : EStateM ε (Engine σ) (Engine σ)) := fun _ h => h

theorem reading {fault : ε → Fault} {x : EStateM ε (Engine σ) α} (hx : Reading P fault x) :
    KeepsGuard P G x := fun e h => h.quiet (hx.quiet e)

/-- A commit that is always fresh and guarded keeps the guard. -/
theorem commit {op : MutationOp} (hfresh : ∀ e : Engine σ, Fresh e op) (hop : ∀ g, G g op) :
    KeepsGuard P G (Engine.commit P op : EngineM σ Unit) := by
  rintro e ⟨log, hcore, hlog⟩
  exact hcore.guarded_commit hlog (hfresh e) (hop _)

/-- `insert_node` keeps the guard if it holds of every node that passes the checks. -/
theorem insertNode {node : Node}
    (hop : ∀ (e : Engine σ) log, Core P e log → Engine.nodeChecks node e = .ok () →
      G (PropertyGraph.ofLog log) (.nodeInsert node)) :
    KeepsGuard P G (Engine.insertNode P node : EngineM σ Unit) := by
  rintro e ⟨log, hcore, hlog⟩
  exact hcore.guarded_insertNode hlog (hop e log hcore)

/-- `insert_edge` keeps the guard if it holds of every edge that passes the checks. -/
theorem insertEdge {edge : Edge}
    (hop : ∀ (e : Engine σ) log, Core P e log → Engine.edgeChecks edge e = .ok () →
      G (PropertyGraph.ofLog log) (.edgeInsert edge)) :
    KeepsGuard P G (Engine.insertEdge P edge : EngineM σ Unit) := by
  rintro e ⟨log, hcore, hlog⟩
  exact hcore.guarded_insertEdge hlog (hop e log hcore)

theorem deleteNode {id : String} (hop : ∀ g, G g (.nodeDelete id)) :
    KeepsGuard P G (Engine.deleteNode P id : EngineM σ Bool) := by
  refine bind get fun e0 => ?_
  split
  · exact pure false
  · exact bind (commit (fun _ => trivial) hop) fun _ => pure true

theorem deleteEdge {id : String} (hop : ∀ g, G g (.edgeDelete id)) :
    KeepsGuard P G (Engine.deleteEdge P id : EngineM σ Bool) := by
  refine bind get fun e0 => ?_
  split
  · exact pure false
  · exact bind (commit (fun _ => trivial) hop) fun _ => pure true

theorem commitAll {ops : List MutationOp} (hfresh : ∀ op ∈ ops, ∀ e : Engine σ, Fresh e op)
    (hops : ∀ op ∈ ops, ∀ g, G g op) :
    KeepsGuard P G (Engine.commitAll P ops : EngineM σ Unit) := by
  induction ops with
  | nil => exact pure ()
  | cons op ops ih =>
      have hmem := List.mem_cons_self (a := op) (l := ops)
      refine bind (commit (hfresh op hmem) (hops op hmem)) fun _ => ih ?_ ?_
      · exact fun op' hop' => hfresh op' (List.mem_cons_of_mem _ hop')
      · exact fun op' hop' => hops op' (List.mem_cons_of_mem _ hop')

/-- The cascade keeps a guard that says nothing about deletes. -/
theorem cascade {id : String} (hedge : ∀ i g, G g (.edgeDelete i))
    (hnode : ∀ g, G g (.nodeDelete id)) :
    KeepsGuard P G (Engine.deleteNodeWithCascade P id : EngineM σ (Bool × Nat)) := by
  refine bind get fun e0 => ?_
  split
  · exact pure _
  · refine bind (fun e h => h.quiet (Engine.quiet_iterEdgesIncidentTo id e)) fun incident => ?_
    refine bind (commitAll ?_ ?_) fun _ => bind (commit (fun _ => trivial) hnode) fun _ => pure _
    · intro op hop e
      obtain ⟨d, -, rfl⟩ := List.mem_map.1 hop
      trivial
    · intro op hop g
      obtain ⟨d, -, rfl⟩ := List.mem_map.1 hop
      exact hedge d.id g

end KeepsGuard

/-! ## Queries -/

/-- The statement inserts a node. -/
def Statement.insertsNode : Statement → Bool
  | .create _ => true
  | .merge _ => true
  | _ => false

/-- The statement deletes nodes and leaves their edges. -/
def Statement.plainDelete : Statement → Bool
  | .matchDelete _ _ _ detach => !detach
  | _ => false

namespace KeepsGuard

theorem deleteRows {var : String} {detach : Bool}
    (hdel : detach = false → ∀ id, KeepsGuard P G (Engine.deleteNode P id : EngineM σ Bool))
    (hcas : ∀ id, KeepsGuard P G (Engine.deleteNodeWithCascade P id : EngineM σ (Bool × Nat)))
    (rows : List Bindings) :
    KeepsGuard P G (Interpreter.deleteRows P var detach rows : InterpretM σ Unit) := by
  induction rows with
  | nil => exact pure _
  | cons row rows ih =>
      unfold Interpreter.deleteRows
      split
      · exact throw _
      · exact throw _
      · cases detach with
        | true => exact bind (adaptExcept _ (hcas _)) fun _ => ih
        | false => exact bind (adaptExcept _ (hdel rfl _)) fun _ => ih

/-- A query keeps the guard if the engine operations it calls do. -/
theorem query {cypher : String} (params : Params)
    (hins : ∀ stmt, parse cypher = .ok stmt → stmt.insertsNode = true →
      ∀ node, KeepsGuard P G (Engine.insertNode P node : EngineM σ Unit))
    (hdel : ∀ stmt, parse cypher = .ok stmt → stmt.plainDelete = true →
      ∀ id, KeepsGuard P G (Engine.deleteNode P id : EngineM σ Bool))
    (hcas : ∀ id, KeepsGuard P G (Engine.deleteNodeWithCascade P id : EngineM σ (Bool × Nat))) :
    KeepsGuard P G (Engine.query P cypher params : EStateM _ (Engine σ) _) := by
  have hparts : ∀ pattern, Reading P InterpretError.fault (Interpreter.look fun _ : Engine σ =>
      Interpreter.nodeParts pattern params) :=
    fun pattern => Reading.lookAt fun _ => Interpreter.refuses_nodeParts params pattern
  unfold Engine.query
  cases hparse : parse cypher with
  | error err => exact throw _
  | ok stmt =>
      refine adaptExcept _ ?_
      cases stmt with
      | create pattern =>
          refine bind (reading (hparts pattern)) fun parts => ?_
          exact bind (adaptExcept _ (hins _ hparse rfl _)) fun _ => pure _
      | merge pattern =>
          refine bind (reading (hparts pattern)) fun parts => bind get fun e0 => ?_
          split
          · exact pure _
          · exact bind (adaptExcept _ (hins _ hparse rfl _)) fun _ => pure _
      | matchReturn patterns whereClause returnItems orderBy limit =>
          exact reading
            (Reading.execMatchReturn params whereClause patterns returnItems orderBy limit)
      | matchDelete patterns whereClause var detach =>
          refine bind (reading (Reading.findMatchRows params whereClause patterns _)) fun rows => ?_
          -- without `DETACH` the statement itself is a plain delete
          refine bind (deleteRows (fun hd id => ?_) hcas rows) fun _ => pure _
          exact hdel _ hparse (by simp [Statement.plainDelete, hd]) id

end KeepsGuard

/-- The call is neither `delete_node` nor a `DELETE` without `DETACH`. -/
def Call.cascading : Call → Bool
  | .op (.deleteNode _) => false
  | .op _ => true
  | .query cypher _ =>
      match parse cypher with
      | .ok stmt => !stmt.plainDelete
      | .error _ => true

/-- The call is an insert, or a statement that inserts. -/
def Call.inserting : Call → Bool
  | .op (.insertNode _) => true
  | .op (.insertEdge _) => true
  | .op _ => false
  | .query cypher _ =>
      match parse cypher with
      | .ok stmt => stmt.insertsNode
      | .error _ => false

/-- A call keeps the guard if the operations it is made of do. -/
theorem Call.keepsGuard (c : Call)
    (hnode : c.inserting = true →
      ∀ node, KeepsGuard P G (Engine.insertNode P node : EngineM σ Unit))
    (hedge : c.inserting = true →
      ∀ edge, KeepsGuard P G (Engine.insertEdge P edge : EngineM σ Unit))
    (hdel : c.cascading = false →
      ∀ id, KeepsGuard P G (Engine.deleteNode P id : EngineM σ Bool))
    (hcas : ∀ id, KeepsGuard P G (Engine.deleteNodeWithCascade P id : EngineM σ (Bool × Nat)))
    (hedgeDelete : ∀ g id, G g (.edgeDelete id)) (hschema : ∀ g s, G g (.schemaApply s)) :
    KeepsGuard P G (c.run P : EStateM CallError (Engine σ) Unit) := by
  cases c with
  | op o =>
      refine KeepsGuard.adaptExcept _ ?_
      cases o with
      | insertNode node => exact hnode rfl node
      | insertEdge edge => exact hedge rfl edge
      | deleteNode id => exact KeepsGuard.bind (hdel rfl id) fun _ => KeepsGuard.pure ()
      | deleteEdge id =>
          exact KeepsGuard.bind (KeepsGuard.deleteEdge fun g => hedgeDelete g id)
            fun _ => KeepsGuard.pure ()
      | deleteNodeWithCascade id => exact KeepsGuard.bind (hcas id) fun _ => KeepsGuard.pure ()
      | applySchema schema => exact KeepsGuard.commit (fun _ => trivial) fun g => hschema g schema
  | query cypher params =>
      refine KeepsGuard.bind (KeepsGuard.adaptExcept _ ?_) fun _ => KeepsGuard.pure ()
      refine KeepsGuard.query params (fun stmt hparse hinserts => hnode ?_)
        (fun stmt hparse hplain => hdel ?_) hcas
      · rw [Call.inserting, hparse]
        exact hinserts
      · rw [Call.cascading, hparse]
        simp [hplain]

/-! ## Reachable engines -/

/-- Engines reachable from a fresh store by allowed calls, each with any outcome, by wiring a
mutation log, and by crashes. A crash that leaves the whole store is a plain reopen. -/
inductive ReachBy (P : Platform) (allowed : Call → Prop) : Engine σ → Prop where
  | fresh {actor : ActorId} {s : σ} {e : Engine σ} :
      contents s = header → Reliable s → Engine.openWith P actor s = .ok e → ReachBy P allowed e
  | call {e : Engine σ} (c : Call) :
      ReachBy P allowed e → allowed c → ReachBy P allowed (finalState (c.run P e))
  | wire {e : Engine σ} (l : MutationLog) :
      ReachBy P allowed e → ReachBy P allowed (e.withMutationLog l)
  | crash {e e' : Engine σ} {k : Nat} {actor : ActorId} {s : σ} :
      ReachBy P allowed e → headerLen ≤ k → contents s = (contents e.storage).take k →
      Reliable s → Engine.openWith P actor s = .ok e' → ReachBy P allowed e'

/-- Runs whose appends succeed are runs. -/
theorem Reach.reachBy {e : Engine σ} (h : Reach P e) : ReachBy P (fun _ => True) e := by
  induction h with
  | fresh hs hrel hopen => exact .fresh hs hrel hopen
  | call c _ _ ih => exact .call c ih trivial
  | wire l _ ih => exact .wire l ih
  | crash _ hk hs hrel hopen ih => exact .crash ih hk hs hrel hopen

theorem ReachBy.runAll {allowed : Call → Prop} {cs : List Call} :
    ∀ {e : Engine σ}, ReachBy P allowed e → (∀ c ∈ cs, allowed c) →
      ReachBy P allowed (Call.runAll P cs e) := by
  induction cs with
  | nil => exact fun h _ => h
  | cons c cs ih =>
      intro e h hall
      exact ih (.call c h (hall c (List.mem_cons_self ..)))
        fun c' hc' => hall c' (List.mem_cons_of_mem _ hc')

/-- An engine opened on a prefix of the store satisfies the guard. -/
theorem Guarded.open_prefix {e : Engine σ} (h : Guarded P G e) {k : Nat} (hk : headerLen ≤ k)
    {s : σ} (hs : contents s = (contents e.storage).take k) (hrel : Reliable s) (actor : ActorId) :
    ∃ e', Engine.openWith P actor s = .ok e' ∧ Guarded P G e' := by
  obtain ⟨log, hcore, hlog⟩ := h
  obtain ⟨n, e', -, hopen, hrec⟩ := hcore.openWith_take hk hs hrel actor
  exact ⟨e', hopen, log.take n, hrec.core, hlog.take n⟩

/-- What every allowed call keeps holds of every engine that such calls reach. -/
theorem ReachBy.guarded {allowed : Call → Prop}
    (hcall : ∀ c, allowed c → KeepsGuard P G (c.run P : EStateM CallError (Engine σ) Unit))
    {e : Engine σ} (h : ReachBy P allowed e) : Guarded P G e := by
  induction h with
  | fresh hs hrel hopen => exact ⟨[], (inv_fresh hs hrel hopen).1.toCore, guardedLog_nil⟩
  | call c _ hc ih => exact hcall c hc _ ih
  | wire l _ ih => exact ih.wire l
  -- a prefix of the store holds a prefix of the log, and the guard is about prefixes
  | crash _ hk hs hrel hopen ih =>
      obtain ⟨e', hopen', hg⟩ := ih.open_prefix hk hs hrel _
      rw [hopen] at hopen'
      cases hopen'
      exact hg

end Morceau
