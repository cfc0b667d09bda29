import Morceau.CrashRecovery

/-!
# Stores that the host supplies

`Engine::open_with` takes any backend, and writes no header: the two backends of the crate write it
themselves, in `FileStorage::open` and `MemoryStorage::new`. On a store that is empty when it is
first opened the commits go to offset 0, while recovery starts to read at `HEADER_LEN`; what a later
engine sees is not what was committed (`empty_store_loses_node`). A store that has its header when
it is first opened persists. An empty one persists when no call writes; which calls write there can
be read off the calls, since an engine on an empty store has no node, no edge and no schema
(`Call.writes`, `host_store_persists`).
-/

set_option autoImplicit false

namespace Morceau

open Lib LawfulStorage

variable {σ : Type} [LawfulStorage σ] {P : Platform}

/-! ## Stores only grow -/

/-- Publishing a record changes neither the store nor the sequence counter, whatever its outcome and
whatever the indexes point at. -/
theorem updateIndexesFor_keeps (op : MutationOp) (off len : Nat) (fs : Bool) (e : Engine σ) :
    contents (finalState (Engine.updateIndexesFor P op off len fs e)).storage =
        contents e.storage ∧
      (finalState (Engine.updateIndexesFor P op off len fs e)).nextLocalSeq = e.nextLocalSeq := by
  cases op with
  | nodeInsert n => exact ⟨rfl, rfl⟩
  | edgeInsert d => exact ⟨rfl, rfl⟩
  | nodeDelete id => exact ⟨rfl, rfl⟩
  | schemaApply s => exact ⟨rfl, rfl⟩
  | edgeDelete id =>
      simp only [Engine.updateIndexesFor]
      rw [bind_of_ok (get_apply e)]
      cases e.edgeIndex.lookup id with
      | none => exact ⟨rfl, rfl⟩
      | some entry =>
          simp only
          rw [bind_of_ok (set_apply _ _)]
          -- one read of the edge's record, and then the secondary indexes change
          have hread := Engine.quiet_readOpAt (P := P) entry
            { e with edgeIndex := e.edgeIndex.erase id }
          unfold Engine.removeEdgeFromIndexes
          cases hr : Engine.readOpAt P entry { e with edgeIndex := e.edgeIndex.erase id } with
          | error err e1 =>
              rw [bind_of_error hr]
              rw [hr] at hread
              exact ⟨hread.contents, hread.nextLocalSeq⟩
          | ok op e1 =>
              rw [bind_of_ok hr]
              rw [hr] at hread
              have hkeeps : contents e1.storage = contents e.storage ∧
                  e1.nextLocalSeq = e.nextLocalSeq := ⟨hread.contents, hread.nextLocalSeq⟩
              split
              · exact hkeeps
              · exact hkeeps

/-- A commit appends its frame, or fails in the I/O layer and leaves the contents. -/
theorem contents_commit (op : MutationOp) (e : Engine σ) :
    contents (finalState (Engine.commit P op e)).storage = contents e.storage ∧
        ¬ AppendsSucceed EngineError.fault (Engine.commit P op e) ∨
      P.Encodable (stamp e op) ∧ contents (finalState (Engine.commit P op e)).storage =
        contents e.storage ++ P.frameOf (stamp e op) := by
  rcases commit_cases (P := P) op e with ⟨err, herr, hcom⟩ | ⟨err, s', henc, happ, hcom⟩ |
    ⟨off, s', henc, happ, hcom⟩
  · rw [hcom]
    exact Or.inl ⟨rfl, fun hok => hok (encodeFramed_error_fault herr)⟩
  · rw [hcom]
    exact Or.inl ⟨(append_error happ).1, fun hok => hok rfl⟩
  · refine Or.inr ⟨henc, ?_⟩
    rw [← (append_ok happ).2.1, hcom]
    set e0 : Engine σ := { bumped e with storage := s' }
    have hpub := (updateIndexesFor_keeps (P := P) op off
      ((P.frameOf (stamp e op)).length - lenPrefixBytes) true e0).1
    cases hu : Engine.updateIndexesFor P op off
        ((P.frameOf (stamp e op)).length - lenPrefixBytes) true e0 with
    | ok u e1 =>
        rw [hu] at hpub
        rw [bind_of_ok hu]
        exact hpub
    | error err e1 =>
        rw [hu] at hpub
        rw [bind_of_error hu]
        exact hpub

/-- A commit that does not fail in the I/O layer leaves more than there was: a frame has at least
its length prefix. -/
theorem contents_commit_ne (op : MutationOp) (e : Engine σ)
    (hok : AppendsSucceed EngineError.fault (Engine.commit P op e)) :
    contents (finalState (Engine.commit P op e)).storage ≠ contents e.storage := by
  intro hsame
  rcases contents_commit (P := P) op e with ⟨-, hfail⟩ | ⟨henc, hgrow⟩
  · exact hfail hok
  · have h4 := henc.four_le
    rw [List.append_right_eq_self.1 (hgrow.symm.trans hsame)] at h4
    simp at h4

/-- The code only extends the store, and if it does not, and nothing fails in the I/O layer, it only
reads. -/
def Extends {ε α : Type} (fault : ε → Fault) (x : EStateM ε (Engine σ) α) : Prop :=
  ∀ e, contents e.storage <+: contents (finalState (x e)).storage ∧
    (AppendsSucceed fault (x e) → contents (finalState (x e)).storage = contents e.storage →
      Quiet e (finalState (x e)))

theorem Shaped.extends {ε α : Type} {fault : ε → Fault} {x : EStateM ε (Engine σ) α}
    (h : Shaped P fault x) : Extends fault x := by
  induction h with
  | reading hx =>
      intro e
      have hq := hx.quiet e
      exact ⟨hq.contents ▸ List.prefix_rfl, fun _ _ => hq⟩
  | commit hx =>
      intro e
      rcases hx e with ⟨err, hr, -⟩ | ⟨op, -, hr⟩
      · rw [hr]
        exact ⟨List.prefix_rfl, fun _ _ => Quiet.refl e⟩
      · rw [hr]
        refine ⟨?_, fun hok hsame => absurd hsame (contents_commit_ne op e hok)⟩
        rcases contents_commit (P := P) op e with ⟨hsame, -⟩ | ⟨-, hgrow⟩
        · exact hsame ▸ List.prefix_rfl
        · exact hgrow ▸ List.prefix_append _ _
  | @bind ε α β fault x f _ _ ihx ihf =>
      intro e
      obtain ⟨hpre, hquiet⟩ := ihx e
      cases hr : x e with
      | error err e1 =>
          rw [bind_of_error hr]
          rw [hr] at hpre hquiet
          exact ⟨hpre, hquiet⟩
      | ok a e1 =>
          rw [bind_of_ok hr]
          rw [hr] at hpre hquiet
          obtain ⟨hpre', hquiet'⟩ := ihf a e1
          refine ⟨hpre.trans hpre', fun hok hsame => ?_⟩
          -- the contents cannot shrink, so neither part changed them
          have hmid : contents e1.storage = contents e.storage := by
            rw [hsame] at hpre'
            exact List.IsPrefix.eq_of_length_le hpre' hpre.length_le
          exact Quiet.trans _ _ _ (hquiet trivial hmid) (hquiet' hok (hsame.trans hmid.symm))
  | @adapt ε ε' α fault fault' x f hf _ ih =>
      intro e
      rw [finalState_adaptExcept]
      exact ⟨(ih e).1, fun hok => (ih e).2 (hok.of_adaptExcept hf)⟩

/-- Calls only extend the store. -/
theorem prefix_runAll (cs : List Call) : ∀ e : Engine σ,
    contents e.storage <+: contents (Call.runAll P cs e).storage := by
  induction cs with
  | nil => exact fun _ => List.prefix_rfl
  | cons c cs ih => exact fun e => (c.shaped.extends (P := P) e).1.trans (ih _)

/-! ## Engines without records -/

/-- The engine has no node, no edge and no schema. -/
structure Vacant {τ : Type} (e : Engine τ) : Prop where
  node : ∀ id, e.hasNode id = false
  edge : ∀ id, e.hasEdge id = false
  schema : e.currentSchema = none

/-- The statement inserts a node on an engine without records: a `CREATE` or a `MERGE` whose node
has a label, a string as its id, and values for its parameters. -/
def Statement.inserts (params : Params) : Statement → Bool
  | .create pattern => (Interpreter.nodeParts pattern params).isOk
  | .merge pattern => (Interpreter.nodeParts pattern params).isOk
  | .matchReturn .. => false
  | .matchDelete .. => false

/-- The call writes a record on an engine without records: there is nothing to delete, and an edge
has no endpoints to connect. -/
def Call.writes : Call → Bool
  | .op (.insertNode _) => true
  | .op (.applySchema _) => true
  | .op _ => false
  | .query cypher params =>
      match parse cypher with
      | .ok stmt => stmt.inserts params
      | .error _ => false

theorem vacant_blank {τ : Type} (actor : ActorId) (s : τ) : Vacant (Engine.blank actor s) := by
  constructor
  · intro id
    simp [Engine.hasNode, Engine.blank]
  · intro id
    simp [Engine.hasEdge, Engine.blank]
  · rfl

namespace Vacant

variable {e e' : Engine σ}

theorem quiet (h : Vacant e) (hq : Quiet e e') : Vacant e' := by
  rw [hq.rest]
  exact ⟨h.node, h.edge, h.schema⟩

/-- Every node is admitted. -/
theorem insertNode (h : Vacant e) (node : Node) :
    Engine.insertNode P node e = Engine.commit P (.nodeInsert node) e := by
  have hid : node.id ∉ e.nodeIndex := of_decide_eq_false (h.node node.id)
  have hchecks : Engine.nodeChecks node e = .ok () := by
    rw [Engine.nodeChecks, if_neg hid, Engine.schemaChecks, Engine.validateLabel,
      Engine.validateProperties, h.schema]
    rfl
  rw [insertNode_eq, hchecks]

/-- No edge is admitted. -/
theorem insertEdge (h : Vacant e) (edge : Edge) :
    finalState (Engine.insertEdge P edge e) = e := by
  rw [insertEdge_eq]
  cases hc : Engine.edgeChecks edge e with
  | error err => rfl
  | ok u =>
      have hfrom := (edgeChecks_ok hc).2.1
      rw [h.node] at hfrom
      cases hfrom

theorem deleteNode (h : Vacant e) (id : String) : Engine.deleteNode P id e = .ok false e := by
  unfold Engine.deleteNode
  rw [bind_of_ok (get_apply e), h.node]
  rfl

theorem deleteEdge (h : Vacant e) (id : String) : Engine.deleteEdge P id e = .ok false e := by
  unfold Engine.deleteEdge
  rw [bind_of_ok (get_apply e), h.edge]
  rfl

theorem deleteNodeWithCascade (h : Vacant e) (id : String) :
    Engine.deleteNodeWithCascade P id e = .ok (false, 0) e := by
  unfold Engine.deleteNodeWithCascade
  rw [bind_of_ok (get_apply e), h.node]
  rfl

/-- Whatever the rows bind, there is nothing to delete. -/
theorem deleteRows (h : Vacant e) (var : String) (detach : Bool) (rows : List Bindings) :
    finalState (Interpreter.deleteRows P var detach rows e) = e := by
  induction rows with
  | nil => rfl
  | cons row rows ih =>
      unfold Interpreter.deleteRows
      cases row[var]? with
      | none => rfl
      | some b =>
          cases b with
          | edge d => rfl
          | node n =>
              cases detach with
              | true =>
                  exact (congrArg finalState (bind_of_ok (Interpreter.callEngine_eq_ok_iff.2
                    (h.deleteNodeWithCascade n.id)))).trans ih
              | false =>
                  exact (congrArg finalState (bind_of_ok (Interpreter.callEngine_eq_ok_iff.2
                    (h.deleteNode n.id)))).trans ih

/-- A statement that inserts no node only reads. -/
theorem quiet_of_not_inserts (h : Vacant e) {stmt : Statement} {params : Params}
    (hstmt : stmt.inserts params = false) :
    Quiet e (finalState (Interpreter.execute P stmt params e)) := by
  -- a node without its parts is refused before the engine is called
  have hrefuse : ∀ pattern (f : _ → InterpretM σ QueryResult),
      (Interpreter.nodeParts pattern params).isOk = false → Quiet e (finalState
        (((Interpreter.look fun _ => Interpreter.nodeParts pattern params) >>= f) e)) := by
    intro pattern f hparts
    cases hp : Interpreter.nodeParts pattern params with
    | ok parts =>
        rw [hp] at hparts
        cases hparts
    | error err =>
        rw [bind_of_error (show Interpreter.look (fun _ => .error err) e = .error err e from rfl)]
        exact Quiet.refl e
  cases stmt with
  | create pattern => exact hrefuse pattern _ hstmt
  | merge pattern => exact hrefuse pattern _ hstmt
  | matchReturn patterns whereClause returnItems orderBy limit =>
      exact (Reading.execMatchReturn (P := P) params whereClause patterns returnItems orderBy
        limit).quiet e
  | matchDelete patterns whereClause var detach =>
      have hread := (Reading.findMatchRows (P := P) params whereClause patterns none).quiet e
      show Quiet e (finalState (Interpreter.execMatchDelete P patterns whereClause var detach params
        e))
      unfold Interpreter.execMatchDelete
      cases hrows : Interpreter.findMatchRows P patterns whereClause params none e with
      | error err e1 =>
          rw [bind_of_error hrows]
          rw [hrows] at hread
          exact hread
      | ok rows e1 =>
          rw [bind_of_ok hrows, finalState_bind_pure]
          rw [hrows] at hread
          have hrest : finalState (Interpreter.deleteRows P var detach rows e1) = e1 :=
            (h.quiet hread).deleteRows var detach rows
          exact Eq.mpr (congrArg (Quiet e) hrest) hread

/-- A call that does not write only reads. -/
theorem quiet_of_not_writes (h : Vacant e) {c : Call} (hc : c.writes = false) :
    Quiet e (finalState (c.run P e)) := by
  cases c with
  | op o =>
      show Quiet e (finalState ((o.run P).adaptExcept _ e))
      rw [finalState_adaptExcept]
      cases o with
      | insertNode node => cases hc
      | applySchema schema => cases hc
      -- an edge is refused for its endpoints, and there is nothing to delete
      | insertEdge edge =>
          show Quiet e (finalState (Engine.insertEdge P edge e))
          rw [h.insertEdge]
          exact Quiet.refl e
      | deleteNode id =>
          show Quiet e (finalState ((Engine.deleteNode P id >>= fun _ => pure ()) e))
          rw [bind_of_ok (h.deleteNode id)]
          exact Quiet.refl e
      | deleteEdge id =>
          show Quiet e (finalState ((Engine.deleteEdge P id >>= fun _ => pure ()) e))
          rw [bind_of_ok (h.deleteEdge id)]
          exact Quiet.refl e
      | deleteNodeWithCascade id =>
          show Quiet e (finalState ((Engine.deleteNodeWithCascade P id >>= fun _ => pure ()) e))
          rw [bind_of_ok (h.deleteNodeWithCascade id)]
          exact Quiet.refl e
  | query cypher params =>
      show Quiet e (finalState ((((Engine.query P cypher params).adaptExcept _) >>=
        fun _ => pure ()) e))
      rw [finalState_bind_pure, finalState_adaptExcept]
      unfold Engine.query
      cases hparse : parse cypher with
      | error err => exact Quiet.refl e
      | ok stmt =>
          simp only [Call.writes, hparse] at hc
          show Quiet e (finalState ((Interpreter.execute P stmt params).adaptExcept _ e))
          rw [finalState_adaptExcept]
          exact h.quiet_of_not_inserts hc

end Vacant

/-! ## Code that appends -/

/-- Unless it fails in the I/O layer, the code appends to the store of this engine. -/
def Appends {ε α : Type} (fault : ε → Fault) (x : EStateM ε (Engine σ) α) (e : Engine σ) : Prop :=
  AppendsSucceed fault (x e) → contents (finalState (x e)).storage ≠ contents e.storage

namespace Appends

variable {ε α β : Type} {fault : ε → Fault} {e : Engine σ}

theorem commit (op : MutationOp) (e : Engine σ) :
    Appends EngineError.fault (Engine.commit P op) e :=
  contents_commit_ne op e

/-- What follows cannot take back what was appended. -/
theorem bind {x : EStateM ε (Engine σ) α} {f : α → EStateM ε (Engine σ) β} (hx : Appends fault x e)
    (hsx : Shaped P fault x) (hsf : ∀ a, Shaped P fault (f a)) : Appends fault (x >>= f) e := by
  intro hok hsame
  refine hx hok.of_bind (List.IsPrefix.eq_of_length_le ?_ (hsx.extends e).1.length_le)
  rw [← hsame]
  cases hr : x e with
  | error err e1 =>
      rw [bind_of_error hr]
      exact List.prefix_rfl
  | ok a e1 =>
      rw [bind_of_ok hr]
      exact ((hsf a).extends e1).1

/-- What comes before, if it leaves the engine alone, does not matter. -/
theorem after {x : EStateM ε (Engine σ) α} {f : α → EStateM ε (Engine σ) β} {a : α}
    (hx : x e = .ok a e) (hf : Appends fault (f a) e) : Appends fault (x >>= f) e := by
  unfold Appends
  rw [bind_of_ok hx]
  exact hf

theorem adaptExcept {ε' : Type} {fault' : ε' → Fault} {f : ε → ε'}
    (hf : ∀ err, fault' (f err) = fault err) {x : EStateM ε (Engine σ) α}
    (hx : Appends fault x e) : Appends fault' (x.adaptExcept f) e := by
  intro hok
  rw [finalState_adaptExcept]
  exact hx (hok.of_adaptExcept hf)

end Appends

theorem exists_ok_of_isOk {ε α : Type} {x : Except ε α} (h : x.isOk = true) : ∃ a, x = .ok a := by
  cases x with
  | ok a => exact ⟨a, rfl⟩
  | error err => cases h

namespace Vacant

variable {e : Engine σ}

theorem appends_insertNode (h : Vacant e) (node : Node) :
    Appends EngineError.fault (Engine.insertNode P node) e := by
  intro hok
  rw [h.insertNode] at hok ⊢
  exact Appends.commit _ e hok

/-- The insert at the end of `CREATE` and `MERGE`. -/
theorem appends_insert (h : Vacant e) (node : Node) :
    Appends InterpretError.fault (do
      Interpreter.callEngine (Engine.insertNode P node)
      pure QueryResult.empty) e := by
  refine Appends.bind (P := P) ?_ (Shaped.callEngine (Shaped.insertNode _))
    fun _ => Shaped.pure _
  exact Appends.adaptExcept (fun _ => rfl) (h.appends_insertNode node)

/-- A statement that inserts a node appends to the store. -/
theorem appends_of_inserts (h : Vacant e) {stmt : Statement} {params : Params}
    (hstmt : stmt.inserts params = true) :
    Appends InterpretError.fault (Interpreter.execute P stmt params) e := by
  cases stmt with
  | matchReturn patterns whereClause returnItems orderBy limit => cases hstmt
  | matchDelete patterns whereClause var detach => cases hstmt
  | create pattern =>
      obtain ⟨⟨label, props, id⟩, hp⟩ := exists_ok_of_isOk hstmt
      refine Appends.after (Interpreter.look_eq_ok_iff.2 ⟨hp, rfl⟩) ?_
      exact h.appends_insert _
  | merge pattern =>
      obtain ⟨⟨label, props, id⟩, hp⟩ := exists_ok_of_isOk hstmt
      refine Appends.after (Interpreter.look_eq_ok_iff.2 ⟨hp, rfl⟩) ?_
      -- no node has the id, so `MERGE` inserts one
      refine Appends.after (get_apply e) ?_
      simp only [h.node]
      exact h.appends_insert _

/-- A call that writes appends to the store. -/
theorem appends_of_writes (h : Vacant e) {c : Call} (hc : c.writes = true) :
    Appends CallError.fault (c.run P) e := by
  cases c with
  | op o =>
      refine Appends.adaptExcept (fun _ => rfl) ?_
      cases o with
      | insertNode node => exact h.appends_insertNode node
      | applySchema schema => exact Appends.commit (.schemaApply schema) e
      | insertEdge edge => cases hc
      | deleteNode id => cases hc
      | deleteEdge id => cases hc
      | deleteNodeWithCascade id => cases hc
  | query cypher params =>
      refine Appends.bind (P := P) (Appends.adaptExcept (fun _ => rfl) ?_)
        (Shaped.adapt _ (fun _ => rfl) (Shaped.query params cypher)) fun _ => Shaped.pure ()
      unfold Engine.query
      cases hparse : parse cypher with
      | error err =>
          simp only [Call.writes, hparse] at hc
          cases hc
      | ok stmt =>
          simp only [Call.writes, hparse] at hc
          exact Appends.adaptExcept (fun _ => rfl) (h.appends_of_inserts hc)

end Vacant

/-- Calls on an engine without records leave the store alone exactly when none of them writes. -/
theorem Vacant.runAll {cs : List Call} : ∀ {e : Engine σ}, Vacant e → Call.AllSucceed P cs e →
    (contents (Call.runAll P cs e).storage = contents e.storage ↔
        ∀ c ∈ cs, c.writes = false) ∧
      ((∀ c ∈ cs, c.writes = false) → Quiet e (Call.runAll P cs e)) := by
  induction cs with
  | nil => exact fun _ _ => ⟨by simp [Call.runAll], fun _ => Quiet.refl _⟩
  | cons c cs ih =>
      intro e h hok
      cases hc : c.writes with
      | true =>
          -- the contents only grow, so what the first call appended stays
          have hgrown := h.appends_of_writes hc hok.1
          refine ⟨⟨fun hsame => absurd ?_ hgrown, fun hnone => ?_⟩, fun hnone => ?_⟩
          · refine List.IsPrefix.eq_of_length_le ?_ (c.shaped.extends (P := P) e).1.length_le
            exact hsame ▸ prefix_runAll cs _
          · rw [hnone c (List.mem_cons_self ..)] at hc
            cases hc
          · rw [hnone c (List.mem_cons_self ..)] at hc
            cases hc
      | false =>
          have hq := h.quiet_of_not_writes (P := P) hc
          obtain ⟨hiff, hquiet⟩ := ih (h.quiet hq) hok.2
          have hcons : (∀ d ∈ c :: cs, d.writes = false) ↔ ∀ d ∈ cs, d.writes = false := by
            simp [hc]
          rw [hcons, ← hq.contents]
          exact ⟨hiff, fun hnone => Quiet.trans _ _ _ hq (hquiet hnone)⟩

/-! ## Reopening -/

/-- Opening an empty store reads nothing. -/
theorem openWith_empty {s : σ} (hs : contents s = []) (actor : ActorId) :
    Engine.openWith P actor s = .ok (Engine.blank actor s) := by
  have hlen : Storage.len (Engine.blank actor s).storage = 0 := by
    show Storage.len s = 0
    rw [len_eq, hs]
    rfl
  have hrecover : Engine.recover P (Engine.blank actor s) = .ok () (Engine.blank actor s) := by
    unfold Engine.recover
    rw [bind_of_ok (get_apply _), hlen]
    rfl
  rw [Engine.openWith, hrecover]

/-- A host's store persists when it has its header before it is first opened, or when it is empty
and no call writes: after any calls none of which fails in the I/O layer, a second engine on the
same contents opens and shows what the first engine had. On an empty store the calls leave the store
empty exactly when none of them writes. -/
theorem host_store_persists {s s' : σ} {actor actor' : ActorId} {e0 : Engine σ} {cs : List Call}
    (hrel : Reliable s) (hopen : Engine.openWith P actor s = .ok e0)
    (hok : Call.AllSucceed P cs e0)
    (hrel' : Reliable s') (hs' : contents s' = contents (Call.runAll P cs e0).storage) :
    (contents s = header ∨ contents s = [] ∧ (∀ c ∈ cs, c.writes = false) →
        ∃ e', Engine.openWith P actor' s' = .ok e' ∧ Restores e' (Call.runAll P cs e0)) ∧
      (contents s = [] →
        (contents (Call.runAll P cs e0).storage = [] ↔ ∀ c ∈ cs, c.writes = false)) := by
  -- on an empty store the first engine is a blank one
  have hblank : contents s = [] → Vacant e0 ∧ contents e0.storage = [] ∧
      e0 = Engine.blank actor s := by
    intro hs
    rw [openWith_empty hs] at hopen
    cases hopen
    exact ⟨vacant_blank actor s, hs, rfl⟩
  refine ⟨fun hstart => ?_, fun hs => ?_⟩
  swap
  · obtain ⟨hvac, hnil, -⟩ := hblank hs
    rw [← (hvac.runAll hok).1, hnil]
  -- with the header the first engine is a reachable one; without it nothing was ever stored
  rcases hstart with hs | ⟨hs, hnone⟩
  · have hreach : Reach P (Call.runAll P cs e0) := (Reach.fresh hs hrel hopen).runAll hok
    obtain ⟨hist, hrun⟩ := hreach.run
    obtain ⟨log, hinv, -⟩ := hrun.inv
    obtain ⟨e', hopen', hrec⟩ := openWith_spec (hs'.trans hinv.contents) hinv.encodable hinv.wf
      torn_nil hrel' actor'
    exact ⟨e', hopen', (Inv.of_recovered hrec hinv.numbered hinv.foreshadow).restores hinv⟩
  · obtain ⟨hvac, hnil, rfl⟩ := hblank hs
    have hq := (hvac.runAll hok).2 hnone
    refine ⟨_, openWith_empty (hs'.trans (hq.contents.trans hnil)) actor', ?_⟩
    have hix := hq.indexes
    exact
      { contents := hs'
        nodeIndex := (congrArg Indexes.nodeIndex hix).symm
        edgeIndex := (congrArg Indexes.edgeIndex hix).symm
        edgeByLabel := (congrArg Indexes.edgeByLabel hix).symm
        edgesByFrom := (congrArg Indexes.edgesByFrom hix).symm
        edgesByTo := (congrArg Indexes.edgesByTo hix).symm
        currentSchema := (congrArg Indexes.currentSchema hix).symm
        nextLocalSeq := hq.nextLocalSeq.symm
        noEmpty := by simp [Engine.blank, Buckets.NoEmpty] }

/-- `MemoryStorage::default`: no header. -/
def MemoryStorage.default : MemoryStorage := ⟨[], by decide⟩

/-- Insert one node through an engine opened on a store. -/
def insertOne (s : MemoryStorage) : Engine MemoryStorage :=
  Call.runAll bincode [.op (.insertNode (Node.new "a" "N"))] (Engine.blank ⟨"u", "d"⟩ s)

/-- A node that was inserted on an empty store is gone after a reopen, and its sequence number is
given out again: its frame fills the place of the header. -/
theorem empty_store_loses_node :
    Engine.openWith bincode ⟨"u", "d"⟩ MemoryStorage.default =
        .ok (Engine.blank ⟨"u", "d"⟩ MemoryStorage.default) ∧
      Call.AllSucceed bincode [.op (.insertNode (Node.new "a" "N"))]
        (Engine.blank ⟨"u", "d"⟩ MemoryStorage.default) ∧
      (insertOne MemoryStorage.default).nodeCount = 1 ∧
      (insertOne MemoryStorage.default).nextLocalSeq = 2 ∧
      ∃ e', Engine.openWith bincode ⟨"u", "d"⟩ (insertOne MemoryStorage.default).storage = .ok e' ∧
        e'.nodeCount = 0 ∧ e'.nextLocalSeq = 1 := by
  refine ⟨openWith_empty rfl _, by decide +kernel, by decide +kernel, by decide +kernel, ?_⟩
  have hreopen : (match Engine.openWith bincode ⟨"u", "d"⟩
      (insertOne MemoryStorage.default).storage with
    | .ok e' => decide (e'.nodeCount = 0 ∧ e'.nextLocalSeq = 1)
    | .error _ => false) = true := by decide +kernel
  split at hreopen
  · rename_i e' hopen
    exact ⟨e', hopen, of_decide_eq_true hreopen⟩
  · cases hreopen

/-- Calls that write nothing on an empty store: a read, a delete of a node that is not there, and a
`CREATE` without an id. -/
def idleCalls : List Call :=
  [.query "MATCH (n) RETURN n" ∅, .op (.deleteNode "a"), .query "CREATE (n:N)" ∅]

/-- Make these calls through an engine opened on a store. -/
def idleRun (s : σ) : Engine σ :=
  Call.runAll bincode idleCalls (Engine.blank ⟨"u", "d"⟩ s)

/-- An empty store is as it was after these calls, and the insert that an empty store loses is there
after a reopen of a store with its header. -/
theorem idle_store_and_header_store_persist :
    (contents (idleRun MemoryStorage.default).storage = [] ∧
      ∃ e', Engine.openWith bincode ⟨"v", "d"⟩ (idleRun MemoryStorage.default).storage = .ok e' ∧
        Restores e' (idleRun MemoryStorage.default)) ∧
      (insertOne MemoryStorage.new).nodeCount = 1 ∧
      ∃ e', Engine.openWith bincode ⟨"v", "d"⟩ (insertOne MemoryStorage.new).storage = .ok e' ∧
        Restores e' (insertOne MemoryStorage.new) := by
  have hidle : ∀ c ∈ idleCalls, c.writes = false := by decide +kernel
  have hempty := @host_store_persists MemoryStorage _ bincode MemoryStorage.default
    (idleRun MemoryStorage.default).storage ⟨"u", "d"⟩ ⟨"v", "d"⟩
    (Engine.blank ⟨"u", "d"⟩ MemoryStorage.default) idleCalls trivial (openWith_empty rfl _)
    (by decide +kernel) trivial (by rw [idleRun])
  -- one spelling of the run, so that it is not evaluated to compare the two
  rw [← idleRun] at hempty
  have hheader := @host_store_persists MemoryStorage _ bincode MemoryStorage.new
    (insertOne MemoryStorage.new).storage ⟨"u", "d"⟩ ⟨"v", "d"⟩
    (Engine.blank ⟨"u", "d"⟩ MemoryStorage.new) [.op (.insertNode (Node.new "a" "N"))] trivial rfl
    (by decide +kernel) trivial rfl
  refine ⟨⟨(hempty.2 rfl).2 hidle, hempty.1 (Or.inr ⟨rfl, hidle⟩)⟩, by decide +kernel, ?_⟩
  exact hheader.1 (Or.inl rfl)

end Morceau
