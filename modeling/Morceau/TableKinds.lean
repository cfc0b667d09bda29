import Morceau.SchemaConformance

/-!
# Kinds of tables

A table of a schema declares whether its label is one of nodes or one of edges. `validate_label`
asks whether the label has a table, for nodes and for edges alike, and nothing else reads the kind
either. So a node can be stored under an edge table and an edge under a node table.

`KindLog log` says that every insert of the log is under a table of its own kind, in the last schema
before it. It holds in runs whose admitted inserts are of the right kind (`KindReach`); an insert of
the other kind is refused only when the label or a property would have been refused anyway, and is
stored otherwise (`insert_kinds_unchecked`).
-/

set_option autoImplicit false

namespace Morceau

open Lib LawfulStorage

/-! ## Inserts under tables of their kind -/

/-- The label that an operation inserts under, and the kind of table that it belongs in. -/
def MutationOp.insertedUnder : MutationOp → Option (String × TableKind)
  | .nodeInsert n => some (n.label, .node)
  | .edgeInsert d => some (d.label, .edge)
  | _ => none

/-- What the operation inserts is under a table of its kind, if there is a schema. -/
def MutationOp.InKind (op : MutationOp) (schema : Option Schema) : Prop :=
  ∀ label kind s, op.insertedUnder = some (label, kind) → schema = some s →
    ∃ table, s.tables[label]? = some table ∧ table.kind = kind

/-- Every insert of the log is under a table of its kind in the last schema before it. -/
def KindLog (log : List Mutation) : Prop :=
  ∀ pre m post, log = pre ++ m :: post → m.op.InKind (lastSchema pre)

/-- The same as a guard on the records of a log. -/
def UnderKind (g : PropertyGraph) (op : MutationOp) : Prop := op.InKind g.schema

theorem kindLog_iff {log : List Mutation} : KindLog log ↔ GuardedLog UnderKind log := by
  simp only [KindLog, GuardedLog, UnderKind, schema_ofLog]

theorem kindLog_snoc {log : List Mutation} {m : Mutation} :
    KindLog (log ++ [m]) ↔ KindLog log ∧ m.op.InKind (lastSchema log) := by
  rw [kindLog_iff, guardedLog_snoc, ← kindLog_iff, UnderKind, schema_ofLog]

/-! ## What a call can insert -/

variable {σ : Type} [LawfulStorage σ] {P : Platform} {e : Engine σ} {log : List Mutation}
  {G : PropertyGraph → MutationOp → Prop}

/-- A call that gets to the checks keeps a guard that holds of what it inserts, if that conforms. -/
theorem Attempts.guarded {c : Call} {op : MutationOp} (h : Attempts e c op) (hcore : Core P e log)
    (hlog : GuardedLog G log)
    (hop : op.ConformsTo (lastSchema log) → G (PropertyGraph.ofLog log) op) :
    Guarded P G (finalState (c.run P e)) := by
  obtain ⟨label, properties, hins, hfresh, x, f, hrun, -, hx⟩ := h.run_eq (P := P)
  rw [hrun, finalState_adaptExcept, hx]
  cases hchecks : Engine.schemaChecks label properties e with
  | error err => exact ⟨log, hcore, hlog⟩
  | ok u => exact hcore.guarded_commit hlog hfresh (hop (hcore.conforms_of_checks hins hchecks))

omit [LawfulStorage σ] in
theorem hasNode_of_nodeChecks {node : Node} (h : Engine.nodeChecks node e = .ok ()) :
    e.hasNode node.id = false := by
  unfold Engine.nodeChecks at h
  split at h
  · cases h
  · rename_i hid
    simpa [Engine.hasNode] using hid

theorem finalState_query (cypher : String) (params : Params) (e : Engine σ) :
    finalState ((Call.query cypher params).run P e) =
      finalState (Engine.query P cypher params e) := by
  rw [← finalState_adaptExcept CallError.query (Engine.query P cypher params) e]
  exact finalState_bind_pure _ _ e

/-- A statement that inserts a node, in an engine where the insert is not attempted. -/
theorem Guarded.query_not_attempted (h : Guarded P G e) {cypher : String} {params : Params}
    {stmt : Statement} (hparse : parse cypher = .ok stmt) (hinserts : stmt.insertsNode = true)
    (hnone : ∀ op, ¬ Attempts e (.query cypher params) op) :
    Guarded P G (finalState ((Call.query cypher params).run P e)) := by
  obtain ⟨log, hcore, hlog⟩ := h
  have hlook : ∀ pattern, Moves (fun a b : Engine σ => b = a)
      (Interpreter.look fun _ => Interpreter.nodeParts pattern params) := by
    intro pattern e
    unfold Interpreter.look
    cases Interpreter.nodeParts pattern params <;> rfl
  -- an insert that passed the checks on the id would have been attempted
  have hinsert : ∀ label props id,
      (e.hasNode id = false → Attempts e (.query cypher params)
        (.nodeInsert (Interpreter.nodeOfParts label props id))) →
      Guarded P G (finalState (Interpreter.callEngine
        (Engine.insertNode P (Interpreter.nodeOfParts label props id)) e)) := by
    intro label props id hatt
    rw [Interpreter.callEngine, finalState_adaptExcept]
    exact hcore.guarded_insertNode hlog fun hchecks =>
      absurd (hatt (hasNode_of_nodeChecks hchecks)) (hnone _)
  rw [finalState_query, Engine.query, hparse]
  dsimp only
  rw [finalState_adaptExcept]
  cases stmt with
  | create pattern =>
      refine finalState_bind (fun err e1 hr => (hlook pattern).error hr ▸ ⟨log, hcore, hlog⟩)
        fun parts e1 hr => ?_
      obtain ⟨hparts, rfl⟩ := Interpreter.look_eq_ok_iff.1 hr
      rw [finalState_bind_pure]
      exact hinsert _ _ _ fun hid => .create hparse hparts hid
  | merge pattern =>
      refine finalState_bind (fun err e1 hr => (hlook pattern).error hr ▸ ⟨log, hcore, hlog⟩)
        fun parts e1 hr => ?_
      obtain ⟨hparts, rfl⟩ := Interpreter.look_eq_ok_iff.1 hr
      dsimp only
      rw [bind_of_ok (get_apply _)]
      split
      · exact ⟨log, hcore, hlog⟩
      · rw [finalState_bind_pure]
        exact hinsert _ _ _ fun hid => .merge hparse hparts hid
  | matchReturn => cases hinserts
  | matchDelete => cases hinserts

/-- A call that does not get to the checks keeps a guard that says nothing of the other records. -/
theorem Guarded.not_attempted (h : Guarded P G e) {c : Call} (hnone : ∀ op, ¬ Attempts e c op)
    (hG : ∀ g op, op.inserted = none → G g op) : Guarded P G (finalState (c.run P e)) := by
  by_cases hinserts : c.inserting = true
  case neg =>
    refine c.keepsGuard (fun hi => absurd hi hinserts) (fun hi => absurd hi hinserts)
      (fun _ _ => KeepsGuard.deleteNode fun g => hG g _ rfl)
      (fun _ => KeepsGuard.cascade (fun _ g => hG g _ rfl) fun g => hG g _ rfl)
      (fun g _ => hG g _ rfl) (fun g _ => hG g _ rfl) e h
  obtain ⟨log, hcore, hlog⟩ := h
  cases c with
  | op o =>
      show Guarded P G (finalState ((o.run P).adaptExcept CallError.engine e))
      rw [finalState_adaptExcept]
      cases o with
      | insertNode node =>
          exact hcore.guarded_insertNode hlog fun hchecks =>
            absurd (.insertNode (hasNode_of_nodeChecks hchecks)) (hnone (.nodeInsert node))
      | insertEdge edge =>
          refine hcore.guarded_insertEdge hlog fun hchecks => ?_
          obtain ⟨hid, hfrom, hto⟩ := edgeChecks_ok hchecks
          exact absurd (.insertEdge (by simpa [Engine.hasEdge] using hid) hfrom hto)
            (hnone (.edgeInsert edge))
      | deleteNode id => cases hinserts
      | deleteEdge id => cases hinserts
      | deleteNodeWithCascade id => cases hinserts
      | applySchema schema => cases hinserts
  | query cypher params =>
      rw [Call.inserting] at hinserts
      cases hparse : parse cypher with
      | error err =>
          rw [hparse] at hinserts
          cases hinserts
      | ok stmt =>
          rw [hparse] at hinserts
          exact Guarded.query_not_attempted ⟨log, hcore, hlog⟩ hparse hinserts hnone

/-! ## Runs -/

/-- The insert that the call attempts, if it conforms, is under a table of its kind. -/
def Call.RightKind (e : Engine σ) (c : Call) : Prop :=
  ∀ op, Attempts e c op → op.ConformsTo e.currentSchema → op.InKind e.currentSchema

/-- Engines that calls of the right kind reach from a fresh store, each with any outcome, with
crashes and reopens in between. -/
inductive KindReach (P : Platform) : Engine σ → Prop where
  | fresh {actor : ActorId} {s : σ} {e : Engine σ} :
      contents s = header → Reliable s → Engine.openWith P actor s = .ok e → KindReach P e
  | call {e : Engine σ} (c : Call) :
      KindReach P e → c.RightKind e → KindReach P (finalState (c.run P e))
  | wire {e : Engine σ} (l : MutationLog) : KindReach P e → KindReach P (e.withMutationLog l)
  | crash {e e' : Engine σ} {k : Nat} {actor : ActorId} {s : σ} :
      KindReach P e → headerLen ≤ k → contents s = (contents e.storage).take k → Reliable s →
      Engine.openWith P actor s = .ok e' → KindReach P e'

/-- A call of the right kind keeps the inserts of the log under tables of their kind. -/
theorem Guarded.rightKind (h : Guarded P UnderKind e) {c : Call} (hc : c.RightKind e) :
    Guarded P UnderKind (finalState (c.run P e)) := by
  by_cases hatt : ∃ op, Attempts e c op
  · obtain ⟨op, hatt⟩ := hatt
    obtain ⟨log, hcore, hlog⟩ := h
    refine hatt.guarded hcore hlog fun hconf => ?_
    rw [UnderKind, schema_ofLog, ← hcore.currentSchema]
    exact hc op hatt (hcore.currentSchema ▸ hconf)
  · refine h.not_attempted (fun op hop => hatt ⟨op, hop⟩) fun g op hop label kind s hunder => ?_
    -- what inserts nothing is under no table
    cases op <;> cases hop <;> cases hunder

theorem KindReach.guarded (h : KindReach P e) : Guarded P UnderKind e := by
  induction h with
  | fresh hs hrel hopen => exact ⟨[], (inv_fresh hs hrel hopen).1.toCore, guardedLog_nil⟩
  | call c _ hc ih => exact ih.rightKind hc
  | wire l _ ih => exact ih.wire l
  | crash _ hk hs hrel hopen ih =>
      obtain ⟨e', hopen', hg⟩ := ih.open_prefix hk hs hrel _
      rw [hopen] at hopen'
      cases hopen'
      exact hg

/-- The kind of a table is not checked. In runs whose admitted inserts are of the right kind every
insert of the log is under a table of its kind. In any run, an insert of the other kind is refused,
with nothing appended, exactly when the label has no table or a property is of the wrong type; and
otherwise it is appended, so that the log has an insert that is not under a table of its kind. -/
theorem insert_kinds_unchecked (h : ReachBy P (fun _ => True) e) :
    ∃ log, contents e.storage = header ++ encodeLog P log ∧ (∀ m ∈ log, P.Encodable m) ∧
      (KindReach P e → KindLog log) ∧
      ∀ c op, Attempts e c op → ¬ op.InKind (lastSchema log) →
        AppendsSucceed CallError.fault (c.run P e) →
        ((∃ err, c.run P e = .error err e) ↔ ¬ op.ConformsTo (lastSchema log)) ∧
        (op.ConformsTo (lastSchema log) →
          ∃ e' m, c.run P e = .ok () e' ∧ m.op = op ∧
            contents e'.storage = header ++ encodeLog P (log ++ [m]) ∧ ¬ KindLog (log ++ [m])) := by
  obtain ⟨log, hcore, -⟩ := h.guarded (G := Conforming) fun c _ => c.keeps_conforming
  have hc : contents e.storage = header ++ encodeLog P log := by
    simpa [storeImage] using hcore.contents
  refine ⟨log, hc, hcore.encodable, fun hkind => ?_, fun c op hatt hnot hok => ?_⟩
  · obtain ⟨log', hcore', hlog'⟩ := hkind.guarded
    rw [hcore.log_eq hcore']
    exact kindLog_iff.2 hlog'
  · have hadmitted : op.ConformsTo (lastSchema log) →
        ∃ e' m, c.run P e = .ok () e' ∧ m.op = op ∧
          contents e'.storage = header ++ encodeLog P (log ++ [m]) ∧ ¬ KindLog (log ++ [m]) := by
      intro hconf
      obtain ⟨e', m, hrun, rfl, hc'⟩ := hatt.admitted hcore hconf hok
      refine ⟨e', m, hrun, rfl, ?_, fun hlog => hnot (kindLog_snoc.1 hlog).2⟩
      rw [hc', hc]
      simp
    refine ⟨⟨?_, fun hconf => ?_⟩, hadmitted⟩
    · rintro ⟨err, herr⟩ hconf
      obtain ⟨e', m, hrun, -⟩ := hadmitted hconf
      rw [hrun] at herr
      cases herr
    · obtain ⟨s, label, properties, cause, err, -, -, -, hrun, -⟩ := hatt.refused hcore hconf
      exact ⟨err, hrun⟩

/-- A node under the node table of the schema. -/
def nodeInTable : Engine MemoryStorage :=
  inMemory [.op (.applySchema ageSchema), .op (.insertNode (Node.new "a" "N"))]

/-- The node is under a table of its kind. -/
theorem node_in_table_is_of_kind :
    ∃ log, contents nodeInTable.storage = header ++ encodeLog bincode log ∧ KindLog log := by
  have hreach : Reach bincode nodeInTable := reach_inMemory (by decide +kernel)
  obtain ⟨log, hc, -, hkind, -⟩ := insert_kinds_unchecked hreach.reachBy
  refine ⟨log, hc, hkind ?_⟩
  have hfresh : KindReach bincode (inMemory []) :=
    .fresh (s := MemoryStorage.new) rfl trivial rfl
  have hpushed : KindReach bincode (inMemory [.op (.applySchema ageSchema)]) :=
    .call (.op (.applySchema ageSchema)) hfresh fun op hatt => nomatch hatt
  refine .call (.op (.insertNode (Node.new "a" "N"))) hpushed fun op hatt _ => ?_
  cases hatt with
  | insertNode hid =>
      intro label kind s hunder hs
      cases hunder
      have hcur : (inMemory [.op (.applySchema ageSchema)]).currentSchema = some ageSchema := by
        decide +kernel
      rw [hcur] at hs
      cases hs
      exact ⟨_, rfl, rfl⟩

/-- A schema whose table `N` is one of edges and whose table `E` is one of nodes. -/
def crossedSchema : Schema :=
  ⟨1, ((∅ : BTreeMap String TableSchema).insert "N" ⟨"N", .edge, ∅⟩).insert "E" ⟨"E", .node, ∅⟩⟩

/-- A node under the edge table, and an edge under the node table. -/
def crossed : Engine MemoryStorage :=
  inMemory [.op (.applySchema crossedSchema), .op (.insertNode (Node.new "a" "N")),
    .op (.insertEdge (Edge.new "d" "E" "a" "a"))]

/-- The records of that store. -/
def crossedLog : List Mutation :=
  [⟨1, ⟨"u", "d"⟩, true, .schemaApply crossedSchema⟩,
    ⟨2, ⟨"u", "d"⟩, true, .nodeInsert (Node.new "a" "N")⟩,
    ⟨3, ⟨"u", "d"⟩, true, .edgeInsert (Edge.new "d" "E" "a" "a")⟩]

/-- Both inserts are stored, and neither is under a table of its kind. -/
theorem crossed_inserts_are_stored :
    Reach bincode crossed ∧
      crossed.storage.bytes = header ++ encodeLog bincode crossedLog ∧
      ¬ (MutationOp.nodeInsert (Node.new "a" "N")).InKind (lastSchema (crossedLog.take 1)) ∧
      ¬ (MutationOp.edgeInsert (Edge.new "d" "E" "a" "a")).InKind
        (lastSchema (crossedLog.take 2)) ∧
      ¬ KindLog crossedLog := by
  have hnode : ¬ (MutationOp.nodeInsert (Node.new "a" "N")).InKind
      (lastSchema (crossedLog.take 1)) := by
    intro h
    obtain ⟨table, htable, hkind⟩ := h "N" .node crossedSchema rfl rfl
    have hN : crossedSchema.tables["N"]? = some ⟨"N", .edge, ∅⟩ := by decide +kernel
    rw [hN] at htable
    cases htable
    cases hkind
  have hedge : ¬ (MutationOp.edgeInsert (Edge.new "d" "E" "a" "a")).InKind
      (lastSchema (crossedLog.take 2)) := by
    intro h
    obtain ⟨table, htable, hkind⟩ := h "E" .edge crossedSchema rfl rfl
    have hE : crossedSchema.tables["E"]? = some ⟨"E", .node, ∅⟩ := by decide +kernel
    rw [hE] at htable
    cases htable
    cases hkind
  exact ⟨reach_inMemory (by decide +kernel), by decide +kernel, hnode, hedge,
    fun h => hnode (h (crossedLog.take 1) _ _ rfl)⟩

end Morceau
