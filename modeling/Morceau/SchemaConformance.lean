import Morceau.GuardedLogs

/-!
# Inserts conform to the schema in force

The engine checks an insert against the schema it holds in memory. That schema is the one of the
last `SchemaApply` record of the log (`lastSchema`), so the check is a guard on the log: every
insert on the store conforms to the last schema before it. `Schema.Conforms` says what conforming
means without the engine's own check, and `SchemaRefusal` which error an insert that does not
conform gets.
-/

set_option autoImplicit false

namespace Morceau

open Lib LawfulStorage

/-! ## Conforming -/

/-- The declared type that a value is of; `Null` is of none. -/
def Value.typeOf : Value → Option PropertyType
  | .null => none
  | .bool _ => some .bool
  | .i64 _ => some .i64
  | .f64 _ => some .f64
  | .string _ => some .string
  | .timestamp _ => some .timestamp
  | .list _ => some .list

theorem PropertyType.matches_iff {declared : PropertyType} {v : Value} :
    declared.matches v = true ↔ v = .null ∨ v.typeOf = some declared := by
  cases declared <;> cases v <;> simp [PropertyType.matches, Value.typeOf]

/-- The schema declares the label, and every property that its table declares and the record has is
`Null` or of the declared type. -/
def Schema.Conforms (s : Schema) (label : String) (properties : Properties) : Prop :=
  ∃ table, s.tables[label]? = some table ∧
    ∀ (name : String) (declared : PropertyType) (value : Value),
      table.properties[name]? = some declared →
      properties[name]? = some value → value = .null ∨ value.typeOf = some declared

/-- The error that names a violation of the schema. -/
inductive SchemaRefusal (s : Schema) (label : String) (properties : Properties) :
    EngineError → Prop where
  | unknown : s.tables[label]? = none →
      SchemaRefusal s label properties (.schemaUnknown label s.version)
  | mismatch {table : TableSchema} {name : String} {declared : PropertyType} {value : Value} :
      s.tables[label]? = some table → table.properties[name]? = some declared →
      properties[name]? = some value → value ≠ .null → value.typeOf ≠ some declared →
      SchemaRefusal s label properties
        (.schemaPropertyTypeMismatch label name declared value.typeName s.version)

/-- What gets such an error does not conform. -/
theorem SchemaRefusal.not_conforms {s : Schema} {label : String} {properties : Properties}
    {err : EngineError} (h : SchemaRefusal s label properties err) :
    ¬ s.Conforms label properties := by
  rintro ⟨table, htable, hall⟩
  cases h with
  | unknown hnone =>
      rw [hnone] at htable
      cases htable
  | mismatch ht hd hv hnull htype =>
      rw [ht] at htable
      cases htable
      rcases hall _ _ _ hd hv with h | h
      · exact hnull h
      · exact htype h

/-! ## The checks of the engine -/

section Checks

variable {properties : Properties} {l : List (String × PropertyType)}

/-- Without a mismatch every declared property that is there matches. -/
theorem matches_of_firstMismatch_none (h : Engine.firstMismatch properties l = none) :
    ∀ p ∈ l, ∀ v, properties[p.1]? = some v → p.2.matches v = true := by
  fun_induction Engine.firstMismatch properties l with
  | case1 => simp
  | case2 name declared rest value hv hm ih =>
      intro p hp v hpv
      rcases List.mem_cons.1 hp with rfl | hp
      · rw [hv] at hpv
        cases hpv
        exact hm
      · exact ih h p hp v hpv
  | case3 name declared rest value hv hm => cases h
  | case4 name declared rest hv ih =>
      intro p hp v hpv
      rcases List.mem_cons.1 hp with rfl | hp
      · rw [hv] at hpv
        cases hpv
      · exact ih h p hp v hpv

/-- The mismatch that is reported is one. -/
theorem firstMismatch_some {name : String} {declared : PropertyType} {value : Value}
    (h : Engine.firstMismatch properties l = some (name, declared, value)) :
    (name, declared) ∈ l ∧ properties[name]? = some value ∧ declared.matches value = false := by
  fun_induction Engine.firstMismatch properties l with
  | case1 => cases h
  | case2 name' declared' rest value' hv hm ih =>
      obtain ⟨hmem, hrest⟩ := ih h
      exact ⟨List.mem_cons_of_mem _ hmem, hrest⟩
  | case3 name' declared' rest value' hv hm =>
      cases h
      exact ⟨List.mem_cons_self .., hv, by simpa using hm⟩
  | case4 name' declared' rest hv ih =>
      obtain ⟨hmem, hrest⟩ := ih h
      exact ⟨List.mem_cons_of_mem _ hmem, hrest⟩

/-- The checks pass exactly what conforms to the schema in force, and refuse the rest with the error
that names the violation. -/
theorem schemaChecks_cases {σ : Type} (label : String) (properties : Properties) (e : Engine σ) :
    (Engine.schemaChecks label properties e = .ok () ∧
      ∀ s, e.currentSchema = some s → s.Conforms label properties) ∨
    ∃ s err, Engine.schemaChecks label properties e = .error err ∧ e.currentSchema = some s ∧
      SchemaRefusal s label properties err := by
  unfold Engine.schemaChecks Engine.validateLabel Engine.validateProperties
  cases hs : e.currentSchema with
  | none => exact Or.inl ⟨rfl, fun s h => by cases h⟩
  | some s =>
      have hhas : s.hasLabel label = (s.tables[label]?).isSome :=
        Std.ExtTreeMap.contains_eq_isSome_getElem?
      simp only [Schema.table]
      cases ht : s.tables[label]? with
      | none =>
          -- the label is checked before the properties
          rw [if_neg (by simp [hhas, ht])]
          exact Or.inr ⟨s, _, rfl, rfl, .unknown ht⟩
      | some table =>
          rw [if_pos (by simp [hhas, ht])]
          cases hm : Engine.firstMismatch properties table.properties.toList with
          | none =>
              refine Or.inl ⟨by simp only [bind, Except.bind, hm], fun s' hs' => ?_⟩
              cases hs'
              refine ⟨table, ht, fun name declared value hd hv => PropertyType.matches_iff.1 ?_⟩
              exact matches_of_firstMismatch_none hm (name, declared)
                (Std.ExtTreeMap.mem_toList_iff_getElem?_eq_some.2 hd) value hv
          | some r =>
              -- the first mismatch is reported, and it is one
              obtain ⟨name, declared, value⟩ := r
              obtain ⟨hmem, hv, hno⟩ := firstMismatch_some hm
              have hnot : ¬ (value = .null ∨ value.typeOf = some declared) := by
                rw [← PropertyType.matches_iff, hno]
                exact Bool.false_ne_true
              rw [not_or] at hnot
              refine Or.inr ⟨s, _, by simp only [bind, Except.bind, hm], rfl, .mismatch ht ?_ hv
                hnot.1 hnot.2⟩
              exact Std.ExtTreeMap.mem_toList_iff_getElem?_eq_some.1 hmem

end Checks

/-! ## The schema in force -/

/-- The schema that an operation pushes. -/
def MutationOp.pushedSchema : MutationOp → Option Schema
  | .schemaApply s => some s
  | _ => none

/-- The schema of the last `SchemaApply` record of a log. -/
def lastSchema (log : List Mutation) : Option Schema :=
  (log.filterMap fun m => m.op.pushedSchema).getLast?

/-- The last push wins, and every other record leaves the schema. -/
theorem lastSchema_snoc (log : List Mutation) (m : Mutation) :
    lastSchema (log ++ [m]) = m.op.pushedSchema.or (lastSchema log) := by
  rw [lastSchema, List.filterMap_append, List.getLast?_append]
  cases h : m.op.pushedSchema with
  | none => simp [h, lastSchema]
  | some s => simp [h]

/-- The schema of the graph of a log is the one pushed last. -/
theorem schema_ofLog (log : List Mutation) :
    (PropertyGraph.ofLog log).schema = lastSchema log := by
  induction log using List.reverseRecOn with
  | nil => rfl
  | append_singleton log m ih =>
      have hstep : ∀ g : PropertyGraph, (g.apply m.op).schema = m.op.pushedSchema.or g.schema := by
        intro g
        cases m.op <;> rfl
      rw [PropertyGraph.ofLog_snoc, hstep, lastSchema_snoc, ih]

/-- The label and the properties that an operation inserts. -/
def MutationOp.inserted : MutationOp → Option (String × Properties)
  | .nodeInsert n => some (n.label, n.properties)
  | .edgeInsert d => some (d.label, d.properties)
  | _ => none

/-- What the operation inserts conforms to the schema, if there is one. -/
def MutationOp.ConformsTo (op : MutationOp) (schema : Option Schema) : Prop :=
  ∀ label properties s, op.inserted = some (label, properties) → schema = some s →
    s.Conforms label properties

variable {σ : Type} [LawfulStorage σ] {P : Platform} {e : Engine σ} {log : List Mutation}

/-- The schema in memory is the last one of the log. -/
theorem Core.currentSchema (h : Core P e log) : e.currentSchema = lastSchema log :=
  h.consistent.schema.trans (schema_ofLog log)

/-- The guard that every insert satisfies. -/
def Conforming (g : PropertyGraph) (op : MutationOp) : Prop := op.ConformsTo g.schema

/-- What passes the checks against the schema conforms to the last schema of the log. -/
theorem Core.conforms_of_checks (h : Core P e log) {op : MutationOp} {label : String}
    {properties : Properties} (hop : op.inserted = some (label, properties))
    (hchecks : Engine.schemaChecks label properties e = .ok ()) :
    op.ConformsTo (lastSchema log) := by
  intro label' properties' s hop' hs
  rw [hop] at hop'
  cases hop'
  rcases schemaChecks_cases label properties e with ⟨-, hall⟩ | ⟨s', err, herr, -, -⟩
  · exact hall s (h.currentSchema.trans hs)
  · rw [hchecks] at herr
    cases herr

omit [LawfulStorage σ] in
theorem nodeChecks_eq {node : Node} (hid : e.hasNode node.id = false) :
    Engine.nodeChecks node e = Engine.schemaChecks node.label node.properties e := by
  unfold Engine.nodeChecks
  exact if_neg (by simpa [Engine.hasNode] using hid)

omit [LawfulStorage σ] in
theorem edgeChecks_eq {edge : Edge} (hid : e.hasEdge edge.id = false)
    (hfrom : e.hasNode edge.fromId = true) (hto : e.hasNode edge.toId = true) :
    Engine.edgeChecks edge e = Engine.schemaChecks edge.label edge.properties e := by
  unfold Engine.edgeChecks
  rw [if_neg (by simpa [Engine.hasEdge] using hid), hfrom, hto]
  rfl

/-- Every call keeps the guard. -/
theorem Call.keeps_conforming (c : Call) :
    KeepsGuard P Conforming (c.run P : EStateM CallError (Engine σ) Unit) := by
  refine c.keepsGuard (fun _ node => KeepsGuard.insertNode fun e log hcore hchecks => ?_)
    (fun _ edge => KeepsGuard.insertEdge fun e log hcore hchecks => ?_)
    (fun _ _ => KeepsGuard.deleteNode ?_) (fun _ => KeepsGuard.cascade ?_ ?_) ?_ ?_
  · rw [Conforming, schema_ofLog]
    refine hcore.conforms_of_checks rfl ?_
    unfold Engine.nodeChecks at hchecks
    split at hchecks
    · cases hchecks
    · exact hchecks
  · rw [Conforming, schema_ofLog]
    refine hcore.conforms_of_checks rfl ?_
    obtain ⟨hid, hfrom, hto⟩ := edgeChecks_ok hchecks
    rwa [edgeChecks_eq (by simpa [Engine.hasEdge] using hid) hfrom hto] at hchecks
  -- the other records insert nothing
  all_goals
    intros
    simp [Conforming, MutationOp.ConformsTo, MutationOp.inserted]

/-! ## Attempts -/

/-- The engine's error in the error of a call. -/
def CallError.engineError : CallError → Option EngineError
  | .engine err => some err
  | .query (.interpret (.typeMismatch (.engine err))) => some err
  | _ => none

/-- The call gets to the checks against the schema with the insert `op`: no earlier check of it
fails. -/
inductive Attempts {τ : Type} (e : Engine τ) : Call → MutationOp → Prop where
  | insertNode {node : Node} : e.hasNode node.id = false →
      Attempts e (.op (.insertNode node)) (.nodeInsert node)
  | insertEdge {edge : Edge} : e.hasEdge edge.id = false → e.hasNode edge.fromId = true →
      e.hasNode edge.toId = true → Attempts e (.op (.insertEdge edge)) (.edgeInsert edge)
  | create {cypher : String} {params : Params} {pattern : NodePattern} {label id : String}
      {props : BTreeMap String Value} : parse cypher = .ok (.create pattern) →
      Interpreter.nodeParts pattern params = .ok (label, props, id) → e.hasNode id = false →
      Attempts e (.query cypher params) (.nodeInsert (Interpreter.nodeOfParts label props id))
  | merge {cypher : String} {params : Params} {pattern : NodePattern} {label id : String}
      {props : BTreeMap String Value} : parse cypher = .ok (.merge pattern) →
      Interpreter.nodeParts pattern params = .ok (label, props, id) → e.hasNode id = false →
      Attempts e (.query cypher params) (.nodeInsert (Interpreter.nodeOfParts label props id))

theorem CallError.fault_of_engineError {err : CallError} {cause : EngineError}
    (h : err.engineError = some cause) : err.fault = cause.fault := by
  unfold CallError.engineError at h
  split at h
  · cases h
    rfl
  · cases h
    rfl
  · cases h

section Statements

variable {cypher : String} {params : Params} {pattern : NodePattern} {label id : String}
  {props : BTreeMap String Value}

/-- A statement that comes down to one call of the engine is that call. -/
theorem run_query_of_execute {stmt : Statement} {x : EngineM σ Unit} {e : Engine σ}
    (hparse : parse cypher = .ok stmt)
    (hexec : Interpreter.execute P stmt params e = (do
      Interpreter.callEngine x
      pure .empty : InterpretM σ QueryResult) e) :
    (Call.query cypher params).run P e =
      x.adaptExcept (fun err => CallError.query (.interpret (.typeMismatch (.engine err)))) e := by
  cases hr : x e <;>
    simp [Call.run, Engine.query, hparse, EStateM.adaptExcept, bind, EStateM.bind, hexec,
      Interpreter.callEngine, hr, pure, EStateM.pure]

/-- A `CREATE` whose node can be built is `insert_node` of that node. -/
theorem run_create (hparse : parse cypher = .ok (.create pattern))
    (hparts : Interpreter.nodeParts pattern params = .ok (label, props, id)) (e : Engine σ) :
    (Call.query cypher params).run P e =
      (Engine.insertNode P (Interpreter.nodeOfParts label props id)).adaptExcept
        (fun err => CallError.query (.interpret (.typeMismatch (.engine err)))) e := by
  refine run_query_of_execute hparse ?_
  rw [Interpreter.execute, Interpreter.execCreate,
    bind_of_ok (Interpreter.look_eq_ok_iff.2 ⟨hparts, rfl⟩)]

/-- So is a `MERGE` of a node that is not there. -/
theorem run_merge (hparse : parse cypher = .ok (.merge pattern))
    (hparts : Interpreter.nodeParts pattern params = .ok (label, props, id)) {e : Engine σ}
    (hid : e.hasNode id = false) :
    (Call.query cypher params).run P e =
      (Engine.insertNode P (Interpreter.nodeOfParts label props id)).adaptExcept
        (fun err => CallError.query (.interpret (.typeMismatch (.engine err)))) e := by
  refine run_query_of_execute hparse ?_
  rw [Interpreter.execute, Interpreter.execMerge,
    bind_of_ok (Interpreter.look_eq_ok_iff.2 ⟨hparts, rfl⟩)]
  dsimp only
  rw [bind_of_ok (get_apply e), if_neg (by simp [hid])]

end Statements

/-- A call that gets to the checks against the schema is those checks and then the commit. -/
theorem Attempts.run_eq {c : Call} {op : MutationOp} (h : Attempts e c op) :
    ∃ label properties, op.inserted = some (label, properties) ∧ Fresh e op ∧
      ∃ (x : EngineM σ Unit) (f : EngineError → CallError),
        c.run P e = x.adaptExcept f e ∧ (∀ err, (f err).engineError = some err) ∧
        x e = match Engine.schemaChecks label properties e with
          | .ok _ => Engine.commit P op e
          | .error err => .error err e := by
  cases h with
  | @insertNode node hid =>
      refine ⟨_, _, rfl, trivial, Engine.insertNode P node, CallError.engine, rfl, fun _ => rfl, ?_⟩
      rewrite [insertNode_eq, nodeChecks_eq hid]
      rfl
  | @insertEdge edge hid hfrom hto =>
      refine ⟨_, _, rfl, ?_, Engine.insertEdge P edge, CallError.engine, rfl, fun _ => rfl, ?_⟩
      · simpa [Fresh, Engine.hasEdge] using hid
      · rewrite [insertEdge_eq, edgeChecks_eq hid hfrom hto]
        rfl
  | create hparse hparts hid =>
      refine ⟨_, _, rfl, trivial, _, _, run_create hparse hparts e, fun _ => rfl, ?_⟩
      rewrite [insertNode_eq, nodeChecks_eq hid]
      rfl
  | merge hparse hparts hid =>
      refine ⟨_, _, rfl, trivial, _, _, run_merge hparse hparts hid, fun _ => rfl, ?_⟩
      rewrite [insertNode_eq, nodeChecks_eq hid]
      rfl

/-- An insert that does not conform is refused with the error that names the violation, and nothing
changes. -/
theorem Attempts.refused (hcore : Core P e log) {c : Call} {op : MutationOp} (h : Attempts e c op)
    (hop : ¬ op.ConformsTo (lastSchema log)) :
    ∃ s label properties cause err, lastSchema log = some s ∧
      op.inserted = some (label, properties) ∧ SchemaRefusal s label properties cause ∧
      c.run P e = .error err e ∧ err.engineError = some cause := by
  obtain ⟨label, properties, hins, -, x, f, hrun, hf, hx⟩ := h.run_eq (P := P)
  rcases schemaChecks_cases label properties e with ⟨hok, -⟩ | ⟨s, cause, herr, hs, href⟩
  -- what passes the checks conforms, since the schema in memory is the last one of the log
  · exact absurd (hcore.conforms_of_checks hins hok) hop
  · rw [herr] at hx
    refine ⟨s, label, properties, cause, f cause, hcore.currentSchema ▸ hs, hins, href, ?_, hf _⟩
    rw [hrun]
    exact adaptExcept_eq_error_iff.2 ⟨cause, hx, rfl⟩

/-- An insert that conforms is appended, unless the append fails. -/
theorem Attempts.admitted (hcore : Core P e log) {c : Call} {op : MutationOp} (h : Attempts e c op)
    (hop : op.ConformsTo (lastSchema log)) (hok : AppendsSucceed CallError.fault (c.run P e)) :
    ∃ e' m, c.run P e = .ok () e' ∧ m.op = op ∧
      contents e'.storage = contents e.storage ++ P.frameOf m := by
  obtain ⟨label, properties, hins, hfresh, x, f, hrun, hf, hx⟩ := h.run_eq (P := P)
  have hchecks : Engine.schemaChecks label properties e = .ok () := by
    rcases schemaChecks_cases label properties e with ⟨hok, -⟩ | ⟨s, cause, -, hs, href⟩
    · exact hok
    · exact absurd (hop label properties s hins (hcore.currentSchema ▸ hs)) href.not_conforms
  rw [hchecks] at hx
  rcases hcore.commit hfresh with ⟨e', hc, hcom⟩ | ⟨cause, e', hc, hio, -⟩
  · refine ⟨e', stamp e op, ?_, rfl, ?_⟩
    · rw [hrun]
      exact adaptExcept_eq_ok_iff.2 (hx.trans hc)
    · rw [hcom.core.contents, hcore.contents]
      simp [storeImage, encodeLog_append]
  · have herr : c.run P e = .error (f cause) e' := by
      rw [hrun]
      exact adaptExcept_eq_error_iff.2 ⟨cause, hx.trans hc, rfl⟩
    rw [herr] at hok
    exact absurd ((CallError.fault_of_engineError (hf cause)).trans hio) hok

/-- Every stored insert conformed to the schema in force. The schema in memory is the last one of
the log on the store; in that log each insert conforms to the last schema before it; an insert that
gets to the checks against the schema is refused, with the error that names the violation and with
nothing appended, if it does not conform to the last schema of the log, and is appended if it
conforms or no schema was pushed. -/
theorem stored_inserts_conform (h : ReachBy P (fun _ => True) e) :
    ∃ log, contents e.storage = header ++ encodeLog P log ∧ e.currentSchema = lastSchema log ∧
      (∀ pre m post, log = pre ++ m :: post → m.op.ConformsTo (lastSchema pre)) ∧
      ∀ c op, Attempts e c op →
        (¬ op.ConformsTo (lastSchema log) →
          ∃ s label properties cause err, lastSchema log = some s ∧
            op.inserted = some (label, properties) ∧ SchemaRefusal s label properties cause ∧
            c.run P e = .error err e ∧ err.engineError = some cause) ∧
        (lastSchema log = none ∨ op.ConformsTo (lastSchema log) →
          AppendsSucceed CallError.fault (c.run P e) →
          ∃ e' m, c.run P e = .ok () e' ∧ m.op = op ∧
            contents e'.storage = contents e.storage ++ P.frameOf m) := by
  obtain ⟨log, hcore, hlog⟩ := h.guarded (G := Conforming) fun c _ => c.keeps_conforming
  refine ⟨log, by simpa [storeImage] using hcore.contents, hcore.currentSchema,
    fun pre m post hsplit => ?_,
    fun c op hatt => ⟨hatt.refused hcore, fun hop => hatt.admitted hcore ?_⟩⟩
  · rw [← schema_ofLog]
    exact hlog pre m post hsplit
  · rcases hop with hnone | hop
    · intro label properties s _ hs
      rw [hnone] at hs
      cases hs
    · exact hop

/-- A schema that declares one label with an integer property. -/
def ageSchema : Schema :=
  ⟨1, (∅ : BTreeMap String TableSchema).insert "N"
    ⟨"N", .node, (∅ : BTreeMap String PropertyType).insert "age" .i64⟩⟩

/-- An engine with a node that was inserted before a schema that does not declare its label. -/
def schemaPushed : Engine MemoryStorage :=
  inMemory [.op (.insertNode (Node.new "a" "M")), .op (.applySchema ageSchema)]

/-- Under the schema a second node with that label is refused, and nothing changes. -/
theorem unknown_label_is_refused :
    schemaPushed.currentSchema = some ageSchema ∧
      ∃ cause err, SchemaRefusal ageSchema "M" ∅ cause ∧
        (Call.op (.insertNode (Node.new "b" "M"))).run bincode schemaPushed =
          .error err schemaPushed ∧ err.engineError = some cause := by
  have hreach : Reach bincode schemaPushed := reach_inMemory (by decide +kernel)
  have hcur : schemaPushed.currentSchema = some ageSchema := by decide +kernel
  obtain ⟨log, -, hlast, -, h⟩ := stored_inserts_conform hreach.reachBy
  have hlast : lastSchema log = some ageSchema := hlast.symm.trans hcur
  have hatt : Attempts schemaPushed (.op (.insertNode (Node.new "b" "M")))
      (.nodeInsert (Node.new "b" "M")) := .insertNode (by decide +kernel)
  have hnot : ¬ (MutationOp.nodeInsert (Node.new "b" "M")).ConformsTo (lastSchema log) := by
    intro hconf
    obtain ⟨table, htable, -⟩ := hconf "M" ∅ ageSchema rfl hlast
    have hnone : ageSchema.tables["M"]? = none := by decide +kernel
    rw [hnone] at htable
    cases htable
  obtain ⟨s, label, properties, cause, err, hs, hins, href, hrun, herr⟩ := (h _ _ hatt).1 hnot
  rw [hlast] at hs
  cases hs
  cases hins
  exact ⟨hcur, cause, err, href, hrun, herr⟩

end Morceau
