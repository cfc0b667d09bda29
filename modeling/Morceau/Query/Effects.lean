import Morceau.Engine.Operations
import Morceau.Query.Interpreter

/-!
# What a query does to the engine

A query is a chain of quiet reads and commits, like every other operation: the functions that only
look at the engine fail only to refuse the query (`Refuses`), the reads succeed under the invariant,
and the mutations go through the engine's own operations. `Call` collects the operations and the
queries, and `Call.chained` is the result for all of them.
-/

set_option autoImplicit false

namespace Morceau

open Lib LawfulStorage

/-- What an error of the interpreter is due to; the errors of the engine reach it as a type
mismatch. -/
def InterpretError.fault : InterpretError → Fault
  | .typeMismatch (.engine err) => err.fault
  | _ => .refusal

/-- What an error of a query is due to. -/
def QueryError.fault : QueryError → Fault
  | .parse _ => .refusal
  | .interpret err => err.fault

namespace Interpreter

/-! ## Functions that only look at the engine -/

/-- The computation fails only to refuse the query. -/
def Refuses {α : Type} (x : Except InterpretError α) : Prop :=
  ∀ err, x = .error err → err.fault = .refusal

namespace Refuses

variable {α β : Type}

theorem ok (a : α) : Refuses (.ok a) := by
  intro err h
  cases h

theorem error {err : InterpretError} (h : err.fault = .refusal) :
    Refuses (.error err : Except InterpretError α) := by
  intro err' h'
  cases h'
  exact h

theorem bind {x : Except InterpretError α} {f : α → Except InterpretError β} (hx : Refuses x)
    (hf : ∀ a, Refuses (f a)) : Refuses (x >>= f) := by
  intro err h
  cases x with
  | ok a => exact hf a err h
  | error err' =>
      cases h
      exact hx _ rfl

theorem mapM {f : α → Except InterpretError β} (hf : ∀ a, Refuses (f a)) (as : List α) :
    Refuses (as.mapM f) := by
  induction as with
  | nil => exact ok []
  | cons a as ih =>
      rw [List.mapM_cons]
      exact bind (hf a) fun b => bind ih fun bs => ok (b :: bs)

theorem foldlM {f : β → α → Except InterpretError β} (hf : ∀ b a, Refuses (f b a)) (as : List α) :
    ∀ b, Refuses (as.foldlM f b) := by
  induction as with
  | nil => exact fun b => ok b
  | cons a as ih =>
      intro b
      rw [List.foldlM_cons]
      exact bind (hf b a) ih

end Refuses

section Looks

variable {σ : Type} (e : Engine σ) (bindings : Bindings) (params : Params)

theorem refuses_evalConst (expr : Expr) : Refuses (evalConst params expr) := by
  unfold evalConst
  split
  · exact Refuses.ok _
  · split
    · exact Refuses.ok _
    · exact Refuses.error rfl
  · exact Refuses.error rfl

theorem refuses_evalPropertyMap (props : BTreeMap String Expr) :
    Refuses (evalPropertyMap props params) :=
  Refuses.foldlM (fun _ _ => Refuses.bind (refuses_evalConst params _) fun _ => Refuses.ok _) _ _

theorem refuses_resolvePropertyPath (var : String) (path : List String) :
    Refuses (resolvePropertyPath e bindings var path) := by
  unfold resolvePropertyPath
  split
  · unfold resolveNodePropertyPath
    split
    · exact Refuses.ok _
    · exact Refuses.ok _
    · exact Refuses.error rfl
  · unfold resolveEdgePropertyPath
    split
    · exact Refuses.ok _
    · exact Refuses.error rfl
  · exact Refuses.error rfl

theorem refuses_compareValues (op : BinOp) (l r : Value) : Refuses (compareValues op l r) := by
  unfold compareValues
  split <;> first | exact Refuses.ok _ | exact Refuses.error rfl

theorem refuses_applyLogic (name : String) (f : Bool → Bool → Bool) (l r : Value) :
    Refuses (applyLogic name f l r) := by
  unfold applyLogic
  split <;> first | exact Refuses.ok _ | exact Refuses.error rfl

theorem refuses_applyBinop (op : BinOp) (l r : Value) : Refuses (applyBinop op l r) := by
  cases op with
  | and => exact refuses_applyLogic _ _ l r
  | or => exact refuses_applyLogic _ _ l r
  | eq => exact Refuses.ok _
  | notEq => exact Refuses.ok _
  | lt => exact refuses_compareValues _ l r
  | gt => exact refuses_compareValues _ l r
  | ltEq => exact refuses_compareValues _ l r
  | gtEq => exact refuses_compareValues _ l r

theorem refuses_evalExpr (expr : Expr) : Refuses (evalExpr e bindings params expr) := by
  induction expr with
  | literal v => exact Refuses.ok v
  | param name =>
      rw [evalExpr]
      split
      · exact Refuses.ok _
      · exact Refuses.error rfl
  | property var path => exact refuses_resolvePropertyPath e bindings var path
  | idOf var =>
      rw [evalExpr]
      split
      · exact Refuses.ok _
      · exact Refuses.error rfl
  | binary op lhs rhs ihl ihr =>
      exact Refuses.bind ihl fun l => Refuses.bind ihr fun r => refuses_applyBinop op l r
  | not inner ih =>
      refine Refuses.bind ih fun v => ?_
      split
      · exact Refuses.ok _
      · exact Refuses.ok _
      · exact Refuses.error rfl

theorem refuses_evalPredicate (whereClause : Option Expr) :
    Refuses (evalPredicate e bindings params whereClause) := by
  cases whereClause with
  | none => exact Refuses.ok _
  | some expr =>
      refine Refuses.bind (refuses_evalExpr e bindings params expr) fun v => ?_
      split
      · exact Refuses.ok _
      · exact Refuses.ok _
      · exact Refuses.error rfl

theorem refuses_extractIdInExpr (var : String) (expr : Expr) :
    Refuses (extractIdInExpr var params expr) := by
  fun_induction extractIdInExpr var params expr with
  | case1 => exact Refuses.ok _
  | case2 =>
      refine Refuses.bind (refuses_evalConst params _) fun v => ?_
      split
      · exact Refuses.ok _
      · exact Refuses.ok _
  | case3 lhs rhs ihl ihr =>
      refine Refuses.bind ihl fun found => ?_
      split
      · exact Refuses.ok _
      · exact ihr
  | case4 => exact Refuses.ok _

theorem refuses_extractIdPredicate (var : String) (whereClause : Option Expr) :
    Refuses (extractIdPredicate var params whereClause) := by
  cases whereClause with
  | none => exact Refuses.ok _
  | some expr => exact refuses_extractIdInExpr params var expr

theorem refuses_filterRows (whereClause : Option Expr) (limit : Option Nat) (rows : List Bindings) :
    ∀ kept, Refuses (filterRows e whereClause params limit kept rows) := by
  induction rows with
  | nil => exact fun _ => Refuses.ok _
  | cons row rows ih =>
      intro kept
      refine Refuses.bind (refuses_evalPredicate e row params whereClause) fun b => ?_
      cases b with
      | false => exact ih kept
      | true =>
          cases limit with
          | none => exact Refuses.bind (ih _) fun _ => Refuses.ok _
          | some l =>
              show Refuses (if l ≤ kept + 1 then _ else _)
              split
              · exact Refuses.ok _
              · exact Refuses.bind (ih _) fun _ => Refuses.ok _

theorem refuses_sortRows (P : Platform) (rows : List Bindings) (order : OrderBy) :
    Refuses (sortRows P e rows order params) := by
  refine Refuses.bind (Refuses.mapM (fun row => ?_) rows) fun keyed => ?_
  · exact Refuses.bind (refuses_evalExpr e row params _) fun _ => Refuses.ok _
  · split
    · exact Refuses.ok _
    · exact Refuses.error rfl

theorem refuses_collectOne (target : CollectTarget) : Refuses (collectOne e bindings target) := by
  cases target with
  | var v =>
      rw [collectOne]
      split
      · exact Refuses.ok _
      · exact Refuses.error rfl
  | property var path => exact refuses_resolvePropertyPath e bindings var path

theorem refuses_projectAggregateRow (returnItems : List ReturnItem) (rows : List Bindings) :
    Refuses (projectAggregateRow e returnItems rows) := by
  refine Refuses.bind (Refuses.mapM (fun item => ?_) returnItems) fun _ => Refuses.ok _
  split
  · exact Refuses.ok _
  · exact Refuses.bind (Refuses.mapM (fun row => refuses_collectOne e row _) rows)
      fun _ => Refuses.ok _
  · exact Refuses.error rfl

theorem refuses_project (item : ReturnItem) : Refuses (project e bindings item) := by
  cases item with
  | var v =>
      rw [project]
      split
      · exact Refuses.ok _
      · exact Refuses.ok _
      · exact Refuses.error rfl
  | property var path =>
      exact Refuses.bind (refuses_resolvePropertyPath e bindings var path) fun _ => Refuses.ok _
  | count target => exact Refuses.error rfl
  | collect target => exact Refuses.error rfl

theorem refuses_projectRows (returnItems : List ReturnItem) (limit : Option Nat)
    (rows : List Bindings) : ∀ kept, Refuses (projectRows e returnItems limit kept rows) := by
  induction rows with
  | nil => exact fun _ => Refuses.ok _
  | cons row rows ih =>
      intro kept
      refine Refuses.bind (Refuses.mapM (refuses_project e row) returnItems) fun cells => ?_
      cases limit with
      | none => exact Refuses.bind (ih _) fun _ => Refuses.ok _
      | some l =>
          show Refuses (if l ≤ kept + 1 then _ else _)
          split
          · exact Refuses.ok _
          · exact Refuses.bind (ih _) fun _ => Refuses.ok _

theorem refuses_nodeParts (pattern : NodePattern) : Refuses (nodeParts pattern params) := by
  refine Refuses.bind ?_ fun label => Refuses.bind (refuses_evalPropertyMap params _) fun props =>
    Refuses.bind ?_ fun id => Refuses.ok _
  · unfold requireLabel
    split
    · exact Refuses.ok _
    · exact Refuses.error rfl
  · unfold requireId
    split
    · exact Refuses.ok _
    · exact Refuses.error rfl
    · exact Refuses.error rfl

end Looks

section Inversion

variable {σ α : Type} {e e' : Engine σ} {a : α}

theorem callEngine_eq_ok_iff {x : EngineM σ α} : callEngine x e = .ok a e' ↔ x e = .ok a e' :=
  adaptExcept_eq_ok_iff

theorem look_eq_ok_iff {x : Engine σ → Except InterpretError α} :
    look x e = .ok a e' ↔ x e = .ok a ∧ e' = e := by
  unfold look
  cases x e <;> simp [eq_comm]

end Inversion

end Interpreter

/-! ## The shape of queries -/

section Shapes

open Interpreter

variable {σ : Type} [LawfulStorage σ] {P : Platform} {α : Type}

theorem Reading.callEngine {x : EngineM σ α} (hx : Reading P EngineError.fault x) :
    Reading P InterpretError.fault (Interpreter.callEngine x) :=
  adapt _ (fun _ => rfl) hx

theorem Shaped.callEngine {x : EngineM σ α} (hx : Shaped P EngineError.fault x) :
    Shaped P InterpretError.fault (Interpreter.callEngine x) :=
  adapt _ (fun _ => rfl) hx

theorem Reading.lookAt {x : Engine σ → Except InterpretError α} (hx : ∀ e, Refuses (x e)) :
    Reading P InterpretError.fault (Interpreter.look x) := by
  refine look fun e => ?_
  unfold Interpreter.look
  cases h : x e with
  | ok a => exact Or.inl ⟨a, rfl⟩
  | error err => exact Or.inr ⟨err, rfl, hx e err h⟩

/-- Engine reads that succeed under the invariant, called from a query. -/
theorem Reading.readEngine {x : EngineM σ α} (hq : Moves Quiet x)
    (hx : ∀ e log, Core P e log → ∃ a e', x e = .ok a e' ∧ Quiet e e') :
    Reading P InterpretError.fault (Interpreter.callEngine x) :=
  callEngine (read hq hx)

end Shapes

namespace Reading

open Interpreter

variable {σ : Type} [LawfulStorage σ] {P : Platform} {α : Type}

variable (params : Params) (whereClause : Option Expr)

theorem nodeCandidates (pattern : NodePattern) :
    Reading P InterpretError.fault
      (Interpreter.nodeCandidates P pattern whereClause params : InterpretM σ _) := by
  refine bind (lookAt fun _ => refuses_extractIdPredicate params _ _) fun found => ?_
  cases found with
  | some idValue =>
      refine bind (readEngine (Engine.quiet_getNode _) fun _ _ h => ⟨_, h.getNode idValue⟩)
        fun byId => ?_
      cases byId with
      | none => exact pure _
      | some node => exact pure _
  | none =>
      exact bind (readEngine Engine.quiet_iterNodes fun _ _ h => ⟨_, h.iterNodes⟩) fun all => pure _

theorem hopEdges (edgePat : EdgePattern) (targetPat : NodePattern)
    (edgeProps : BTreeMap String Value) (row : Bindings) (edges : List Edge) :
    Reading P InterpretError.fault
      (Interpreter.hopEdges P edgePat targetPat edgeProps row edges : InterpretM σ _) := by
  induction edges with
  | nil => exact pure _
  | cons edge edges ih =>
      unfold Interpreter.hopEdges
      split
      · exact ih
      · refine bind (readEngine (Engine.quiet_getNode _) fun _ _ h => ⟨_, h.getNode edge.toId⟩)
          fun target => ?_
        split
        · exact ih
        · split
          · exact ih
          · exact bind ih fun _ => pure _

theorem hopRows (prevVar : String) (edgePat : EdgePattern) (targetPat : NodePattern)
    (edgeProps : BTreeMap String Value) (rows : List Bindings) :
    Reading P InterpretError.fault
      (Interpreter.hopRows P prevVar edgePat targetPat edgeProps rows : InterpretM σ _) := by
  induction rows with
  | nil => exact pure _
  | cons row rows ih =>
      unfold Interpreter.hopRows
      split
      · rename_i prevNode _
        refine bind (readEngine (Engine.quiet_iterEdgesFrom _ _)
          fun _ _ h => ⟨_, h.iterEdgesFrom prevNode.id edgePat.label⟩) fun edges => ?_
        exact bind (hopEdges edgePat targetPat edgeProps row edges) fun _ => bind ih fun _ => pure _
      · exact ih

theorem walkChain (chain : List (EdgePattern × NodePattern)) :
    ∀ (prevVar : String) (rows : List Bindings),
      Reading P InterpretError.fault
        (Interpreter.walkChain P params prevVar chain rows : InterpretM σ _) := by
  induction chain with
  | nil => exact fun _ _ => pure _
  | cons hop chain ih =>
      intro prevVar rows
      refine bind (lookAt fun _ => refuses_evalPropertyMap params _) fun edgeProps => ?_
      exact bind (hopRows prevVar hop.1 hop.2 edgeProps rows) fun next => ih _ next

theorem candidatesForPattern (pattern : Pattern) :
    Reading P InterpretError.fault
      (Interpreter.candidatesForPattern P pattern whereClause params : InterpretM σ _) := by
  cases pattern with
  | node np => exact nodeCandidates params whereClause np
  | path start chain =>
      exact bind (nodeCandidates params whereClause start) fun rows => walkChain params chain _ rows

theorem joinPatterns (patterns : List Pattern) : ∀ rows : List Bindings,
    Reading P InterpretError.fault
      (Interpreter.joinPatterns P whereClause params patterns rows : InterpretM σ _) := by
  induction patterns with
  | nil => exact fun _ => pure _
  | cons pattern patterns ih =>
      intro rows
      refine bind (candidatesForPattern params whereClause pattern) fun candidates => ?_
      show Reading P _ (if (joinRows rows candidates).isEmpty then _ else _)
      split
      · exact pure _
      · exact ih _

theorem findMatchRows (patterns : List Pattern) (limit : Option Nat) :
    Reading P InterpretError.fault
      (Interpreter.findMatchRows P patterns whereClause params limit : InterpretM σ _) :=
  bind (joinPatterns params whereClause patterns _) fun rows =>
    lookAt fun e => refuses_filterRows e params whereClause limit rows 0

/-- A `MATCH ... RETURN` only reads. -/
theorem execMatchReturn (patterns : List Pattern) (returnItems : List ReturnItem)
    (orderBy : Option OrderBy) (limit : Option Nat) :
    Reading P InterpretError.fault (Interpreter.execMatchReturn P patterns whereClause returnItems
      orderBy limit params : InterpretM σ _) := by
  refine bind (findMatchRows params whereClause patterns _) fun rows => ?_
  refine bind ?_ fun rows' => bind ?_ fun outRows => pure _
  · cases orderBy with
    | none => exact pure _
    | some order => exact lookAt fun e => refuses_sortRows e params P rows order
  · unfold outputRows
    split
    · exact lookAt fun e => refuses_projectAggregateRow e returnItems rows'
    · exact lookAt fun e => refuses_projectRows e returnItems limit rows' 0

end Reading

namespace Shaped

open Interpreter

variable {σ : Type} [LawfulStorage σ] {P : Platform} (params : Params)

theorem deleteRows (var : String) (detach : Bool) (rows : List Bindings) :
    Shaped P InterpretError.fault (Interpreter.deleteRows P var detach rows : InterpretM σ _) := by
  induction rows with
  | nil => exact pure _
  | cons row rows ih =>
      unfold Interpreter.deleteRows
      split
      · exact throw rfl
      · exact throw rfl
      · cases detach with
        | true => exact bind (callEngine (deleteNodeWithCascade _)) fun _ => ih
        | false => exact bind (callEngine (deleteNode _)) fun _ => ih

theorem execute (stmt : Statement) :
    Shaped P InterpretError.fault (Interpreter.execute P stmt params : InterpretM σ _) := by
  cases stmt with
  | create pattern =>
      refine bind (reading (Reading.lookAt fun _ => refuses_nodeParts params pattern))
        fun parts => ?_
      exact bind (callEngine (insertNode _)) fun _ => pure _
  | merge pattern =>
      refine bind (reading (Reading.lookAt fun _ => refuses_nodeParts params pattern))
        fun parts => ?_
      refine bind get fun e0 => ?_
      split
      · exact pure _
      · exact bind (callEngine (insertNode _)) fun _ => pure _
  | matchReturn patterns whereClause returnItems orderBy limit =>
      exact reading (Reading.execMatchReturn params whereClause patterns returnItems orderBy limit)
  | matchDelete patterns whereClause var detach =>
      refine bind (reading (Reading.findMatchRows params whereClause patterns _)) fun rows => ?_
      exact bind (deleteRows var detach rows) fun _ => pure _

theorem query (cypher : String) :
    Shaped P QueryError.fault (Engine.query P cypher params : EStateM _ (Engine σ) _) := by
  unfold Engine.query
  cases Morceau.parse cypher with
  | error err => exact throw rfl
  | ok stmt => exact adapt _ (fun _ => rfl) (execute params stmt)

end Shaped

/-- A call of the engine's interface that may change the store: an operation or a query. -/
inductive Call where
  | op (op : Op)
  | query (cypher : String) (params : Params)

/-- What a call can fail with. -/
inductive CallError where
  | engine (err : EngineError)
  | query (err : QueryError)
deriving DecidableEq

/-- What a failed call is due to. -/
def CallError.fault : CallError → Fault
  | .engine err => err.fault
  | .query err => err.fault

/-- Make the call; what it returns besides an error is dropped. -/
def Call.run {σ : Type} [Storage σ] (P : Platform) : Call → EStateM CallError (Engine σ) Unit
  | .op o => (o.run P).adaptExcept .engine
  | .query cypher params => do
      let _ ← (Engine.query P cypher params).adaptExcept .query
      pure ()

theorem Call.shaped {σ : Type} [LawfulStorage σ] {P : Platform} (call : Call) :
    Shaped P CallError.fault (call.run P : EStateM CallError (Engine σ) Unit) := by
  cases call with
  | op o => exact Shaped.adapt _ (fun _ => rfl) o.shaped
  | query cypher params =>
      exact Shaped.bind (Shaped.adapt _ (fun _ => rfl) (Shaped.query params cypher))
        fun _ => Shaped.pure ()

/-- Every call is a chain of commits, up to a failure of the I/O layer. -/
theorem Call.chained {σ : Type} [LawfulStorage σ] {P : Platform} (call : Call) :
    Chained P CallError.fault (call.run P : EStateM CallError (Engine σ) Unit) :=
  call.shaped.chained

end Morceau
