import Morceau.Engine.Refinement

/-!
# Operations as chains of commits

`Chain P e hs e'` says that `e'` is reached from `e` by quiet reads and successful commits, and that
`hs` are the states right after each of those commits. On an engine that satisfies the invariant,
every operation is such a chain, unless a commit fails in the I/O layer; then the chain ends at that
commit (`Ended`, `Chained`). That is a consequence of the shape of the code, which is put together
from looks at the engine and reads (`Reading`), and commits (`Shaped`); `Op.shaped` says so for
every operation.
-/

set_option autoImplicit false

namespace Morceau

open Lib LawfulStorage

variable {σ : Type} [LawfulStorage σ] {P : Platform}

/-- Quiet steps and successful commits from `e` to `e'`; `hs` are the states right after the
commits. -/
inductive Chain (P : Platform) : Engine σ → List (Engine σ) → Engine σ → Prop where
  | nil (e : Engine σ) : Chain P e [] e
  | quiet {e e1 e' : Engine σ} {hs : List (Engine σ)} :
      Quiet e e1 → Chain P e1 hs e' → Chain P e hs e'
  | commit {e e1 e' : Engine σ} {hs : List (Engine σ)} {op : MutationOp} :
      Fresh e op → Engine.commit P op e = .ok () e1 → Chain P e1 hs e' → Chain P e (e1 :: hs) e'

namespace Chain

variable {e e1 e' : Engine σ} {hs hs' : List (Engine σ)}

theorem of_quiet (h : Quiet e e') : Chain P e [] e' := .quiet h (.nil e')

theorem of_commit {op : MutationOp} (hf : Fresh e op) (h : Engine.commit P op e = .ok () e') :
    Chain P e [e'] e' := .commit hf h (.nil e')

theorem append (h : Chain P e hs e1) (h' : Chain P e1 hs' e') : Chain P e (hs ++ hs') e' := by
  induction h with
  | nil e => exact h'
  | quiet hq _ ih => exact .quiet hq (ih h')
  | commit hf hc _ ih => exact .commit hf hc (ih h')

/-- What quiet steps and commits preserve, along the log, a chain preserves. -/
theorem invariant {K : Engine σ → List Mutation → Prop}
    (hquiet : ∀ {e e' log}, K e log → Quiet e e' → K e' log)
    (hcommit : ∀ {e e' log op}, K e log → Fresh e op → Engine.commit P op e = .ok () e' →
      K e' (log ++ [stamp e op]))
    (h : Chain P e hs e') {log : List Mutation} (hK : K e log) :
    ∃ ms, K e' (log ++ ms) ∧ hs.length = ms.length ∧
      ∀ j s, hs[j]? = some s → K s (log ++ ms.take (j + 1)) := by
  induction h generalizing log with
  | nil e =>
      refine ⟨[], by simpa using hK, rfl, fun j s hj => ?_⟩
      simp at hj
  | quiet hq _ ih => exact ih (hquiet hK hq)
  | @commit e e1 e' hs op hf hc _ ih =>
      have h1 := hcommit hK hf hc
      obtain ⟨ms, hend, hlen, hall⟩ := ih h1
      refine ⟨stamp e op :: ms, by simpa using hend, by simp [hlen], fun j s hj => ?_⟩
      cases j with
      | zero =>
          simp only [List.getElem?_cons_zero, Option.some.injEq] at hj
          subst hj
          simpa using h1
      | succ j =>
          rw [List.getElem?_cons_succ] at hj
          simpa using hall j s hj

end Chain

/-- A successful commit, seen from the invariant. -/
theorem Core.committed {e e' : Engine σ} {log : List Mutation} {op : MutationOp} (h : Core P e log)
    (hf : Fresh e op) (hc : Engine.commit P op e = .ok () e') : Committed P e log op e' := by
  rcases h.commit hf with ⟨e1, hc1, hcom⟩ | ⟨err, e1, hc1, -, -⟩
  · rw [hc] at hc1
    cases hc1
    exact hcom
  · rw [hc] at hc1
    cases hc1

/-- A failed commit, seen from the invariant. -/
theorem Core.not_committed {e e' : Engine σ} {log : List Mutation} {op : MutationOp}
    {err : EngineError} (h : Core P e log) (hf : Fresh e op)
    (hc : Engine.commit P op e = .error err e') : Failed P e op e' := by
  rcases h.commit hf with ⟨e1, hc1, -⟩ | ⟨err, e1, hc1, -, hfail⟩
  · rw [hc] at hc1
    cases hc1
  · rw [hc] at hc1
    cases hc1
    exact hfail

/-- A chain keeps the invariant, with a longer log. -/
theorem Chain.core {e e' : Engine σ} {hs : List (Engine σ)} (hch : Chain P e hs e')
    {log : List Mutation} (h : Core P e log) : ∃ ms, Core P e' (log ++ ms) := by
  obtain ⟨ms, hend, -, -⟩ := hch.invariant (K := Core P) (fun h hq => h.quiet hq)
    (fun h hf hc => (h.committed hf hc).core) h
  exact ⟨ms, hend⟩

/-! ## Outcomes -/

/-- How a call can end: after a chain, with a result or with the refusal of the request, or at a
commit that failed in the I/O layer. It does not end with a desync. -/
inductive Ended (P : Platform) {ε α : Type} (fault : ε → Fault) (e : Engine σ) :
    EStateM.Result ε (Engine σ) α → Prop where
  | ok {a : α} {e' : Engine σ} {hs : List (Engine σ)} : Chain P e hs e' → Ended P fault e (.ok a e')
  | rejected {err : ε} {e' : Engine σ} {hs : List (Engine σ)} :
      fault err = .refusal → Chain P e hs e' → Ended P fault e (.error err e')
  | broken {err : ε} {e1 e' : Engine σ} {hs : List (Engine σ)} {op : MutationOp}
      {cause : EngineError} :
      fault err = .io → Chain P e hs e1 → Fresh e1 op → Engine.commit P op e1 = .error cause e' →
      Ended P fault e (.error err e')

/-- Every call on an engine that satisfies the invariant ends in one of these ways. -/
def Chained (P : Platform) {ε α : Type} (fault : ε → Fault) (x : EStateM ε (Engine σ) α) : Prop :=
  ∀ (e : Engine σ) (log : List Mutation), Core P e log → Ended P fault e (x e)

/-- The call did not fail in the I/O layer. -/
def AppendsSucceed {τ ε α : Type} (fault : ε → Fault) : EStateM.Result ε (Engine τ) α → Prop
  | .ok _ _ => True
  | .error err _ => fault err ≠ .io

instance {τ ε α : Type} (fault : ε → Fault) (r : EStateM.Result ε (Engine τ) α) :
    Decidable (AppendsSucceed fault r) :=
  match r with
  | .ok _ _ => isTrue trivial
  | .error err _ => inferInstanceAs (Decidable (fault err ≠ .io))

theorem AppendsSucceed.of_bind {τ ε α β : Type} {fault : ε → Fault} {x : EStateM ε (Engine τ) α}
    {f : α → EStateM ε (Engine τ) β} {e : Engine τ} (h : AppendsSucceed fault ((x >>= f) e)) :
    AppendsSucceed fault (x e) := by
  cases hx : x e with
  | ok a e' => trivial
  | error err e' =>
      rw [bind_of_error hx] at h
      exact h

theorem AppendsSucceed.of_adaptExcept {τ ε ε' α : Type} {fault : ε → Fault} {fault' : ε' → Fault}
    {f : ε → ε'} (hf : ∀ err, fault' (f err) = fault err) {x : EStateM ε (Engine τ) α}
    {e : Engine τ} (h : AppendsSucceed fault' (x.adaptExcept f e)) :
    AppendsSucceed fault (x e) := by
  unfold EStateM.adaptExcept at h
  cases hx : x e with
  | ok a e' => trivial
  | error err e' =>
      rw [hx] at h
      intro hio
      exact h ((hf err).trans hio)

namespace Ended

variable {ε α β : Type} {fault : ε → Fault} {e e1 : Engine σ} {hs : List (Engine σ)}

/-- A chain before a call joins the chain of the call. -/
theorem prepend (hch : Chain P e hs e1) {r : EStateM.Result ε (Engine σ) α}
    (h : Ended P fault e1 r) : Ended P fault e r := by
  cases h with
  | ok h => exact .ok (hch.append h)
  | rejected herr h => exact .rejected herr (hch.append h)
  | broken herr h hf hc => exact .broken herr (hch.append h) hf hc

theorem commit {log : List Mutation} (h : Core P e log) {op : MutationOp} (hf : Fresh e op) :
    Ended P EngineError.fault e (Engine.commit P op e) := by
  rcases h.commit hf with ⟨e', hc, -⟩ | ⟨err, e', hc, herr, -⟩
  · rw [hc]
    exact .ok (Chain.of_commit hf hc)
  · rw [hc]
    exact .broken herr (Chain.nil e) hf hc

end Ended

namespace Chained

variable {ε α β : Type} {fault : ε → Fault}

theorem bind {x : EStateM ε (Engine σ) α} {f : α → EStateM ε (Engine σ) β}
    (hx : Chained P fault x) (hf : ∀ a, Chained P fault (f a)) : Chained P fault (x >>= f) := by
  intro e log h
  have hxe := hx e log h
  cases hr : x e with
  | ok a e1 =>
      rw [hr] at hxe
      cases hxe with
      | ok hch =>
          obtain ⟨ms, h1⟩ := hch.core h
          rw [bind_of_ok hr]
          exact (hf a e1 _ h1).prepend hch
  | error err e1 =>
      rw [hr] at hxe
      rw [bind_of_error hr]
      cases hxe with
      | rejected herr hch => exact .rejected herr hch
      | broken herr hch hfr hc => exact .broken herr hch hfr hc

/-- Renaming the errors keeps a chain when it keeps what they are due to. -/
theorem adaptExcept {ε' : Type} {fault' : ε' → Fault} (f : ε → ε') {x : EStateM ε (Engine σ) α}
    (hf : ∀ err, fault' (f err) = fault err) (hx : Chained P fault x) :
    Chained P fault' (x.adaptExcept f) := by
  intro e log h
  have hend := hx e log h
  unfold EStateM.adaptExcept
  cases hr : x e with
  | ok a e' =>
      rw [hr] at hend
      cases hend with
      | ok hch => exact .ok hch
  | error err e' =>
      rw [hr] at hend
      cases hend with
      | rejected herr hch => exact .rejected ((hf err).trans herr) hch
      | broken herr hch hfr hc => exact .broken ((hf err).trans herr) hch hfr hc

/-- A call whose appends succeed is a chain. -/
theorem chain {x : EStateM ε (Engine σ) α} (hx : Chained P fault x) {e : Engine σ}
    {log : List Mutation} (h : Core P e log) (hok : AppendsSucceed fault (x e)) :
    ∃ hs, Chain P e hs (finalState (x e)) := by
  have hend := hx e log h
  cases hr : x e with
  | ok a e' =>
      rw [hr] at hend
      cases hend with
      | ok hch => exact ⟨_, hch⟩
  | error err e' =>
      rw [hr] at hend hok
      cases hend with
      | rejected _ hch => exact ⟨_, hch⟩
      | broken herr _ _ _ => exact absurd herr hok

end Chained

/-! ## The shape of the engine's code -/

/-- A computation that leaves the engine alone, and fails only to refuse the request. -/
def Looks {τ ε α : Type} (fault : ε → Fault) (x : EStateM ε (Engine τ) α) : Prop :=
  ∀ e, (∃ a, x e = .ok a e) ∨ ∃ err, x e = .error err e ∧ fault err = .refusal

/-- Code that is put together from looks at the engine and reads that succeed under the
invariant. -/
inductive Reading (P : Platform) : {ε α : Type} → (ε → Fault) → EStateM ε (Engine σ) α → Prop where
  | look {ε α : Type} {fault : ε → Fault} {x : EStateM ε (Engine σ) α} :
      Looks fault x → Reading P fault x
  | read {ε α : Type} {fault : ε → Fault} {x : EStateM ε (Engine σ) α} :
      Moves Quiet x → (∀ e log, Core P e log → ∃ a e', x e = .ok a e' ∧ Quiet e e') →
      Reading P fault x
  | bind {ε α β : Type} {fault : ε → Fault} {x : EStateM ε (Engine σ) α}
      {f : α → EStateM ε (Engine σ) β} :
      Reading P fault x → (∀ a, Reading P fault (f a)) → Reading P fault (x >>= f)
  | adapt {ε ε' α : Type} {fault : ε → Fault} {fault' : ε' → Fault} {x : EStateM ε (Engine σ) α}
      (f : ε → ε') :
      (∀ err, fault' (f err) = fault err) → Reading P fault x → Reading P fault' (x.adaptExcept f)

/-- Code that is put together from reading code and commits, which may be refused before they
start. -/
inductive Shaped (P : Platform) : {ε α : Type} → (ε → Fault) → EStateM ε (Engine σ) α → Prop where
  | reading {ε α : Type} {fault : ε → Fault} {x : EStateM ε (Engine σ) α} :
      Reading P fault x → Shaped P fault x
  | commit {x : EngineM σ Unit} :
      (∀ e, (∃ err, x e = .error err e ∧ err.fault = .refusal) ∨
        ∃ op, Fresh e op ∧ x e = Engine.commit P op e) →
      Shaped P EngineError.fault x
  | bind {ε α β : Type} {fault : ε → Fault} {x : EStateM ε (Engine σ) α}
      {f : α → EStateM ε (Engine σ) β} :
      Shaped P fault x → (∀ a, Shaped P fault (f a)) → Shaped P fault (x >>= f)
  | adapt {ε ε' α : Type} {fault : ε → Fault} {fault' : ε' → Fault} {x : EStateM ε (Engine σ) α}
      (f : ε → ε') :
      (∀ err, fault' (f err) = fault err) → Shaped P fault x → Shaped P fault' (x.adaptExcept f)

section Shapes

variable {ε α : Type} {fault : ε → Fault}

/-- Reading code moves at most the backend, whatever its outcome. -/
theorem Reading.quiet {x : EStateM ε (Engine σ) α} (h : Reading P fault x) : Moves Quiet x := by
  induction h with
  | look hx =>
      intro e
      rcases hx e with ⟨a, hr⟩ | ⟨err, hr, -⟩
      · rw [hr]
        exact Quiet.refl e
      · rw [hr]
        exact Quiet.refl e
  | read hq _ => exact hq
  | bind _ _ ihx ihf => exact Moves.bind Quiet.trans ihx ihf
  | adapt f _ _ ih =>
      intro e
      rw [finalState_adaptExcept]
      exact ih e

/-- Reading code fails only to refuse the request. -/
theorem Reading.chained {x : EStateM ε (Engine σ) α} (h : Reading P fault x) :
    Chained P fault x := by
  induction h with
  | look hx =>
      intro e log _
      rcases hx e with ⟨a, hr⟩ | ⟨err, hr, herr⟩
      · rw [hr]
        exact .ok (Chain.nil e)
      · rw [hr]
        exact .rejected herr (Chain.nil e)
  | read _ hx =>
      intro e log h
      obtain ⟨a, e', hr, hq⟩ := hx e log h
      rw [hr]
      exact .ok (Chain.of_quiet hq)
  | bind _ _ ihx ihf => exact Chained.bind ihx ihf
  | adapt f hf _ ih => exact Chained.adaptExcept f hf ih

/-- Code of this shape is a chain of commits, up to a failure of the I/O layer. -/
theorem Shaped.chained {x : EStateM ε (Engine σ) α} (h : Shaped P fault x) :
    Chained P fault x := by
  induction h with
  | reading hx => exact hx.chained
  | commit hx =>
      intro e log h
      rcases hx e with ⟨err, hr, herr⟩ | ⟨op, hf, hr⟩
      · rw [hr]
        exact .rejected herr (Chain.nil e)
      · rw [hr]
        exact Ended.commit h hf
  | bind _ _ ihx ihf => exact Chained.bind ihx ihf
  | adapt f hf _ ih => exact Chained.adaptExcept f hf ih

end Shapes

/-! ## The operations of the engine -/

section Checks

variable {τ : Type}

theorem validateLabel_refuses {label : String} (e : Engine τ) (err : EngineError)
    (h : Engine.validateLabel label e = .error err) : err.fault = .refusal := by
  unfold Engine.validateLabel at h
  split at h
  · cases h
  · split at h
    · cases h
    · cases h
      rfl

theorem validateProperties_refuses {label : String} {properties : Properties} (e : Engine τ)
    (err : EngineError) (h : Engine.validateProperties label properties e = .error err) :
    err.fault = .refusal := by
  unfold Engine.validateProperties at h
  split at h
  · cases h
  · split at h
    · cases h
    · split at h
      · cases h
      · cases h
        rfl

/-- The two checks against the schema, in their order. -/
def Engine.schemaChecks (label : String) (properties : Properties) (e : Engine τ) :
    Except EngineError Unit := do
  Engine.validateLabel label e
  Engine.validateProperties label properties e

/-- The checks of `insert_node`, in their order. -/
def Engine.nodeChecks (node : Node) (e : Engine τ) : Except EngineError Unit :=
  if node.id ∈ e.nodeIndex then .error (.duplicateId node.id)
  else Engine.schemaChecks node.label node.properties e

/-- The checks of `insert_edge`, in their order. -/
def Engine.edgeChecks (edge : Edge) (e : Engine τ) : Except EngineError Unit :=
  if edge.id ∈ e.edgeIndex then .error (.duplicateId edge.id)
  else if !e.hasNode edge.fromId then .error (.missingNode edge.fromId)
  else if !e.hasNode edge.toId then .error (.missingNode edge.toId)
  else Engine.schemaChecks edge.label edge.properties e

theorem schemaChecks_refuses {label : String} {properties : Properties} (e : Engine τ)
    (err : EngineError) (h : Engine.schemaChecks label properties e = .error err) :
    err.fault = .refusal := by
  unfold Engine.schemaChecks at h
  cases hl : Engine.validateLabel label e with
  | error err' =>
      rw [hl] at h
      cases h
      exact validateLabel_refuses e err hl
  | ok _ =>
      rw [hl] at h
      exact validateProperties_refuses e err h

theorem nodeChecks_refuses {node : Node} (e : Engine τ) (err : EngineError)
    (h : Engine.nodeChecks node e = .error err) : err.fault = .refusal := by
  unfold Engine.nodeChecks at h
  split at h
  · cases h
    rfl
  · exact schemaChecks_refuses e err h

theorem edgeChecks_refuses {edge : Edge} (e : Engine τ) (err : EngineError)
    (h : Engine.edgeChecks edge e = .error err) : err.fault = .refusal := by
  unfold Engine.edgeChecks at h
  split at h
  · cases h
    rfl
  split at h
  · cases h
    rfl
  split at h
  · cases h
    rfl
  · exact schemaChecks_refuses e err h

/-- An edge that passes its checks has a fresh id and live endpoints. -/
theorem edgeChecks_ok {edge : Edge} {e : Engine τ} (h : Engine.edgeChecks edge e = .ok ()) :
    edge.id ∉ e.edgeIndex ∧ e.hasNode edge.fromId = true ∧ e.hasNode edge.toId = true := by
  unfold Engine.edgeChecks at h
  split at h
  · cases h
  split at h
  · cases h
  split at h
  · cases h
  · rename_i hid hfrom hto
    exact ⟨hid, by simpa using hfrom, by simpa using hto⟩

/-- Code behind the two checks against the schema. -/
theorem schemaChecks_bind {label : String} {properties : Properties} {x : EngineM τ Unit}
    (e : Engine τ) :
    (do
      Engine.liftCheck (Engine.validateLabel label)
      Engine.liftCheck (Engine.validateProperties label properties)
      x) e =
      match Engine.schemaChecks label properties e with
      | .ok _ => x e
      | .error err => .error err e := by
  unfold Engine.schemaChecks
  cases hl : Engine.validateLabel label e with
  | error err => exact bind_of_error (by rw [Engine.liftCheck, hl])
  | ok _ =>
      rw [bind_of_ok (by rw [Engine.liftCheck, hl])]
      cases hp : Engine.validateProperties label properties e with
      | error err => exact bind_of_error (by rw [Engine.liftCheck, hp])
      | ok _ => exact bind_of_ok (by rw [Engine.liftCheck, hp])

end Checks

/-- `insert_node` is its checks and then the commit. -/
theorem insertNode_eq (node : Node) (e : Engine σ) :
    Engine.insertNode P node e =
      match Engine.nodeChecks node e with
      | .ok _ => Engine.commit P (.nodeInsert node) e
      | .error err => .error err e := by
  unfold Engine.insertNode Engine.nodeChecks
  rw [bind_of_ok (get_apply e)]
  split
  · rfl
  · exact schemaChecks_bind e

/-- `insert_edge` is its checks and then the commit. -/
theorem insertEdge_eq (edge : Edge) (e : Engine σ) :
    Engine.insertEdge P edge e =
      match Engine.edgeChecks edge e with
      | .ok _ => Engine.commit P (.edgeInsert edge) e
      | .error err => .error err e := by
  unfold Engine.insertEdge Engine.edgeChecks
  rw [bind_of_ok (get_apply e)]
  split
  · rfl
  split
  · rfl
  split
  · rfl
  · exact schemaChecks_bind e

/-- `insert_node` refuses the node, or commits it. -/
theorem insertNode_cases (node : Node) (e : Engine σ) :
    (∃ err, Engine.insertNode P node e = .error err e ∧ err.fault = .refusal) ∨
      Engine.insertNode P node e = Engine.commit P (.nodeInsert node) e := by
  rw [insertNode_eq]
  cases h : Engine.nodeChecks node e with
  | error err => exact Or.inl ⟨err, rfl, nodeChecks_refuses e err h⟩
  | ok _ => exact Or.inr rfl

/-- `insert_edge` refuses the edge, or commits it under an id that is fresh. -/
theorem insertEdge_cases (edge : Edge) (e : Engine σ) :
    (∃ err, Engine.insertEdge P edge e = .error err e ∧ err.fault = .refusal) ∨
      edge.id ∉ e.edgeIndex ∧
        Engine.insertEdge P edge e = Engine.commit P (.edgeInsert edge) e := by
  rw [insertEdge_eq]
  cases h : Engine.edgeChecks edge e with
  | error err => exact Or.inl ⟨err, rfl, edgeChecks_refuses e err h⟩
  | ok _ => exact Or.inr ⟨(edgeChecks_ok h).1, rfl⟩

namespace Reading

variable {ε α : Type} {fault : ε → Fault}

theorem pure (a : α) : Reading P fault (pure a : EStateM ε (Engine σ) α) :=
  look fun _ => Or.inl ⟨a, rfl⟩

theorem throw {err : ε} (herr : fault err = .refusal) :
    Reading P fault (throw err : EStateM ε (Engine σ) α) :=
  look fun _ => Or.inr ⟨err, rfl, herr⟩

theorem get : Reading P fault (get : EStateM ε (Engine σ) (Engine σ)) :=
  look fun e => Or.inl ⟨e, rfl⟩

end Reading

namespace Shaped

variable {ε α : Type} {fault : ε → Fault}

theorem pure (a : α) : Shaped P fault (pure a : EStateM ε (Engine σ) α) := reading (Reading.pure a)

theorem throw {err : ε} (herr : fault err = .refusal) :
    Shaped P fault (throw err : EStateM ε (Engine σ) α) := reading (Reading.throw herr)

theorem get : Shaped P fault (get : EStateM ε (Engine σ) (Engine σ)) := reading Reading.get

/-- A commit of anything but an edge insert needs no check. -/
theorem commitOp {op : MutationOp} (hop : ∀ d, op ≠ .edgeInsert d) :
    Shaped P EngineError.fault (Engine.commit P op : EngineM σ Unit) := by
  refine commit fun e => Or.inr ⟨op, ?_, rfl⟩
  cases op with
  | edgeInsert d => exact absurd rfl (hop d)
  | nodeInsert n => trivial
  | nodeDelete id => trivial
  | edgeDelete id => trivial
  | schemaApply s => trivial

theorem insertNode (node : Node) :
    Shaped P EngineError.fault (Engine.insertNode P node : EngineM σ Unit) := by
  refine commit fun e => ?_
  rcases insertNode_cases (P := P) node e with hr | hr
  · exact Or.inl hr
  · exact Or.inr ⟨.nodeInsert node, trivial, hr⟩

theorem insertEdge (edge : Edge) :
    Shaped P EngineError.fault (Engine.insertEdge P edge : EngineM σ Unit) := by
  refine commit fun e => ?_
  rcases insertEdge_cases (P := P) edge e with hr | ⟨hid, hr⟩
  · exact Or.inl hr
  · exact Or.inr ⟨.edgeInsert edge, hid, hr⟩

theorem applySchema (schema : Schema) :
    Shaped P EngineError.fault (Engine.applySchema P schema : EngineM σ Unit) :=
  commitOp (by simp)

theorem deleteNode (id : String) :
    Shaped P EngineError.fault (Engine.deleteNode P id : EngineM σ Bool) := by
  refine bind get fun e0 => ?_
  split
  · exact pure false
  · exact bind (commitOp (by simp)) fun _ => pure true

theorem deleteEdge (id : String) :
    Shaped P EngineError.fault (Engine.deleteEdge P id : EngineM σ Bool) := by
  refine bind get fun e0 => ?_
  split
  · exact pure false
  · exact bind (commitOp (by simp)) fun _ => pure true

theorem commitAll (ops : List MutationOp) (hops : ∀ op ∈ ops, ∀ d, op ≠ .edgeInsert d) :
    Shaped P EngineError.fault (Engine.commitAll P ops : EngineM σ Unit) := by
  induction ops with
  | nil => exact pure ()
  | cons op ops ih =>
      refine bind (commitOp (hops op (List.mem_cons_self ..))) fun _ => ?_
      exact ih fun op' h => hops op' (List.mem_cons_of_mem _ h)

theorem deleteNodeWithCascade (id : String) :
    Shaped P EngineError.fault (Engine.deleteNodeWithCascade P id : EngineM σ (Bool × Nat)) := by
  refine bind get fun e0 => ?_
  split
  · exact pure _
  · refine bind (reading (Reading.read (Engine.quiet_iterEdgesIncidentTo id)
      fun e log h => ⟨_, h.iterEdgesIncidentTo id⟩)) fun incident => ?_
    refine bind (commitAll _ ?_) fun _ => bind (commitOp (by simp)) fun _ => pure _
    intro op hop d
    obtain ⟨d', -, rfl⟩ := List.mem_map.1 hop
    simp

end Shaped

/-- The mutating operations of the engine. -/
inductive Op where
  | insertNode (node : Node)
  | insertEdge (edge : Edge)
  | deleteNode (id : String)
  | deleteEdge (id : String)
  | deleteNodeWithCascade (id : String)
  | applySchema (schema : Schema)

/-- Call the operation; what it returns besides an error is dropped. -/
def Op.run {τ : Type} [Storage τ] (P : Platform) : Op → EngineM τ Unit
  | .insertNode node => Engine.insertNode P node
  | .insertEdge edge => Engine.insertEdge P edge
  | .deleteNode id => do
      let _ ← Engine.deleteNode P id
      pure ()
  | .deleteEdge id => do
      let _ ← Engine.deleteEdge P id
      pure ()
  | .deleteNodeWithCascade id => do
      let _ ← Engine.deleteNodeWithCascade P id
      pure ()
  | .applySchema schema => Engine.applySchema P schema

theorem Op.shaped (op : Op) : Shaped P EngineError.fault (op.run P : EngineM σ Unit) := by
  cases op with
  | insertNode node => exact Shaped.insertNode node
  | insertEdge edge => exact Shaped.insertEdge edge
  | deleteNode id => exact Shaped.bind (Shaped.deleteNode id) fun _ => Shaped.pure ()
  | deleteEdge id => exact Shaped.bind (Shaped.deleteEdge id) fun _ => Shaped.pure ()
  | deleteNodeWithCascade id =>
      exact Shaped.bind (Shaped.deleteNodeWithCascade id) fun _ => Shaped.pure ()
  | applySchema schema => exact Shaped.applySchema schema

end Morceau
