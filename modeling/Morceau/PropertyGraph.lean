import Morceau.Data.Graph
import Morceau.Lib.Buckets

/-!
# The abstract property graph

What a log of mutations means: two independent finite maps, from ids to nodes and from ids to edges,
and the schema pushed last. `PropertyGraph.ofLog` folds a log over the empty graph. A log is well
formed when every edge insert names an id that no live edge has (`WfLog`); this is what
`Engine::insert_edge` checks before it commits.
-/

set_option autoImplicit false

namespace Morceau

open Lib

/-- Two independent maps, id to node and id to edge, and the schema in force. -/
structure PropertyGraph where
  nodes : Finmap fun _ : String => Node
  edges : Finmap fun _ : String => Edge
  schema : Option Schema

/-- The operation is one on nodes. -/
def MutationOp.onNodes : MutationOp → Bool
  | .nodeInsert _ => true
  | .nodeDelete _ => true
  | _ => false

/-- The operation is one on edges. -/
def MutationOp.onEdges : MutationOp → Bool
  | .edgeInsert _ => true
  | .edgeDelete _ => true
  | _ => false

/-- The operation is a tombstone. -/
def MutationOp.isDelete : MutationOp → Bool
  | .nodeDelete _ => true
  | .edgeDelete _ => true
  | _ => false

namespace PropertyGraph

/-- The graph of an empty log. -/
def empty : PropertyGraph := ⟨∅, ∅, none⟩

/-- The effect of one operation. -/
def apply (g : PropertyGraph) : MutationOp → PropertyGraph
  | .nodeInsert n => { g with nodes := g.nodes.insert n.id n }
  | .edgeInsert d => { g with edges := g.edges.insert d.id d }
  | .nodeDelete id => { g with nodes := g.nodes.erase id }
  | .edgeDelete id => { g with edges := g.edges.erase id }
  | .schemaApply s => { g with schema := some s }

/-- The graph a log describes. -/
def ofLog (log : List Mutation) : PropertyGraph := log.foldl (fun g m => g.apply m.op) empty

@[simp] theorem ofLog_snoc (log : List Mutation) (m : Mutation) :
    ofLog (log ++ [m]) = (ofLog log).apply m.op := by
  simp [ofLog]

/-- The effect of a list of operations. -/
def applyAll (g : PropertyGraph) (ops : List MutationOp) : PropertyGraph := ops.foldl apply g

@[simp] theorem applyAll_nil (g : PropertyGraph) : g.applyAll [] = g := rfl

@[simp] theorem applyAll_cons (g : PropertyGraph) (op : MutationOp) (ops : List MutationOp) :
    g.applyAll (op :: ops) = (g.apply op).applyAll ops := rfl

theorem ofLog_append (log ms : List Mutation) :
    ofLog (log ++ ms) = (ofLog log).applyAll (ms.map Mutation.op) := by
  rw [ofLog, List.foldl_append, applyAll, List.foldl_map]
  rfl

/-- Tombstones remove the nodes and the edges that they name, and nothing else. -/
theorem applyAll_deletes {ops : List MutationOp} :
    ∀ (g : PropertyGraph), (∀ op ∈ ops, op.isDelete = true) →
      (∀ i, (g.applyAll ops).nodes.lookup i =
          if .nodeDelete i ∈ ops then none else g.nodes.lookup i) ∧
        (∀ i, (g.applyAll ops).edges.lookup i =
          if .edgeDelete i ∈ ops then none else g.edges.lookup i) ∧
        (g.applyAll ops).schema = g.schema := by
  induction ops with
  | nil => intro g _; simp
  | cons op ops ih =>
      intro g hops
      obtain ⟨hn, he, hs⟩ := ih (g.apply op) fun op' hop' => hops op' (List.mem_cons_of_mem _ hop')
      simp only [applyAll_cons, hn, he, hs, List.mem_cons]
      cases op with
      | nodeDelete id =>
          have hlook := fun i => congrFun (lookup_erase_eq_update g.nodes id) i
          simp only [Function.update_apply] at hlook
          refine ⟨fun i => ?_, by simp [apply], rfl⟩
          simp only [apply, hlook, MutationOp.nodeDelete.injEq]
          split <;> simp_all
      | edgeDelete id =>
          have hlook := fun i => congrFun (lookup_erase_eq_update g.edges id) i
          simp only [Function.update_apply] at hlook
          refine ⟨by simp [apply], fun i => ?_, rfl⟩
          simp only [apply, hlook, MutationOp.edgeDelete.injEq]
          split <;> simp_all
      | nodeInsert n => simp [MutationOp.isDelete] at hops
      | edgeInsert d => simp [MutationOp.isDelete] at hops
      | schemaApply s => simp [MutationOp.isDelete] at hops

/-- The node map after an operation depends on the node map before it, and only the operations on
nodes change it. -/
theorem nodes_apply {g g' : PropertyGraph} (h : g'.nodes = g.nodes) (op : MutationOp) :
    (g'.apply op).nodes = (g.apply op).nodes ∧
      (op.onNodes = false → (g.apply op).nodes = g.nodes) := by
  cases op <;> simp [apply, MutationOp.onNodes, h]

/-- The edge map after an operation depends on the edge map before it, and only the operations on
edges change it. -/
theorem edges_apply {g g' : PropertyGraph} (h : g'.edges = g.edges) (op : MutationOp) :
    (g'.apply op).edges = (g.apply op).edges ∧
      (op.onEdges = false → (g.apply op).edges = g.edges) := by
  cases op <;> simp [apply, MutationOp.onEdges, h]

/-- The node map of a log is that of its operations on nodes. -/
theorem nodes_ofLog_filter (log : List Mutation) :
    (ofLog (log.filter fun m => m.op.onNodes)).nodes = (ofLog log).nodes := by
  induction log using List.reverseRecOn with
  | nil => rfl
  | append_singleton log m ih =>
      obtain ⟨hstep, hskip⟩ := nodes_apply ih m.op
      rw [List.filter_append, ofLog_snoc]
      cases hop : m.op.onNodes with
      | true => rw [List.filter_cons_of_pos (by exact hop), List.filter_nil, ofLog_snoc, hstep]
      | false => rw [List.filter_cons_of_neg (by simp [hop]), List.filter_nil, List.append_nil, ih,
          hskip hop]

/-- The edge map of a log is that of its operations on edges. -/
theorem edges_ofLog_filter (log : List Mutation) :
    (ofLog (log.filter fun m => m.op.onEdges)).edges = (ofLog log).edges := by
  induction log using List.reverseRecOn with
  | nil => rfl
  | append_singleton log m ih =>
      obtain ⟨hstep, hskip⟩ := edges_apply ih m.op
      rw [List.filter_append, ofLog_snoc]
      cases hop : m.op.onEdges with
      | true => rw [List.filter_cons_of_pos (by exact hop), List.filter_nil, ofLog_snoc, hstep]
      | false => rw [List.filter_cons_of_neg (by simp [hop]), List.filter_nil, List.append_nil, ih,
          hskip hop]

/-- An edge insert needs a fresh edge id; every other operation is always admissible. -/
def Admissible (g : PropertyGraph) : MutationOp → Prop
  | .edgeInsert d => g.edges.lookup d.id = none
  | _ => True

end PropertyGraph

/-! ## Guarded logs -/

/-- Every record of the log satisfied `G` in the graph of the records before it. -/
def GuardedLog (G : PropertyGraph → MutationOp → Prop) (log : List Mutation) : Prop :=
  ∀ pre m post, log = pre ++ m :: post → G (PropertyGraph.ofLog pre) m.op

section GuardedLog

variable {G : PropertyGraph → MutationOp → Prop}

theorem guardedLog_nil : GuardedLog G [] := by
  intro pre m post h
  simp at h

theorem GuardedLog.of_append {log log' : List Mutation} (h : GuardedLog G (log ++ log')) :
    GuardedLog G log := by
  intro pre m post hlog
  exact h pre m (post ++ log') (by simp [hlog])

theorem GuardedLog.take {log : List Mutation} (h : GuardedLog G log) (n : Nat) :
    GuardedLog G (log.take n) := by
  rw [← List.take_append_drop n log] at h
  exact h.of_append

/-- Appending a record to a guarded log. -/
theorem guardedLog_snoc {log : List Mutation} {m : Mutation} :
    GuardedLog G (log ++ [m]) ↔ GuardedLog G log ∧ G (PropertyGraph.ofLog log) m.op := by
  constructor
  · intro h
    exact ⟨h.of_append, h log m [] rfl⟩
  · rintro ⟨h, hm⟩ pre m' post heq
    rcases List.eq_nil_or_concat post with rfl | ⟨post', x, rfl⟩
    · have := List.append_inj' heq rfl
      obtain ⟨rfl, hm'⟩ := this
      cases hm'
      exact hm
    · rw [List.concat_eq_append, ← List.cons_append, ← List.append_assoc] at heq
      obtain ⟨hlog, -⟩ := List.append_inj' heq rfl
      exact h pre m' post' hlog

/-- Appending records to a guarded log, each of which satisfies the guard in its turn. -/
theorem GuardedLog.append {log ms : List Mutation} (h : GuardedLog G log)
    (hms : ∀ pre m post, ms = pre ++ m :: post →
      G ((PropertyGraph.ofLog log).applyAll (pre.map Mutation.op)) m.op) :
    GuardedLog G (log ++ ms) := by
  induction ms using List.reverseRecOn with
  | nil => simpa using h
  | append_singleton ms m ih =>
      rw [← List.append_assoc, guardedLog_snoc]
      refine ⟨ih fun pre m' post hsplit => ?_, ?_⟩
      · exact hms pre m' (post ++ [m]) (by simp [hsplit])
      · rw [PropertyGraph.ofLog_append]
        exact hms ms m [] rfl

/-- What the guard lets an operation preserve, a guarded log preserves from the empty graph on. -/
theorem GuardedLog.invariant {K : PropertyGraph → Prop} (hempty : K PropertyGraph.empty)
    (hstep : ∀ g op, K g → G g op → K (g.apply op)) {log : List Mutation} (h : GuardedLog G log) :
    K (PropertyGraph.ofLog log) := by
  induction log using List.reverseRecOn with
  | nil => exact hempty
  | append_singleton log m ih =>
      obtain ⟨hlog, hm⟩ := guardedLog_snoc.1 h
      rw [PropertyGraph.ofLog_snoc]
      exact hstep _ _ (ih hlog) hm

end GuardedLog

/-- Every record of the log was admissible when it was appended. -/
def WfLog (log : List Mutation) : Prop :=
  ∀ pre m post, log = pre ++ m :: post → (PropertyGraph.ofLog pre).Admissible m.op

theorem wfLog_iff {log : List Mutation} : WfLog log ↔ GuardedLog PropertyGraph.Admissible log :=
  Iff.rfl

theorem wfLog_nil : WfLog [] := wfLog_iff.2 guardedLog_nil

theorem WfLog.take {log : List Mutation} (h : WfLog log) (n : Nat) : WfLog (log.take n) :=
  wfLog_iff.2 ((wfLog_iff.1 h).take n)

theorem WfLog.of_append {log log' : List Mutation} (h : WfLog (log ++ log')) : WfLog log :=
  wfLog_iff.2 (wfLog_iff.1 h).of_append

/-- Appending a record to a well-formed log. -/
theorem wfLog_snoc {log : List Mutation} {m : Mutation} :
    WfLog (log ++ [m]) ↔ WfLog log ∧ (PropertyGraph.ofLog log).Admissible m.op :=
  guardedLog_snoc

end Morceau
