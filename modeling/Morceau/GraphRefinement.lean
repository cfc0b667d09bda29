import Morceau.CrashRecovery
import Morceau.Engine.Refinement
import Morceau.Lib.Rows

/-!
# The engine refines the property graph

`Agrees P e g` says that every read of the engine `e` succeeds, leaves the engine as it was up to
the cursor of its backend, and returns what the abstract graph `g` has: the lookups are those of the
two maps, the counts are their sizes, and each listing holds exactly the entries it should, each
once.

The main result is that every reachable engine agrees with the graph of the log on its store, and
that no call and no reopen of it ends with a desync between the store and the indexes.
-/

set_option autoImplicit false

namespace Morceau

open Lib LawfulStorage

variable {σ : Type} [LawfulStorage σ] {P : Platform}

/-- The read succeeds, changes nothing but the backend's own state, and its result satisfies `Q`. -/
def Reads {α : Type} (x : EngineM σ α) (e : Engine σ) (Q : α → Prop) : Prop :=
  ∃ a e', x e = .ok a e' ∧ Quiet e e' ∧ Q a

/-- Every read of the engine succeeds and returns what the graph has. -/
structure Agrees (P : Platform) (e : Engine σ) (g : PropertyGraph) : Prop where
  nodeIds : ∀ id n, g.nodes.lookup id = some n → n.id = id
  edgeIds : ∀ id d, g.edges.lookup id = some d → d.id = id
  getNode : ∀ id, Reads (Engine.getNode P id) e (· = g.nodes.lookup id)
  getEdge : ∀ id, Reads (Engine.getEdge P id) e (· = g.edges.lookup id)
  hasNode : ∀ id, e.hasNode id = (g.nodes.lookup id).isSome
  hasEdge : ∀ id, e.hasEdge id = (g.edges.lookup id).isSome
  nodeCount : e.nodeCount = g.nodes.keys.card
  edgeCount : e.edgeCount = g.edges.keys.card
  iterNodes : Reads (Engine.iterNodes P) e (ListsExactly fun n => g.nodes.lookup n.id = some n)
  iterEdges : Reads (Engine.iterEdges P) e (ListsExactly fun d => g.edges.lookup d.id = some d)
  iterEdgesByLabel : ∀ label, Reads (Engine.iterEdgesByLabel P label) e
    (ListsExactly fun d => g.edges.lookup d.id = some d ∧ d.label = label)
  iterEdgesFrom : ∀ nodeId label, Reads (Engine.iterEdgesFrom P nodeId label) e
    (ListsExactly fun d => g.edges.lookup d.id = some d ∧ d.fromId = nodeId ∧
      ∀ l, label = some l → d.label = l)
  iterEdgesIncidentTo : ∀ nodeId, Reads (Engine.iterEdgesIncidentTo P nodeId) e
    (ListsExactly fun d => g.edges.lookup d.id = some d ∧ (d.fromId = nodeId ∨ d.toId = nodeId))
  schema : e.currentSchema = g.schema

section Listings

variable {log : List Mutation} {β : Type} {mk : β → MutationOp} {idOf : β → String}
  {base : Finmap fun _ : String => β} {ix : HashMap String IndexEntry}

/-- Looking up distinct ids lists exactly the entries that the ids pick out. -/
theorem Points.listsExactly (h : Points P log mk idOf base ix) {ids : List String}
    (hids : ids.Nodup) {q : β → Prop}
    (hmem : ∀ id, id ∈ ids ↔ ∃ b, base.lookup id = some b ∧ q b) :
    ListsExactly (fun b => base.lookup (idOf b) = some b ∧ q b) (listing base ids) := by
  refine ⟨h.nodup_listing hids, fun b => ?_⟩
  rw [h.mem_listing, hmem]
  constructor
  · rintro ⟨⟨b', hb', hq⟩, hb⟩
    rw [hb] at hb'
    cases hb'
    exact ⟨hb, hq⟩
  · rintro ⟨hb, hq⟩
    exact ⟨⟨b, hb, hq⟩, hb⟩

/-- Walking the whole index lists the whole map. -/
theorem Points.listsAll (h : Points P log mk idOf base ix) :
    ListsExactly (fun b => base.lookup (idOf b) = some b) (listing base ix.keys) := by
  have hall := h.listsExactly (q := fun _ => True) ix.keys_nodup fun id => by
    rw [← AList.mem_keys, h.mem_iff, Option.isSome_iff_exists]
    simp
  simpa [ListsExactly] using hall

end Listings

/-- The reads of an engine that satisfies the invariant are those of the graph of its log. -/
theorem Core.agrees {e : Engine σ} {log : List Mutation} (h : Core P e log) :
    Agrees P e (PropertyGraph.ofLog log) := by
  have hcons := h.consistent
  refine
    { nodeIds := fun id n hn => hcons.nodes.idOf_eq hn
      edgeIds := fun id d hd => hcons.edges.idOf_eq hd
      getNode := fun id => ?_
      getEdge := fun id => ?_
      hasNode := h.hasNode
      hasEdge := h.hasEdge
      nodeCount := hcons.nodes.length_entries
      edgeCount := hcons.edges.length_entries
      iterNodes := ?_
      iterEdges := ?_
      iterEdgesByLabel := fun label => ?_
      iterEdgesFrom := fun nodeId label => ?_
      iterEdgesIncidentTo := fun nodeId => ?_
      schema := hcons.schema }
  · obtain ⟨e', hr, hq⟩ := h.getNode id
    exact ⟨_, e', hr, hq, rfl⟩
  · obtain ⟨e', hr, hq⟩ := h.getEdge id
    exact ⟨_, e', hr, hq, rfl⟩
  · obtain ⟨e', hr, hq⟩ := h.iterNodes
    exact ⟨_, e', hr, hq, hcons.nodes.listsAll⟩
  · obtain ⟨e', hr, hq⟩ := h.iterEdges
    exact ⟨_, e', hr, hq, hcons.edges.listsAll⟩
  · obtain ⟨e', hr, hq⟩ := h.iterEdgesByLabel label
    exact ⟨_, e', hr, hq, hcons.edges.listsExactly (Core.nodup_edgeIdsForLabel e label)
      (h.mem_edgeIdsForLabel label)⟩
  · obtain ⟨e', hr, hq⟩ := h.iterEdgesFrom nodeId label
    exact ⟨_, e', hr, hq, hcons.edges.listsExactly (nodup_outgoingIds e nodeId label)
      (h.mem_outgoing nodeId label)⟩
  · obtain ⟨e', hr, hq⟩ := h.iterEdgesIncidentTo nodeId
    refine ⟨_, e', hr, hq, hcons.edges.listsExactly (e.incidentIds nodeId).keys_nodup fun id => ?_⟩
    rw [← AList.mem_keys]
    exact h.mem_incidentIds nodeId id

/-- Under the invariant no call ends with a desync. -/
theorem Chained.no_desync {ε α : Type} {fault : ε → Fault} {x : EStateM ε (Engine σ) α}
    (hx : Chained P fault x) {e e' : Engine σ} {log : List Mutation} (h : Core P e log) {err : ε}
    (hr : x e = .error err e') : fault err ≠ .desync := by
  have hend := hx e log h
  rw [hr] at hend
  cases hend with
  | rejected herr _ => simp [herr]
  | broken herr _ _ _ => simp [herr]

/-- Every reachable engine keeps the invariant for the log on its store. -/
theorem Reach.inv {e : Engine σ} (h : Reach P e) : ∃ log, Inv P e log := by
  obtain ⟨hist, hrun⟩ := h.run
  obtain ⟨log, hinv, -⟩ := hrun.inv
  exact ⟨log, hinv⟩

/-- The engine refines the property graph. A reachable engine's store is the header and a log; the
engine agrees with the graph of that log, whose node map depends only on the operations on nodes and
whose edge map only on those on edges; and no call and no reopen finds a desync. -/
theorem reachable_engine_refines_graph {e : Engine σ} (h : Reach P e) :
    ∃ log, contents e.storage = header ++ encodeLog P log ∧
      Agrees P e (PropertyGraph.ofLog log) ∧
      (PropertyGraph.ofLog (log.filter fun m => m.op.onNodes)).nodes =
        (PropertyGraph.ofLog log).nodes ∧
      (PropertyGraph.ofLog (log.filter fun m => m.op.onEdges)).edges =
        (PropertyGraph.ofLog log).edges ∧
      (∀ (c : Call) (err : CallError) (e' : Engine σ), c.run P e = .error err e' →
        err.fault ≠ .desync) ∧
      ∀ (actor : ActorId) (s : σ), Reliable s → contents s = contents e.storage →
        ∃ e', Engine.openWith P actor s = .ok e' := by
  obtain ⟨log, hinv⟩ := h.inv
  refine ⟨log, by simpa [storeImage] using hinv.contents, hinv.toCore.agrees,
    PropertyGraph.nodes_ofLog_filter log, PropertyGraph.edges_ofLog_filter log,
    fun c err e' hr => c.chained.no_desync hinv.toCore hr, fun actor s hrel hs => ?_⟩
  have hk : headerLen ≤ (contents e.storage).length := by
    rw [hinv.contents, length_storeImage, boundary]
    omega
  obtain ⟨n, e', -, hopen, -, -, -⟩ :=
    hinv.openWith_take hk (hs.trans (List.take_length).symm) hrel actor
  exact ⟨e', hopen⟩

/-- A node and an edge with the same id, where the edge is a self-loop, after a query and a refused
duplicate. -/
def selfLoop : Engine MemoryStorage :=
  inMemory
    [.query "CREATE (n:N \x7bid: 'x'\x7d)" ∅, .op (.insertEdge (Edge.new "x" "L" "x" "x")),
      .op (.insertEdge (Edge.new "x" "L" "x" "x"))]

/-- The reads of the engine with the self-loop agree with a graph of one node and one edge. -/
theorem refines_graph_of_self_loop :
    selfLoop.nodeCount = 1 ∧ selfLoop.edgeCount = 1 ∧
      ∃ g : PropertyGraph, Agrees bincode selfLoop g ∧ g.nodes.keys.card = 1 ∧
        g.edges.keys.card = 1 := by
  have hnodes : selfLoop.nodeCount = 1 := by decide +kernel
  have hedges : selfLoop.edgeCount = 1 := by decide +kernel
  obtain ⟨log, -, hagree, -⟩ :=
    reachable_engine_refines_graph (reach_inMemory (by decide +kernel) : Reach bincode selfLoop)
  exact ⟨hnodes, hedges, _, hagree, hagree.nodeCount ▸ hnodes, hagree.edgeCount ▸ hedges⟩

end Morceau
