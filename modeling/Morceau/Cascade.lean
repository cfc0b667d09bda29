import Morceau.GuardedLogs

/-!
# Cascading deletes

`delete_node_with_cascade` is a sequence of commits: a tombstone for each edge at the node, then the
tombstone of the node. Their order is what keeps the graph free of dangling edges at every prefix of
the log: an edge is inserted between live nodes, and a node is deleted when no edge is left at it.
These two conditions are a guard (`PropertyGraph.Attached`), every call but the plain delete keeps
it, and a guarded log has no dangling edge (`GuardedLog.noDangling`).
-/

set_option autoImplicit false

namespace Morceau

open Lib LawfulStorage

/-- The edge starts or ends at the node. -/
def Edge.touches (d : Edge) (id : String) : Bool := d.fromId == id || d.toId == id

namespace PropertyGraph

variable {g : PropertyGraph}

/-- Every edge joins two live nodes. -/
def NoDangling (g : PropertyGraph) : Prop :=
  ∀ i d, g.edges.lookup i = some d →
    (g.nodes.lookup d.fromId).isSome ∧ (g.nodes.lookup d.toId).isSome

/-- The ids of the edges at a node. -/
def incident (g : PropertyGraph) (id : String) : Finset String :=
  g.edges.keys.filter fun i => (g.edges.lookup i).any fun d => d.touches id

theorem mem_incident {id i : String} :
    i ∈ g.incident id ↔ ∃ d, g.edges.lookup i = some d ∧ (d.fromId = id ∨ d.toId = id) := by
  rw [incident, Finset.mem_filter, Finmap.mem_keys, ← Finmap.lookup_isSome]
  cases g.edges.lookup i <;> simp [Edge.touches]

/-- An edge is inserted between live nodes, and a node is deleted when no edge is left at it. -/
def Attached (g : PropertyGraph) : MutationOp → Prop
  | .edgeInsert d => (g.nodes.lookup d.fromId).isSome ∧ (g.nodes.lookup d.toId).isSome
  | .nodeDelete id => g.incident id = ∅
  | _ => True

theorem NoDangling.apply (h : g.NoDangling) {op : MutationOp} (hop : g.Attached op) :
    (g.apply op).NoDangling := by
  cases op with
  | nodeInsert n =>
      have hlive : ∀ i, (g.nodes.lookup i).isSome → ((g.nodes.insert n.id n).lookup i).isSome := by
        intro i hi
        by_cases hin : i = n.id
        · subst hin
          rw [Finmap.lookup_insert]
          rfl
        · rwa [Finmap.lookup_insert_of_ne _ hin]
      intro i d hd
      exact ⟨hlive _ (h i d hd).1, hlive _ (h i d hd).2⟩
  | edgeInsert d' =>
      intro i d hd
      by_cases hi : i = d'.id
      · subst hi
        change (g.edges.insert d'.id d').lookup d'.id = some d at hd
        rw [Finmap.lookup_insert] at hd
        cases hd
        exact hop
      · change (g.edges.insert d'.id d').lookup i = some d at hd
        rw [Finmap.lookup_insert_of_ne _ hi] at hd
        exact h i d hd
  -- no edge is at the node that goes, so every endpoint stays
  | nodeDelete id =>
      intro i d hd
      have hnot : ¬ (d.fromId = id ∨ d.toId = id) := by
        intro ht
        have hmem : i ∈ g.incident id := mem_incident.2 ⟨d, hd, ht⟩
        rw [show g.incident id = ∅ from hop] at hmem
        simp at hmem
      rw [not_or] at hnot
      have hends := h i d hd
      show ((g.nodes.erase id).lookup d.fromId).isSome ∧ ((g.nodes.erase id).lookup d.toId).isSome
      rw [Finmap.lookup_erase_ne hnot.1, Finmap.lookup_erase_ne hnot.2]
      exact hends
  | edgeDelete id =>
      intro i d hd
      by_cases hi : i = id
      · subst hi
        change (g.edges.erase i).lookup i = some d at hd
        rw [Finmap.lookup_erase] at hd
        cases hd
      · change (g.edges.erase id).lookup i = some d at hd
        rw [Finmap.lookup_erase_ne hi] at hd
        exact h i d hd
  | schemaApply s => exact h

/-- The cascade at a node: the tombstones of the edges, then that of the node. -/
def cascadeOps (id : String) (ids : List String) : List MutationOp :=
  ids.map MutationOp.edgeDelete ++ [.nodeDelete id]

theorem isDelete_of_mem_cascadeOps (id : String) (ids : List String) :
    ∀ op ∈ cascadeOps id ids, op.isDelete = true := by
  intro op hop
  rcases List.mem_append.1 hop with hop | hop
  · obtain ⟨i, -, rfl⟩ := List.mem_map.1 hop
    rfl
  · rw [List.mem_singleton.1 hop]
    rfl

/-- A cascade over the edges at a node removes them and the node, and nothing else. -/
theorem applyAll_cascadeOps {id : String} {ids : List String}
    (hids : ∀ i, i ∈ ids ↔ i ∈ g.incident id) :
    (∀ i, (g.applyAll (cascadeOps id ids)).nodes.lookup i =
        if i = id then none else g.nodes.lookup i) ∧
      (∀ i, (g.applyAll (cascadeOps id ids)).edges.lookup i =
        if i ∈ g.incident id then none else g.edges.lookup i) ∧
      (g.applyAll (cascadeOps id ids)).schema = g.schema := by
  obtain ⟨hn, he, hs⟩ := applyAll_deletes g (isDelete_of_mem_cascadeOps id ids)
  refine ⟨fun i => ?_, fun i => ?_, hs⟩
  · rw [hn]
    simp [cascadeOps]
  · rw [he]
    simp [cascadeOps, hids]

/-- Each record of a cascade keeps edges attached: when the node goes, its edges are gone. -/
theorem attached_cascadeOps {id : String} {ids : List String}
    (hids : ∀ i, i ∈ ids ↔ i ∈ g.incident id) {pre : List MutationOp} {op : MutationOp}
    (h : pre ++ [op] <+: cascadeOps id ids) : (g.applyAll pre).Attached op := by
  rw [cascadeOps, List.prefix_concat_iff] at h
  rcases h with h | h
  · obtain ⟨rfl, hop⟩ := List.append_inj' h rfl
    cases hop
    -- the record of the node itself: by then the edges at it are gone
    obtain ⟨-, he, -⟩ := applyAll_deletes g fun op hop =>
      isDelete_of_mem_cascadeOps id _ op (List.mem_append_left _ hop)
    refine Finset.eq_empty_of_forall_notMem fun i hi => ?_
    obtain ⟨d, hd, ht⟩ := mem_incident.1 hi
    rw [he] at hd
    split at hd
    · cases hd
    · rename_i hnot
      exact hnot (List.mem_map_of_mem ((hids i).2 (mem_incident.2 ⟨d, hd, ht⟩)))
  -- the record of an edge, which no guard restricts
  · have hmem : op ∈ ids.map MutationOp.edgeDelete :=
      h.subset (List.mem_append_right _ (List.mem_singleton_self op))
    obtain ⟨i, -, rfl⟩ := List.mem_map.1 hmem
    trivial

end PropertyGraph

/-- A log that keeps edges attached has no dangling edge. -/
theorem GuardedLog.noDangling {log : List Mutation} (h : GuardedLog PropertyGraph.Attached log) :
    (PropertyGraph.ofLog log).NoDangling :=
  h.invariant (fun i d hd => by simp [PropertyGraph.empty] at hd) fun _ _ hg hop => hg.apply hop

/-! ## The commits of a cascade -/

variable {σ : Type} [LawfulStorage σ] {P : Platform} {e : Engine σ} {log : List Mutation}

/-- Committing a list of operations that insert no edge: the log grows by records of a prefix of the
list, and by all of it unless a commit fails in the I/O layer. -/
theorem Core.commitAll {ops : List MutationOp} (hops : ∀ op ∈ ops, ∀ d, op ≠ .edgeInsert d) :
    ∀ {e : Engine σ} {log : List Mutation}, Core P e log →
      ∃ ms e', Core P e' (log ++ ms) ∧ ms.map Mutation.op <+: ops ∧
        (Engine.commitAll P ops e = .ok () e' ∧ ms.map Mutation.op = ops ∨
          ∃ err, Engine.commitAll P ops e = .error err e' ∧ err.fault = .io) := by
  induction ops with
  | nil =>
      intro e log h
      exact ⟨[], e, by simpa using h, List.prefix_rfl, Or.inl ⟨rfl, rfl⟩⟩
  | cons op ops ih =>
      intro e log h
      have hfresh : Fresh e op := by
        cases op with
        | edgeInsert d => exact absurd rfl (hops _ (List.mem_cons_self ..) d)
        | nodeInsert n => trivial
        | nodeDelete id => trivial
        | edgeDelete id => trivial
        | schemaApply s => trivial
      rw [Engine.commitAll]
      rcases h.commit hfresh with ⟨e1, hc, hcom⟩ | ⟨err, e1, hc, herr, hfail⟩
      · obtain ⟨ms, e', hcore, hpre, hend⟩ :=
          ih (fun op' hop' => hops op' (List.mem_cons_of_mem _ hop')) hcom.core
        refine ⟨stamp e op :: ms, e', by simpa using hcore, by simpa [stamp] using hpre, ?_⟩
        rw [bind_of_ok hc]
        rcases hend with ⟨hok, hall⟩ | herr
        · exact Or.inl ⟨hok, by simp [hall, stamp]⟩
        · exact Or.inr herr
      · exact ⟨[], e1, by simpa using h.failed hfail, List.nil_prefix,
          Or.inr ⟨err, bind_of_error hc, herr⟩⟩

theorem commitAll_snoc (op : MutationOp) (ops : List MutationOp) :
    (Engine.commitAll P (ops ++ [op]) : EngineM σ Unit) =
      (do
        Engine.commitAll P ops
        Engine.commit P op) := by
  induction ops with
  | nil => simp [Engine.commitAll]
  | cons op' ops ih => simp [Engine.commitAll, ih]

/-- The cascade on a live node commits the tombstones of the edges at it and that of the node. -/
theorem Core.deleteNodeWithCascade (h : Core P e log) {id : String} (hid : e.hasNode id = true) :
    ∃ ids ms e', ids.Nodup ∧ (∀ i, i ∈ ids ↔ i ∈ (PropertyGraph.ofLog log).incident id) ∧
      Core P e' (log ++ ms) ∧ ms.map Mutation.op <+: PropertyGraph.cascadeOps id ids ∧
      (Engine.deleteNodeWithCascade P id e = .ok (true, ids.length) e' ∧
          ms.map Mutation.op = PropertyGraph.cascadeOps id ids ∨
        ∃ err, Engine.deleteNodeWithCascade P id e = .error err e' ∧ err.fault = .io) := by
  obtain ⟨incident, e1, hread, hq, hnodup, hmem⟩ := h.agrees.iterEdgesIncidentTo id
  -- reading the edges and then committing the cascade is all that the call does
  have hrun : Engine.deleteNodeWithCascade P id e =
      (Engine.commitAll P (PropertyGraph.cascadeOps id (incident.map Edge.id)) >>= fun _ =>
        pure (true, incident.length)) e1 := by
    unfold Engine.deleteNodeWithCascade
    rw [bind_of_ok (get_apply e), hid, Bool.not_true, if_neg Bool.false_ne_true, bind_of_ok hread,
      PropertyGraph.cascadeOps, commitAll_snoc, List.map_map, bind_assoc]
    rfl
  have hops : ∀ op ∈ PropertyGraph.cascadeOps id (incident.map Edge.id),
      ∀ d, op ≠ .edgeInsert d := by
    intro op hop d hd
    simp [PropertyGraph.cascadeOps, hd] at hop
  obtain ⟨ms, e', hcore, hpre, hend⟩ := Core.commitAll hops (h.quiet hq)
  refine ⟨incident.map Edge.id, ms, e', ?_, fun i => ?_, hcore, hpre, ?_⟩
  · refine hnodup.map_on fun d hd d' hd' heq => ?_
    have h1 := ((hmem d).1 hd).1
    rw [heq, ((hmem d').1 hd').1] at h1
    exact (Option.some.inj h1).symm
  · rw [PropertyGraph.mem_incident, List.mem_map]
    constructor
    · rintro ⟨d, hd, rfl⟩
      exact ⟨d, (hmem d).1 hd⟩
    · rintro ⟨d, hd, ht⟩
      have hdid := h.agrees.edgeIds i d hd
      exact ⟨d, (hmem d).2 ⟨hdid ▸ hd, ht⟩, hdid⟩
  · rw [hrun, List.length_map]
    rcases hend with ⟨hok, hall⟩ | ⟨err, herr, hio⟩
    · exact Or.inl ⟨bind_of_ok hok, hall⟩
    · exact Or.inr ⟨err, bind_of_error herr, hio⟩

theorem deleteNodeWithCascade_dead {id : String} (hid : e.hasNode id = false) :
    Engine.deleteNodeWithCascade P id e = .ok (false, 0) e := by
  unfold Engine.deleteNodeWithCascade
  rw [bind_of_ok (get_apply e), hid]
  rfl

/-! ## No dangling edge -/

namespace KeepsGuard

theorem deleteNodeWithCascade (id : String) :
    KeepsGuard P PropertyGraph.Attached
      (Engine.deleteNodeWithCascade P id : EngineM σ (Bool × Nat)) := by
  rintro e ⟨log, hcore, hlog⟩
  cases hid : e.hasNode id with
  | false =>
      rw [deleteNodeWithCascade_dead hid]
      exact ⟨log, hcore, hlog⟩
  | true =>
      obtain ⟨ids, ms, e', -, hids, hcore', hpre, hend⟩ := hcore.deleteNodeWithCascade hid
      have hfinal : finalState (Engine.deleteNodeWithCascade P id e) = e' := by
        rcases hend with ⟨hok, -⟩ | ⟨err, herr, -⟩
        · rw [hok]
          rfl
        · rw [herr]
          rfl
      rw [hfinal]
      refine ⟨_, hcore', hlog.append fun pre m post hsplit => ?_⟩
      -- what is committed up to this record is a prefix of the cascade
      have hsub : pre.map Mutation.op ++ [m.op] <+: ms.map Mutation.op :=
        ⟨post.map Mutation.op, by simp [hsplit]⟩
      exact PropertyGraph.attached_cascadeOps hids (hsub.trans hpre)

/-- Edges are inserted between live nodes. -/
theorem insertEdge_attached (edge : Edge) :
    KeepsGuard P PropertyGraph.Attached (Engine.insertEdge P edge : EngineM σ Unit) := by
  refine insertEdge fun e log hcore hchecks => ?_
  obtain ⟨-, hfrom, hto⟩ := edgeChecks_ok hchecks
  exact ⟨hcore.hasNode edge.fromId ▸ hfrom, hcore.hasNode edge.toId ▸ hto⟩

end KeepsGuard

/-- Every call but a plain delete keeps edges attached. -/
theorem Call.keeps_attached {c : Call} (hc : c.cascading = true) :
    KeepsGuard P PropertyGraph.Attached (c.run P : EStateM CallError (Engine σ) Unit) := by
  refine c.keepsGuard (fun _ _ => KeepsGuard.insertNode fun _ _ _ _ => trivial)
    (fun _ => KeepsGuard.insertEdge_attached) (fun hplain => ?_) KeepsGuard.deleteNodeWithCascade
    (fun _ _ => trivial) fun _ _ => trivial
  rw [hc] at hplain
  cases hplain

/-- In an engine whose log keeps edges attached, every live edge joins live nodes. -/
theorem Guarded.edges_join_live_nodes (h : Guarded P PropertyGraph.Attached e) :
    Reads (Engine.iterEdges P) e fun ds =>
      ∀ d ∈ ds, e.hasNode d.fromId = true ∧ e.hasNode d.toId = true := by
  obtain ⟨log, hcore, hlog⟩ := h
  obtain ⟨ds, e', hread, hq, -, hmem⟩ := hcore.agrees.iterEdges
  refine ⟨ds, e', hread, hq, fun d hd => ?_⟩
  rw [hcore.hasNode, hcore.hasNode]
  exact hlog.noDangling d.id d ((hmem d).1 hd)

/-- Cascades leave no dangling edge, also after a crash. If no call was a plain delete, then in the
engine opened on any prefix of the store that keeps the header every live edge joins live nodes; and
on the live engine the cascade on a live node returns the number of edges at it, and removes those
edges and that node and nothing else. -/
theorem cascade_leaves_no_dangling_edge (h : ReachBy P (fun c => c.cascading = true) e) :
    (∀ k, headerLen ≤ k → ∀ (s : σ) (actor : ActorId), Reliable s →
      contents s = (contents e.storage).take k →
      ∃ e', Engine.openWith P actor s = .ok e' ∧
        Reads (Engine.iterEdges P) e' fun ds =>
          ∀ d ∈ ds, e'.hasNode d.fromId = true ∧ e'.hasNode d.toId = true) ∧
    ∃ g, Agrees P e g ∧ ∀ id, e.hasNode id = true →
      AppendsSucceed EngineError.fault (Engine.deleteNodeWithCascade P id e) →
      ∃ e' g', Engine.deleteNodeWithCascade P id e = .ok (true, (g.incident id).card) e' ∧
        Agrees P e' g' ∧
        (∀ i, g'.nodes.lookup i = if i = id then none else g.nodes.lookup i) ∧
        (∀ i, g'.edges.lookup i = if i ∈ g.incident id then none else g.edges.lookup i) ∧
        g'.schema = g.schema := by
  have hg := h.guarded fun c hc => Call.keeps_attached hc
  refine ⟨fun k hk s actor hrel hs => ?_, ?_⟩
  · obtain ⟨e', hopen, hg'⟩ := hg.open_prefix hk hs hrel actor
    exact ⟨e', hopen, hg'.edges_join_live_nodes⟩
  · obtain ⟨log, hcore, -⟩ := hg
    refine ⟨_, hcore.agrees, fun id hid hok => ?_⟩
    obtain ⟨ids, ms, e', hnodup, hids, hcore', -, ⟨hrun, hall⟩ | ⟨err, hrun, herr⟩⟩ :=
      hcore.deleteNodeWithCascade hid
    -- a self-loop is listed once, so the count is the number of edges at the node
    · have hcard : ((PropertyGraph.ofLog log).incident id).card = ids.length := by
        rw [← List.toFinset_card_of_nodup hnodup]
        congr 1
        ext i
        rw [List.mem_toFinset, hids]
      refine ⟨e', _, by rw [hcard]; exact hrun, hcore'.agrees, ?_⟩
      rw [PropertyGraph.ofLog_append, hall]
      exact PropertyGraph.applyAll_cascadeOps hids
    · rw [hrun] at hok
      exact absurd herr hok

/-- The calls of a small history: a node with a self-loop and an edge to a second node, which is
then deleted with that edge. -/
def cascadeCalls : List Call :=
  [.op (.insertNode (Node.new "a" "N")), .op (.insertNode (Node.new "b" "N")),
    .op (.insertEdge (Edge.new "l" "L" "a" "a")), .op (.insertEdge (Edge.new "x" "L" "a" "b")),
    .query "MATCH (n) WHERE id(n) = 'b' DETACH DELETE n" ∅]

/-- After the small history the self-loop goes with its node. -/
theorem cascade_of_self_loop :
    ((inMemory cascadeCalls).nodeCount, (inMemory cascadeCalls).edgeCount) = (1, 1) ∧
      ∃ (e' : Engine MemoryStorage) (g g' : PropertyGraph),
        Engine.deleteNodeWithCascade bincode "a" (inMemory cascadeCalls) =
          .ok (true, (g.incident "a").card) e' ∧
        Agrees bincode (inMemory cascadeCalls) g ∧ Agrees bincode e' g' := by
  have hreach : ReachBy bincode (fun c => c.cascading = true) (inMemory cascadeCalls) :=
    ReachBy.runAll (ReachBy.fresh (s := MemoryStorage.new) rfl trivial rfl) (by decide +kernel)
  obtain ⟨-, g, hg, h⟩ := cascade_leaves_no_dangling_edge hreach
  obtain ⟨e', g', hrun, hg', -⟩ := h "a" (by decide +kernel) (by decide +kernel)
  exact ⟨by decide +kernel, e', g, g', hrun, hg, hg'⟩

end Morceau
