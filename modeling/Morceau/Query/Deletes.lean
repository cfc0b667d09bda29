import Morceau.Cascade
import Morceau.Query.Answers

/-!
# `MATCH ... DELETE`

The rows of the match are computed on the state before the statement, and their nodes are deleted
one after another on a state that changes. A node that occurs again is gone by then and is skipped,
and a cascade removes only the edges that earlier cascades left. So the records of the whole
statement are the tombstones of the matched nodes, and with `DETACH` of the edges at them, each
exactly once (`Deleting.turn`, `Deleting.rows`), and the state after it is that of removing these
from the graph, whatever the order of the rows.
-/

set_option autoImplicit false

namespace Morceau

open Lib LawfulStorage Interpreter

/-! ## What the rows bind -/

/-- Every node in the row is one that the graph holds. -/
def LiveRow (g : PropertyGraph) (row : Bindings) : Prop :=
  ∀ (x : String) (n : Node), row[x]? = some (.node n) → ∃ id, g.nodes.lookup id = some n

section LiveRows

variable {g : PropertyGraph} {row : Bindings}

theorem LiveRow.empty : LiveRow g ∅ := by
  intro x n hn
  simp at hn

theorem LiveRow.insert (h : LiveRow g row) (var : String) {b : Binding}
    (hb : ∀ n, b = .node n → ∃ id, g.nodes.lookup id = some n) : LiveRow g (row.insert var b) := by
  intro x n hn
  rw [Std.ExtTreeMap.getElem?_insert] at hn
  split at hn
  · exact hb n (Option.some.inj hn)
  · exact h x n hn

theorem LiveRow.unify {r c m : Bindings} (hr : LiveRow g r) (hc : LiveRow g c)
    (hm : unifyBindings r c = some m) : LiveRow g m := by
  obtain ⟨-, rfl⟩ := unifyBindings_eq_some_iff.1 hm
  intro x n hn
  rw [getElem?_merge, Option.or_eq_some_iff] at hn
  rcases hn with hn | ⟨-, hn⟩
  · exact hr x n hn
  · exact hc x n hn

/-- The rows of `MATCH` bind nodes that the graph holds. -/
theorem Snapshot.join_live {S : Snapshot} {params : Params} {whereClause : Option Expr}
    {patterns : List Pattern} {rows out : List Bindings}
    (hnodes : ∀ n ∈ S.nodes, ∃ id, S.graph.nodes.lookup id = some n)
    (hrows : ∀ r ∈ rows, LiveRow S.graph r)
    (hjoin : S.join whereClause params patterns rows = .ok out) : ∀ r ∈ out, LiveRow S.graph r := by
  refine join_induction (Q := fun rows => ∀ r ∈ rows, LiveRow S.graph r) (by simp) ?_ ?_ ?_ hrows
    hjoin
  · intro p _ found r hr
    obtain ⟨n, hn, rfl⟩ := List.mem_map.1 hr
    refine LiveRow.empty.insert _ fun n' hn' => ?_
    cases hn'
    have hn := (List.mem_filter.1 hn).1
    cases found with
    | none => exact hnodes n hn
    | some id => exact ⟨id, Option.mem_toList.1 hn⟩
  · intro p _ hop _ prevVar edgeProps rows hrows m hm
    obtain ⟨r, hr, hm⟩ := List.mem_flatMap.1 hm
    obtain ⟨d, id, t, ht, rfl⟩ := mem_hopRows hm
    refine ((hrows r hr).insert _ fun n hn => ?_).insert _ fun n hn => ?_
    · cases hn
    · cases hn
      exact ⟨id, ht⟩
  · intro rows cands hrows hcands m hm
    obtain ⟨r, hr, t, ht, hm⟩ := mem_joinRows.1 hm
    exact (hrows r hr).unify (hcands t ht) hm

end LiveRows

/-- The id of the node that the row binds the variable to. -/
def boundId (var : String) (row : Bindings) : Option String :=
  match row[var]? with
  | some (.node n) => some n.id
  | _ => none

/-- The ids of the nodes that the rows bind the variable to. -/
def matchedIds (var : String) (rows : List Bindings) : Finset String :=
  (rows.filterMap (boundId var)).toFinset

theorem boundId_eq_some_iff {var : String} {row : Bindings} {id : String} :
    boundId var row = some id ↔ ∃ n, row[var]? = some (.node n) ∧ n.id = id := by
  unfold boundId
  rcases row[var]? with _ | n | d <;> simp

theorem mem_matchedIds {var : String} {rows : List Bindings} {id : String} :
    id ∈ matchedIds var rows ↔ ∃ row ∈ rows, ∃ n, row[var]? = some (.node n) ∧ n.id = id := by
  simp only [matchedIds, List.mem_toFinset, List.mem_filterMap, boundId_eq_some_iff]

theorem matchedIds_cons {var : String} {row : Bindings} {n : Node}
    (h : row[var]? = some (.node n)) (rows : List Bindings) :
    matchedIds var (row :: rows) = insert n.id (matchedIds var rows) := by
  have hid : boundId var row = some n.id := boundId_eq_some_iff.2 ⟨n, h, rfl⟩
  rw [matchedIds, List.filterMap_cons_some hid, List.toFinset_cons]
  rfl

/-! ## Tombstones -/

/-- The edges that go with the nodes of `D`: with `DETACH` those at one of them. -/
def PropertyGraph.goneEdges (g : PropertyGraph) (detach : Bool) (D : Finset String) :
    Finset String :=
  if detach then D.biUnion g.incident else ∅

theorem PropertyGraph.mem_goneEdges {g : PropertyGraph} {detach : Bool} {D : Finset String}
    {i : String} : i ∈ g.goneEdges detach D ↔
      detach = true ∧ ∃ d, g.edges.lookup i = some d ∧ (d.fromId ∈ D ∨ d.toId ∈ D) := by
  unfold goneEdges
  cases detach with
  | false => simp
  | true =>
      simp only [if_true, Finset.mem_biUnion, mem_incident, true_and]
      constructor
      · rintro ⟨id, hid, d, hd, rfl | rfl⟩
        · exact ⟨d, hd, Or.inl hid⟩
        · exact ⟨d, hd, Or.inr hid⟩
      · rintro ⟨d, hd, hid | hid⟩
        · exact ⟨_, hid, d, hd, Or.inl rfl⟩
        · exact ⟨_, hid, d, hd, Or.inr rfl⟩

/-- The operation is the tombstone of a node of `D` or of an edge of `R`. -/
def Tombstone (D R : Finset String) : MutationOp → Prop
  | .nodeDelete i => i ∈ D
  | .edgeDelete i => i ∈ R
  | _ => False

theorem Tombstone.isDelete {D R : Finset String} {op : MutationOp} (h : Tombstone D R op) :
    op.isDelete = true := by
  cases op with
  | nodeDelete id => rfl
  | edgeDelete id => rfl
  | nodeInsert n => exact h.elim
  | edgeInsert d => exact h.elim
  | schemaApply s => exact h.elim

/-- The edges that go with one more node. -/
theorem PropertyGraph.goneEdges_insert (g : PropertyGraph) (detach : Bool) (id : String)
    (D : Finset String) :
    g.goneEdges detach (insert id D) = g.goneEdges detach {id} ∪ g.goneEdges detach D := by
  cases detach with
  | false => rfl
  | true => simp [goneEdges, Finset.biUnion_insert]

theorem Tombstone.mono {D D' R R' : Finset String} (hD : D ⊆ D') (hR : R ⊆ R') {op : MutationOp}
    (h : Tombstone D R op) : Tombstone D' R' op := by
  cases op with
  | nodeDelete i => exact hD h
  | edgeDelete i => exact hR h
  | nodeInsert n => exact h
  | edgeInsert d => exact h
  | schemaApply s => exact h

/-- The records of a cascade at a new node, over the edges that are left, are the new tombstones. -/
theorem cascade_lists {id : String} {ids : List String} {D R R' : Finset String} (hid : id ∉ D)
    (hnodup : ids.Nodup) (hids : ∀ i, i ∈ ids ↔ i ∈ R' ∧ i ∉ R) :
    ListsExactly (fun op => Tombstone (insert id D) (R' ∪ R) op ∧ ¬ Tombstone D R op)
      (PropertyGraph.cascadeOps id ids) := by
  refine ⟨?_, fun op => ?_⟩
  · rw [PropertyGraph.cascadeOps, List.nodup_append]
    -- no record occurs twice: the edges are distinct, and the last record deletes a node
    refine ⟨hnodup.map fun i j hij => MutationOp.edgeDelete.inj hij, by simp, ?_⟩
    rintro op hop _ hop' rfl
    rw [List.mem_singleton.1 hop'] at hop
    simp at hop
  · rw [PropertyGraph.cascadeOps, List.mem_append, List.mem_map, List.mem_singleton]
    cases op with
    | nodeDelete i =>
        simp only [Tombstone, Finset.mem_insert, MutationOp.nodeDelete.injEq, reduceCtorEq,
          and_false, exists_false, false_or]
        constructor
        · rintro rfl
          exact ⟨Or.inl rfl, hid⟩
        · rintro ⟨rfl | hi, hnot⟩
          · rfl
          · exact absurd hi hnot
    | edgeDelete i =>
        simp only [Tombstone, Finset.mem_union, MutationOp.edgeDelete.injEq, exists_eq_right, hids,
          reduceCtorEq, or_false]
        tauto
    | nodeInsert n => simp [Tombstone]
    | edgeInsert d => simp [Tombstone]
    | schemaApply s => simp [Tombstone]

/-- The graph after tombstones, each once, of the nodes of `D` and the edges of `R`. -/
theorem PropertyGraph.applyAll_tombstones {g : PropertyGraph} {D R : Finset String}
    {ops : List MutationOp} (h : ListsExactly (Tombstone D R) ops) :
    (∀ i, (g.applyAll ops).nodes.lookup i = if i ∈ D then none else g.nodes.lookup i) ∧
      (∀ i, (g.applyAll ops).edges.lookup i = if i ∈ R then none else g.edges.lookup i) ∧
      (g.applyAll ops).schema = g.schema := by
  obtain ⟨hn, he, hs⟩ := applyAll_deletes g fun op hop => ((h.2 op).1 hop).isDelete
  have hnode : ∀ i, .nodeDelete i ∈ ops ↔ i ∈ D := fun i => h.2 _
  have hedge : ∀ i, .edgeDelete i ∈ ops ↔ i ∈ R := fun i => h.2 _
  simp only [hnode] at hn
  simp only [hedge] at he
  exact ⟨hn, he, hs⟩

/-- The index entries after tombstones are those before them, without the entries of what the
tombstones name. -/
theorem replay_deletes {P : Platform} {log ms : List Mutation} (hwf : WfLog (log ++ ms))
    (hms : ∀ m ∈ ms, m.op.isDelete = true) :
    (∀ i, (replay P (log ++ ms)).nodeIndex.lookup i =
        if .nodeDelete i ∈ ms.map Mutation.op then none else (replay P log).nodeIndex.lookup i) ∧
      ∀ i, (replay P (log ++ ms)).edgeIndex.lookup i =
        if .edgeDelete i ∈ ms.map Mutation.op then none
        else (replay P log).edgeIndex.lookup i := by
  -- on the last tombstone: the indexes before it are those of the log up to it
  induction ms using List.reverseRecOn with
  | nil => simp
  | append_singleton ms m ih =>
      rw [← List.append_assoc] at hwf ⊢
      obtain ⟨hn, he⟩ := ih hwf.of_append fun m' hm' => hms m' (by simp [hm'])
      have hcons := consistent_replay (P := P) hwf.of_append
      rw [replay_snoc]
      have hm := hms m (by simp)
      simp only [List.map_append, List.map_cons, List.map_nil, List.mem_append, List.mem_singleton]
      cases hop : m.op with
      | nodeDelete id =>
          refine ⟨fun i => ?_, fun i => by simpa [Indexes.publish] using he i⟩
          by_cases hi : i = id
          · subst hi
            simp [Indexes.publish]
          · simpa [Indexes.publish, hi] using hn i
      | edgeDelete id =>
          cases hd : (PropertyGraph.ofLog (log ++ ms)).edges.lookup id with
          | none =>
              -- the edge is not live, so its entry was gone before
              have hgone : (replay P (log ++ ms)).edgeIndex.lookup id = none := by
                rw [AList.lookup_eq_none, hcons.edges.mem_iff, hd]
                simp
              simp only [Indexes.publish, hd]
              refine ⟨fun i => by simpa using hn i, fun i => ?_⟩
              by_cases hi : i = id
              · subst hi
                simp [hgone]
              · simpa [hi] using he i
          | some d =>
              simp only [Indexes.publish, hd, Indexes.removeEdge]
              refine ⟨fun i => by simpa using hn i, fun i => ?_⟩
              by_cases hi : i = id
              · subst hi
                simp
              · simpa [hi] using he i
      | nodeInsert n => simp [hop, MutationOp.isDelete] at hm
      | edgeInsert d => simp [hop, MutationOp.isDelete] at hm
      | schemaApply s => simp [hop, MutationOp.isDelete] at hm

/-! ## One node -/

section Turns

variable {σ : Type} [LawfulStorage σ] {P : Platform} {e : Engine σ} {log : List Mutation}
  {detach : Bool} {id : String}

/-- One turn of the loop of `exec_match_delete`. -/
def deleteTurn (P : Platform) (detach : Bool) (id : String) : InterpretM σ Unit :=
  if detach then do
    let _ ← callEngine (Engine.deleteNodeWithCascade P id)
    pure ()
  else do
    let _ ← callEngine (Engine.deleteNode P id)
    pure ()

theorem deleteRows_cons {var : String} {row : Bindings} {n : Node}
    (h : row[var]? = some (.node n)) (rows : List Bindings) :
    (deleteRows P var detach (row :: rows) : InterpretM σ Unit) =
      (do
        deleteTurn P detach n.id
        deleteRows P var detach rows) := by
  rw [deleteRows, deleteTurn]
  simp only [h]
  cases detach <;> simp

/-- A node that is gone is skipped. -/
theorem deleteTurn_dead (hid : e.hasNode id = false) : deleteTurn P detach id e = .ok () e := by
  unfold deleteTurn
  cases detach with
  | true => exact bind_of_ok (callEngine_eq_ok_iff.2 (deleteNodeWithCascade_dead hid))
  | false =>
      have hdead : Engine.deleteNode P id e = .ok false e := by
        unfold Engine.deleteNode
        rw [bind_of_ok (get_apply e), hid]
        rfl
      exact bind_of_ok (callEngine_eq_ok_iff.2 hdead)

/-- A live node goes with the edges that go with it, or a commit fails in the I/O layer. -/
theorem Core.deleteTurn (h : Core P e log) (hid : e.hasNode id = true) (detach : Bool) :
    ∃ ids ms e', ids.Nodup ∧
      (∀ i, i ∈ ids ↔ i ∈ (PropertyGraph.ofLog log).goneEdges detach {id}) ∧
      Core P e' (log ++ ms) ∧
      (Morceau.deleteTurn P detach id e = .ok () e' ∧
          ms.map Mutation.op = PropertyGraph.cascadeOps id ids ∨
        ∃ err, Morceau.deleteTurn P detach id e = .error err e' ∧ err.fault = .io) := by
  cases detach with
  | true =>
      obtain ⟨ids, ms, e', hnodup, hids, hcore, -, hend⟩ := h.deleteNodeWithCascade hid
      refine ⟨ids, ms, e', hnodup, by simpa [PropertyGraph.goneEdges] using hids, hcore, ?_⟩
      rcases hend with ⟨hok, hall⟩ | ⟨err, herr, hio⟩
      · exact Or.inl ⟨bind_of_ok (callEngine_eq_ok_iff.2 hok), hall⟩
      · exact Or.inr ⟨_, bind_of_error (adaptExcept_eq_error_iff.2 ⟨err, herr, rfl⟩), hio⟩
  | false =>
      -- a plain delete is one commit, and no edge goes with the node
      have hrun : Engine.deleteNode P id e =
          (Engine.commit P (.nodeDelete id) >>= fun _ => pure true) e := by
        unfold Engine.deleteNode
        rw [bind_of_ok (get_apply e), hid]
        rfl
      have hfresh : Fresh e (.nodeDelete id) := trivial
      rcases h.commit hfresh with ⟨e', hc, hcom⟩ | ⟨err, e', hc, herr, hf⟩
      · refine ⟨[], [stamp e (.nodeDelete id)], e', by simp, by simp [PropertyGraph.goneEdges],
          hcom.core, Or.inl ⟨?_, rfl⟩⟩
        exact bind_of_ok (callEngine_eq_ok_iff.2 (hrun.trans (bind_of_ok hc)))
      · refine ⟨[], [], e', by simp, by simp [PropertyGraph.goneEdges], by simpa using h.failed hf,
          Or.inr ⟨.typeMismatch (.engine err), ?_, herr⟩⟩
        exact bind_of_error (adaptExcept_eq_error_iff.2 ⟨err, hrun.trans (bind_of_error hc), rfl⟩)

/-- After `log` the engine has committed the tombstones of the nodes of `D` and of the edges that go
with them, each once, and nothing else. -/
structure Deleting (P : Platform) (detach : Bool) (log : List Mutation) (D : Finset String)
    (ms : List Mutation) (e : Engine σ) : Prop where
  core : Core P e (log ++ ms)
  tombstones : ListsExactly (Tombstone D ((PropertyGraph.ofLog log).goneEdges detach D))
    (ms.map Mutation.op)

namespace Deleting

variable {D : Finset String} {ms : List Mutation}

theorem start (h : Core P e log) : Deleting P detach log ∅ [] e where
  core := by simpa using h
  tombstones := by
    refine ListsExactly.nil fun op hop => ?_
    cases op <;> simp [Tombstone, PropertyGraph.mem_goneEdges] at hop

/-- What is left of the graph. -/
theorem graph (h : Deleting P detach log D ms e) :
    (∀ i, (PropertyGraph.ofLog (log ++ ms)).nodes.lookup i =
        if i ∈ D then none else (PropertyGraph.ofLog log).nodes.lookup i) ∧
      (∀ i, (PropertyGraph.ofLog (log ++ ms)).edges.lookup i =
        if i ∈ (PropertyGraph.ofLog log).goneEdges detach D then none
        else (PropertyGraph.ofLog log).edges.lookup i) ∧
      (PropertyGraph.ofLog (log ++ ms)).schema = (PropertyGraph.ofLog log).schema := by
  rw [PropertyGraph.ofLog_append]
  exact PropertyGraph.applyAll_tombstones h.tombstones

/-- The edges that go with one more node are those that earlier nodes left. -/
theorem mem_goneEdges (h : Deleting P detach log D ms e) {i : String} :
    i ∈ (PropertyGraph.ofLog (log ++ ms)).goneEdges detach {id} ↔
      i ∈ (PropertyGraph.ofLog log).goneEdges detach {id} ∧
        i ∉ (PropertyGraph.ofLog log).goneEdges detach D := by
  rw [PropertyGraph.mem_goneEdges, h.graph.2.1]
  by_cases hi : i ∈ (PropertyGraph.ofLog log).goneEdges detach D
  · simp [hi]
  · simp only [hi, if_false, not_false_iff]
    rw [and_true, PropertyGraph.mem_goneEdges]

/-- One turn of the loop: a matched node that is gone already is skipped, another goes with the
edges that are left at it. -/
theorem turn (h : Deleting P detach log D ms e)
    (hlive : ((PropertyGraph.ofLog log).nodes.lookup id).isSome)
    (hok : AppendsSucceed InterpretError.fault (deleteTurn P detach id e)) :
    ∃ ms' e', deleteTurn P detach id e = .ok () e' ∧
      Deleting P detach log (insert id D) ms' e' := by
  have hhas := h.core.hasNode id
  rw [h.graph.1] at hhas
  -- the engine no longer has the node exactly if an earlier row bound it too
  by_cases hid : id ∈ D
  · rw [if_pos hid] at hhas
    exact ⟨ms, e, deleteTurn_dead hhas, by rwa [Finset.insert_eq_of_mem hid]⟩
  · rw [if_neg hid, hlive] at hhas
    obtain ⟨ids, ms', e', hnodup, hids, hcore, ⟨hrun, hops⟩ | ⟨err, hrun, hio⟩⟩ :=
      h.core.deleteTurn hhas detach
    · refine ⟨ms ++ ms', e', hrun, by rwa [← List.append_assoc], ?_⟩
      rw [List.map_append, hops]
      -- the cascade saw the edges that were left, not those of the graph before the statement
      simp only [h.mem_goneEdges] at hids
      rw [PropertyGraph.goneEdges_insert]
      refine (h.tombstones.append (cascade_lists hid hnodup hids)).congr fun op => ?_
      exact or_iff_right_of_imp
        (Tombstone.mono (Finset.subset_insert _ _) Finset.subset_union_right)
    · rw [hrun] at hok
      exact absurd hio hok

/-- The whole loop, over rows that bind the variable to nodes of the graph before the statement. -/
theorem rows {var : String} {rows : List Bindings} :
    ∀ {D : Finset String} {ms : List Mutation} {e : Engine σ}, Deleting P detach log D ms e →
      (∀ row ∈ rows, ∃ n, row[var]? = some (.node n) ∧
        ((PropertyGraph.ofLog log).nodes.lookup n.id).isSome) →
      AppendsSucceed InterpretError.fault (deleteRows P var detach rows e) →
      ∃ ms' e', deleteRows P var detach rows e = .ok () e' ∧
        Deleting P detach log (D ∪ matchedIds var rows) ms' e' := by
  induction rows with
  | nil =>
      intro D ms e h _ _
      exact ⟨ms, e, rfl, by simpa [matchedIds] using h⟩
  | cons row rows ih =>
      intro D ms e h hrows hok
      obtain ⟨n, hn, hlive⟩ := hrows row (by simp)
      rw [deleteRows_cons hn] at hok ⊢
      obtain ⟨ms₁, e₁, hturn, h₁⟩ := h.turn hlive hok.of_bind
      rw [bind_of_ok hturn] at hok ⊢
      obtain ⟨ms₂, e₂, hrun, h₂⟩ := ih h₁ (fun row' hrow' => hrows row' (by simp [hrow'])) hok
      refine ⟨ms₂, e₂, hrun, ?_⟩
      rwa [matchedIds_cons hn, Finset.union_insert, ← Finset.insert_union]

end Deleting

/-- The loop only ends well if every row binds the variable to a node. -/
theorem deleteRows_ok {var : String} {rows : List Bindings} :
    ∀ {e e' : Engine σ}, deleteRows P var detach rows e = .ok () e' →
      ∀ row ∈ rows, ∃ n, row[var]? = some (.node n) := by
  induction rows with
  | nil => intro e e' _; simp
  | cons row rows ih =>
      intro e e' hr row' hrow'
      rcases hrow : row[var]? with _ | n | d
      · simp only [deleteRows, hrow] at hr
        cases hr
      · rw [deleteRows_cons hrow] at hr
        obtain ⟨_, e₁, -, hr⟩ := bind_eq_ok_iff.1 hr
        rcases List.mem_cons.1 hrow' with rfl | hrow'
        · exact ⟨n, hrow⟩
        · exact ih hr row' hrow'
      · simp only [deleteRows, hrow] at hr
        cases hr

end Turns

/-! ## The statement -/

section Statements

variable {σ : Type} [LawfulStorage σ] {P : Platform} {e e' : Engine σ}

/-- The engine after the nodes of `D` were removed from an engine that agrees with the graph, and
with `DETACH` the edges at them: the reads, the entries of the indexes, and the log. -/
structure Removal (P : Platform) (detach : Bool) (D : Finset String) (e : Engine σ)
    (g : PropertyGraph) (e' : Engine σ) : Prop where
  reads : ∃ g', Agrees P e' g' ∧
    (∀ i, g'.nodes.lookup i = if i ∈ D then none else g.nodes.lookup i) ∧
    (∀ i, g'.edges.lookup i = if i ∈ g.goneEdges detach D then none else g.edges.lookup i) ∧
    g'.schema = g.schema
  nodeIndex : ∀ i, e'.nodeIndex.lookup i = if i ∈ D then none else e.nodeIndex.lookup i
  edgeIndex : ∀ i, e'.edgeIndex.lookup i =
    if i ∈ g.goneEdges detach D then none else e.edgeIndex.lookup i
  byLabel : ∀ k i, i ∈ Buckets.bucket e'.edgeByLabel k ↔
    i ∈ Buckets.bucket e.edgeByLabel k ∧ i ∉ g.goneEdges detach D
  byFrom : ∀ k i, i ∈ Buckets.bucket e'.edgesByFrom k ↔
    i ∈ Buckets.bucket e.edgesByFrom k ∧ i ∉ g.goneEdges detach D
  byTo : ∀ k i, i ∈ Buckets.bucket e'.edgesByTo k ↔
    i ∈ Buckets.bucket e.edgesByTo k ∧ i ∉ g.goneEdges detach D
  log : ∃ ms, contents e'.storage = contents e.storage ++ encodeLog P ms ∧
    ListsExactly (Tombstone D (g.goneEdges detach D)) (ms.map Mutation.op)

/-- An inverted index after some of the entries of its map are gone. -/
theorem bucket_of_inverts {key : Edge → String} {base base' : String → Option Edge}
    {m m' : HashMap String (HashSet String)} {R : Finset String} (h : Inverts key base m)
    (h' : Inverts key base' m') (hbase : ∀ i, base' i = if i ∈ R then none else base i)
    (k i : String) : i ∈ Buckets.bucket m' k ↔ i ∈ Buckets.bucket m k ∧ i ∉ R := by
  rw [h.mem_iff, h'.mem_iff, hbase]
  by_cases hi : i ∈ R
  · simp [hi]
  · simp [hi]

/-- What the tombstones leave. -/
theorem Deleting.removal {log ms : List Mutation} {D : Finset String} {detach : Bool}
    (hcore : Core P e log) (h : Deleting P detach log D ms e') :
    Removal P detach D e (PropertyGraph.ofLog log) e' := by
  obtain ⟨hnodes, hedges, hschema⟩ := h.graph
  have hms : ∀ m ∈ ms, m.op.isDelete = true := fun m hm =>
    ((h.tombstones.2 m.op).1 (List.mem_map_of_mem hm)).isDelete
  obtain ⟨hnix, heix⟩ := replay_deletes (P := P) h.core.wf hms
  have hnode : ∀ i, .nodeDelete i ∈ ms.map Mutation.op ↔ i ∈ D := fun i => h.tombstones.2 _
  have hedge : ∀ i, .edgeDelete i ∈ ms.map Mutation.op ↔
      i ∈ (PropertyGraph.ofLog log).goneEdges detach D := fun i => h.tombstones.2 _
  rw [← hcore.indexes, ← h.core.indexes] at hnix heix
  simp only [hnode] at hnix
  simp only [hedge] at heix
  -- each bucket inverts the edges of its own log, so it loses what the edges lose
  have hcons := hcore.consistent
  have hcons' := h.core.consistent
  refine ⟨⟨_, h.core.agrees, hnodes, hedges, hschema⟩, hnix, heix,
    bucket_of_inverts hcons.byLabel hcons'.byLabel hedges,
    bucket_of_inverts hcons.byFrom hcons'.byFrom hedges,
    bucket_of_inverts hcons.byTo hcons'.byTo hedges, ms, ?_, h.tombstones⟩
  rw [h.core.contents, hcore.contents]
  simp [storeImage]

/-- The rows of `MATCH` on an engine bind live nodes. -/
theorem Core.findMatchRows_live {log : List Mutation} (h : Core P e log) {patterns : List Pattern}
    {whereClause : Option Expr} {params : Params} {limit : Option Nat} {rows : List Bindings}
    {e₁ : Engine σ} (hr : findMatchRows P patterns whereClause params limit e = .ok rows e₁) :
    ∀ row ∈ rows, ∀ (x : String) (n : Node), row[x]? = some (.node n) →
      (PropertyGraph.ofLog log).nodes.lookup n.id = some n := by
  have heval := (h.backed.findMatchRows params whereClause patterns limit).eq_ok hr
  obtain ⟨joined, hjoin, hfilter⟩ := exceptBind_eq_ok_iff.1 heval
  have hlive := Snapshot.join_live (fun n hn => ⟨n.id, (h.faithful.nodes.2 n).1 hn⟩)
    (by simpa using LiveRow.empty) hjoin
  intro row hrow x n hn
  obtain ⟨id, hid⟩ := hlive row ((filterRows_ok hfilter).1.subset hrow) x n hn
  have hid' : n.id = id := h.agrees.nodeIds id n hid
  rw [hid']
  exact hid

/-- `MATCH ... DELETE` removes exactly the matched nodes. When the statement succeeds on a reachable
engine, the rows of the match on the state before it bind the variable to nodes, and the engine
after it is the one before without those nodes, and with `DETACH` without the edges at them; the log
has gained one tombstone for each. The same holds whatever the order in which the rows are
processed, and however often a row occurs. -/
theorem match_delete_removes_matched (h : Reach P e) :
    ∃ g, Agrees P e g ∧
      ∀ (patterns : List Pattern) (whereClause : Option Expr) (var : String) (detach : Bool)
        (params : Params) (r : QueryResult) (e' : Engine σ),
        execute P (.matchDelete patterns whereClause var detach) params e = .ok r e' →
        ∃ rows e₁, findMatchRows P patterns whereClause params none e = .ok rows e₁ ∧
          (∀ row ∈ rows, ∃ n, row[var]? = some (.node n)) ∧
          Removal P detach (matchedIds var rows) e g e' ∧
          ∀ rows', (∀ row, row ∈ rows' ↔ row ∈ rows) →
            AppendsSucceed InterpretError.fault (deleteRows P var detach rows' e₁) →
            ∃ e₂, deleteRows P var detach rows' e₁ = .ok () e₂ ∧
              Removal P detach (matchedIds var rows) e g e₂ := by
  obtain ⟨log, hinv⟩ := h.inv
  have hcore := hinv.toCore
  refine ⟨_, hcore.agrees, ?_⟩
  intro patterns whereClause var detach params r e' hexec
  obtain ⟨rows, e₁, hfind, hexec⟩ := bind_eq_ok_iff.1 hexec
  obtain ⟨_, e₂, hdelete, hexec⟩ := bind_eq_ok_iff.1 hexec
  cases hexec
  -- the loop ended well, so every row binds the variable to a node
  have hbound := deleteRows_ok hdelete
  have hcore₁ : Core P e₁ log :=
    hcore.quiet ((Reading.findMatchRows params whereClause patterns none).quiet.ok hfind)
  -- the loop over any rows that are the same as a set
  have hany : ∀ rows', (∀ row, row ∈ rows' ↔ row ∈ rows) →
      AppendsSucceed InterpretError.fault (deleteRows P var detach rows' e₁) →
      ∃ e₂, deleteRows P var detach rows' e₁ = .ok () e₂ ∧
        Removal P detach (matchedIds var rows) e (PropertyGraph.ofLog log) e₂ := by
    intro rows' hsame hok
    obtain ⟨ms, e₂, hrun, hdel⟩ := (Deleting.start hcore₁).rows (fun row hrow => by
      obtain ⟨n, hn⟩ := hbound row ((hsame row).1 hrow)
      have hlive := hcore.findMatchRows_live hfind row ((hsame row).1 hrow) var n hn
      exact ⟨n, hn, by rw [hlive]; rfl⟩) hok
    have hids : matchedIds var rows' = matchedIds var rows := by
      ext id
      simp only [mem_matchedIds, hsame]
    rw [Finset.empty_union, hids] at hdel
    exact ⟨e₂, hrun, hdel.removal hcore⟩
  refine ⟨rows, e₁, hfind, hbound, ?_, hany⟩
  obtain ⟨e₃, hrun, hremoval⟩ := hany rows (fun _ => Iff.rfl) (by rw [hdelete]; trivial)
  rw [hdelete] at hrun
  cases hrun
  exact hremoval

end Statements

/-- `MATCH (a)-[r:L]->(b), (b:N) DETACH DELETE a` on two nodes and an edge: one row is matched. -/
theorem detach_delete_of_source :
    ∃ (g : PropertyGraph) (rows : List Bindings) (e' : Engine MemoryStorage), rows.length = 1 ∧
      Agrees bincode oneEdge g ∧ Removal bincode true (matchedIds "a" rows) oneEdge g e' := by
  have hcount : rowCount (execute bincode (.matchDelete edgeAndTarget none "a" true) ∅ oneEdge) =
      some 0 := by decide +kernel
  have hlen : (resultRows
      (findMatchRows bincode edgeAndTarget none ∅ none oneEdge)).length = 1 := by decide +kernel
  obtain ⟨r, e', hexec, -⟩ := rowCount_eq_some hcount
  obtain ⟨g, hagree, hdelete⟩ := match_delete_removes_matched reach_oneEdge
  obtain ⟨rows, e₁, hfind, -, hremoval, -⟩ := hdelete _ _ _ _ _ r e' hexec
  rw [hfind] at hlen
  exact ⟨g, rows, e', hlen, hagree, hremoval⟩

end Morceau
