import Morceau.CrashRecovery

/-!
# Single-commit operations under storage errors

`insert_node`, `insert_edge`, `delete_node`, `delete_edge` and `apply_schema` make one commit. Here
appends and reads of the backend may fail in any pattern. `FaultyReach P e` are the engines that
runs reach when calls may fail at any point, and the process may be restarted.

What survives every failure is the store, the log on it, and the two primary indexes (`Primary`). A
commit fails before it has changed anything, or it is done completely, or it is the delete of a live
edge whose insert record cannot be read back after the delete was appended: then the call returns an
error with the record in the store, the primary entry gone, and the three secondary indexes and the
mutation log untouched (`Primary.commit`). So an operation is atomic exactly when it is not such a
delete (`single_commit_atomic_iff`).
-/

set_option autoImplicit false

namespace Morceau

open Lib LawfulStorage

variable {σ : Type} [LawfulStorage σ] {P : Platform}

/-! ## Runs with failures -/

/-- One step of a run in which anything may fail: some reads, or a commit with any outcome. -/
inductive FaultStep (P : Platform) : Engine σ → Engine σ → Prop where
  | quiet {e e' : Engine σ} : Quiet e e' → FaultStep P e e'
  | commit {e : Engine σ} {op : MutationOp} :
      Fresh e op → FaultStep P e (finalState (Engine.commit P op e))

/-- Any number of such steps. -/
def FaultSteps (P : Platform) : Engine σ → Engine σ → Prop := Relation.ReflTransGen (FaultStep P)

/-- Whatever fails, a call moves the engine by reads and commits. -/
theorem Shaped.moves {ε α : Type} {fault : ε → Fault} {x : EStateM ε (Engine σ) α}
    (h : Shaped P fault x) : Moves (FaultSteps P) x := by
  induction h with
  | reading hx => exact fun e => Relation.ReflTransGen.single (.quiet (hx.quiet e))
  | commit hx =>
      intro e
      rcases hx e with ⟨err, hr, -⟩ | ⟨op, hf, hr⟩
      · rw [hr]
        exact Relation.ReflTransGen.refl
      · rw [hr]
        exact Relation.ReflTransGen.single (.commit hf)
  | bind _ _ ihx ihf =>
      exact Moves.bind (fun _ _ _ => Relation.ReflTransGen.trans) ihx ihf
  | adapt f _ _ ih =>
      intro e
      rw [finalState_adaptExcept]
      exact ih e

/-- Engines that runs reach when every append and every read may fail. The backend may start or stop
failing at any time; an open that succeeded read what the store holds. -/
inductive FaultyReach (P : Platform) : Engine σ → Prop where
  | fresh {actor : ActorId} {s : σ} {e : Engine σ} :
      contents s = header → Reliable s → Engine.openWith P actor s = .ok e → FaultyReach P e
  | faults {e : Engine σ} {s : σ} :
      FaultyReach P e → contents s = contents e.storage → FaultyReach P { e with storage := s }
  | wire {e : Engine σ} (l : MutationLog) :
      FaultyReach P e → FaultyReach P (e.withMutationLog l)
  | call {e : Engine σ} (c : Call) : FaultyReach P e → FaultyReach P (finalState (c.run P e))
  | reopen {e e' : Engine σ} {k : Nat} {actor : ActorId} {s : σ} :
      FaultyReach P e → headerLen ≤ k → contents s = (contents e.storage).take k → Reliable s →
      Engine.openWith P actor s = .ok e' → FaultyReach P e'

/-! ## What survives every failure -/

/-- The store holds the log, and the two primary indexes point at the live nodes and edges. -/
structure Primary (P : Platform) (e : Engine σ) (log : List Mutation) : Prop where
  contents : LawfulStorage.contents e.storage = storeImage P log []
  encodable : ∀ m ∈ log, P.Encodable m
  wf : WfLog log
  nodes : Points P log MutationOp.nodeInsert Node.id (PropertyGraph.ofLog log).nodes e.nodeIndex
  edges : Points P log MutationOp.edgeInsert Edge.id (PropertyGraph.ofLog log).edges e.edgeIndex

theorem Core.primary {e : Engine σ} {log : List Mutation} (h : Core P e log) : Primary P e log :=
  ⟨h.contents, h.encodable, h.wf, h.consistent.nodes, h.consistent.edges⟩

/-- The log bytes, all indexes, the schema and the teed mutations are as before. -/
structure Unchanged (e e' : Engine σ) : Prop where
  contents : contents e'.storage = LawfulStorage.contents e.storage
  indexes : e'.indexes = e.indexes
  mutationLog : e'.mutationLog = e.mutationLog

/-- The record of `op` was appended, published to every index and teed. -/
structure Done (P : Platform) (log : List Mutation) (e : Engine σ) (op : MutationOp)
    (e' : Engine σ) : Prop where
  encodable : P.Encodable (stamp e op)
  contents : contents e'.storage = LawfulStorage.contents e.storage ++ P.frameOf (stamp e op)
  indexes : e'.indexes =
    e.indexes.publish (PropertyGraph.ofLog log) op (entryAfter P log (stamp e op))
  mutationLog : e'.mutationLog = e.mutationLog.map fun l => l.record (stamp e op)

/-- The record of the delete of an edge was appended and the edge's primary entry is gone, but the
secondary indexes still have the edge and nothing was teed. -/
structure Half (P : Platform) (e : Engine σ) (id : String) (e' : Engine σ) : Prop where
  encodable : P.Encodable (stamp e (.edgeDelete id))
  contents : contents e'.storage =
    LawfulStorage.contents e.storage ++ P.frameOf (stamp e (.edgeDelete id))
  indexes : e'.indexes = { e.indexes with edgeIndex := e.edgeIndex.erase id }
  mutationLog : e'.mutationLog = e.mutationLog

/-- The operation is the delete of a live edge whose record is appended, and then the backend fails
the read of the edge's insert record. -/
def ReadFails (P : Platform) (e : Engine σ) (op : MutationOp) : Prop :=
  ∃ id entry off s', op = .edgeDelete id ∧ e.edgeIndex.lookup id = some entry ∧
    P.Encodable (stamp e op) ∧
    Storage.append (P.frameOf (stamp e op)) e.storage = .ok off s' ∧ EntryUnreadable entry s'

/-- After the append, the log is read with the new frame as its tail, and the place of the frame is
the entry of the record. -/
theorem Primary.appended {e : Engine σ} {log : List Mutation} (h : Primary P e log)
    {op : MutationOp} {off : Nat} {s' : σ}
    (happ : Storage.append (P.frameOf (stamp e op)) e.storage = .ok off s') :
    LawfulStorage.contents s' = storeImage P log (P.frameOf (stamp e op)) ∧
      (⟨off, (P.frameOf (stamp e op)).length - lenPrefixBytes, true⟩ : IndexEntry) =
        entryAfter P log (stamp e op) := by
  obtain ⟨hoff, hcs, -⟩ := append_ok happ
  rw [h.contents] at hoff hcs
  constructor
  · rw [hcs]
    simp [storeImage]
  · rw [hoff]
    simp [entryAfter, storeImage, stamp, length_header]

/-- A commit whose record was appended and published is done. -/
theorem Done.of_publish (log : List Mutation) {e e1 : Engine σ} {op : MutationOp} {off : Nat}
    {s' : σ} {publish : EngineM σ Unit} (henc : P.Encodable (stamp e op))
    (happ : Storage.append (P.frameOf (stamp e op)) e.storage = .ok off s')
    (hcom : Engine.commit P op e =
      (publish >>= fun _ => modify (teed (stamp e op))) { bumped e with storage := s' })
    (hpub : publish { bumped e with storage := s' } = .ok () e1)
    (hq : Quiet ({ bumped e with storage := s' }.withIndexes (e.indexes.publish
      (PropertyGraph.ofLog log) op (entryAfter P log (stamp e op)))) e1) :
    Engine.commit P op e = .ok () (teed (stamp e op) e1) ∧
      Done P log e op (teed (stamp e op) e1) := by
  rw [bind_of_ok hpub] at hcom
  refine ⟨hcom, henc, hq.contents.trans (append_ok happ).2.1, hq.indexes, ?_⟩
  show Option.map _ e1.mutationLog = _
  rw [hq.mutationLog]
  rfl

/-- After an append that succeeded, the read fails exactly if the operation is the delete of a live
edge whose entry cannot be read. -/
theorem readFails_iff {e : Engine σ} {op : MutationOp} {off : Nat} {s' : σ}
    (henc : P.Encodable (stamp e op))
    (happ : Storage.append (P.frameOf (stamp e op)) e.storage = .ok off s') :
    ReadFails P e op ↔ ∃ id entry, op = .edgeDelete id ∧ e.edgeIndex.lookup id = some entry ∧
      EntryUnreadable entry s' := by
  constructor
  · rintro ⟨id, entry, off', s'', hid, hl, -, happ', hunread⟩
    rw [happ] at happ'
    cases happ'
    exact ⟨id, entry, hid, hl, hunread⟩
  · rintro ⟨id, entry, hid, hl, hunread⟩
    exact ⟨id, entry, off, s', hid, hl, henc, happ, hunread⟩

/-- Everything a commit can do when the backend may fail. -/
theorem Primary.commit {e : Engine σ} {log : List Mutation} (h : Primary P e log)
    (op : MutationOp) :
    (∃ err e', Engine.commit P op e = .error err e' ∧ Failed P e op e' ∧ ¬ ReadFails P e op) ∨
      (∃ e', Engine.commit P op e = .ok () e' ∧ Done P log e op e' ∧ ¬ ReadFails P e op) ∨
      (∃ err e' id, Engine.commit P op e = .error err e' ∧ op = .edgeDelete id ∧ Half P e id e' ∧
        ReadFails P e op) := by
  rcases commit_cases (P := P) op e with ⟨err, herr, hcom⟩ | ⟨err, s', henc, happ, hcom⟩ |
    ⟨off, s', henc, happ, hcom⟩
  · -- the record does not encode, and nothing was written
    refine Or.inl ⟨_, _, hcom, ⟨rfl, Or.inl rfl⟩, ?_⟩
    rintro ⟨id, entry, off, s', -, -, ⟨b, hb⟩, -, -⟩
    rw [hb] at herr
    cases herr
  · -- the append failed
    refine Or.inl ⟨_, _, hcom, ⟨rfl, Or.inr ⟨henc, err, happ⟩⟩, ?_⟩
    rintro ⟨id, entry, off, s'', -, -, -, happ', -⟩
    rw [happ] at happ'
    cases happ'
  -- the record is in the store; what is left are the indexes, and a read for the edge to unlink
  obtain ⟨himg, hentry⟩ := h.appended happ
  rw [readFails_iff henc happ]
  by_cases hop : ∃ id, op = .edgeDelete id
  case neg =>
    -- nothing is read
    obtain ⟨hok, hdone⟩ := Done.of_publish log henc happ hcom
      ((updateIndexesFor_of_ne_edgeDelete _ (PropertyGraph.ofLog log)
        (fun id hid => hop ⟨id, hid⟩) _ _ _).trans (by rw [hentry]; rfl)) (Quiet.refl _)
    refine Or.inr (Or.inl ⟨_, hok, hdone, ?_⟩)
    rintro ⟨id, -, hid, -, -⟩
    exact hop ⟨id, hid⟩
  obtain ⟨id, rfl⟩ := hop
  cases hl : e.edgeIndex.lookup id with
  | none =>
      have hg : (PropertyGraph.ofLog log).edges.lookup id = none := h.edges.of_none hl
      obtain ⟨hok, hdone⟩ := Done.of_publish log henc happ hcom
        (updateIndexesFor_edgeDelete_dead (e := { bumped e with storage := s' }) hl off _ true)
        (by
          simp only [Indexes.publish, hg]
          exact Quiet.refl _)
      refine Or.inr (Or.inl ⟨_, hok, hdone, ?_⟩)
      rintro ⟨id', entry, hid, hl', -⟩
      cases hid
      rw [hl] at hl'
      cases hl'
  | some entry =>
      obtain ⟨d, hd, -, hat⟩ := h.edges.of_some hl
      rcases updateIndexesFor_edgeDelete_live (e := { bumped e with storage := s' }) himg
        h.encodable hl hat off ((P.frameOf (stamp e (.edgeDelete id))).length - lenPrefixBytes)
        true with ⟨e1, hupd, hq, hreadable⟩ | ⟨err, e1, hupd, hq, hfails, -⟩
      · obtain ⟨hok, hdone⟩ := Done.of_publish log henc happ hcom hupd (by
          simp only [Indexes.publish, hd]
          exact hq)
        refine Or.inr (Or.inl ⟨_, hok, hdone, ?_⟩)
        rintro ⟨id', entry', hid, hl', hunread⟩
        cases hid
        rw [hl] at hl'
        cases hl'
        exact hreadable hunread
      · -- the record is in the store and the primary entry gone, and the call stops there
        rw [bind_of_error hupd] at hcom
        exact Or.inr (Or.inr ⟨_, e1, id, hcom, rfl,
          ⟨henc, hq.contents.trans (append_ok happ).2.1, hq.indexes, hq.mutationLog⟩,
          id, entry, rfl, hl, hfails⟩)

namespace Primary

variable {e e' : Engine σ} {log : List Mutation}

theorem of_eq (h : Primary P e log)
    (hc : LawfulStorage.contents e'.storage = LawfulStorage.contents e.storage)
    (hi : e'.indexes = e.indexes) : Primary P e' log where
  contents := hc.trans h.contents
  encodable := h.encodable
  wf := h.wf
  nodes := by
    have hn : e'.nodeIndex = e.nodeIndex := congrArg Indexes.nodeIndex hi
    rw [hn]
    exact h.nodes
  edges := by
    have he : e'.edgeIndex = e.edgeIndex := congrArg Indexes.edgeIndex hi
    rw [he]
    exact h.edges

theorem admissible (h : Primary P e log) {op : MutationOp} (hf : Fresh e op) :
    (PropertyGraph.ofLog log).Admissible op := by
  cases op with
  | edgeInsert d => exact h.edges.of_none (AList.lookup_eq_none.2 hf)
  | nodeInsert n => trivial
  | nodeDelete id => trivial
  | edgeDelete id => trivial
  | schemaApply s => trivial

/-- A record that reached the store, with primary indexes that follow the graph. -/
theorem append (h : Primary P e log) {op : MutationOp} (hf : Fresh e op)
    (henc : P.Encodable (stamp e op))
    (hc : LawfulStorage.contents e'.storage =
      LawfulStorage.contents e.storage ++ P.frameOf (stamp e op))
    (hn : Points P (log ++ [stamp e op]) MutationOp.nodeInsert Node.id
      ((PropertyGraph.ofLog log).apply op).nodes e'.nodeIndex)
    (he : Points P (log ++ [stamp e op]) MutationOp.edgeInsert Edge.id
      ((PropertyGraph.ofLog log).apply op).edges e'.edgeIndex) :
    Primary P e' (log ++ [stamp e op]) where
  contents := by
    rw [hc, h.contents]
    simp [storeImage]
  encodable m hm := by
    rcases List.mem_append.1 hm with hm | hm
    · exact h.encodable m hm
    · rw [List.mem_singleton.1 hm]
      exact henc
  wf := wfLog_snoc.2 ⟨h.wf, h.admissible hf⟩
  nodes := by
    rw [PropertyGraph.ofLog_snoc]
    exact hn
  edges := by
    rw [PropertyGraph.ofLog_snoc]
    exact he

/-- Every step of a run with failures keeps the store, the log and the primary indexes together. -/
theorem step (h : Primary P e log) (hstep : FaultStep P e e') : ∃ log', Primary P e' log' := by
  cases hstep with
  | quiet hq => exact ⟨log, h.of_eq hq.contents hq.indexes⟩
  | @commit op hf =>
      rcases h.commit op with ⟨err, e1, hcom, hfail, -⟩ | ⟨e1, hcom, hdone, -⟩ |
        ⟨err, e1, id, hcom, rfl, hhalf, -⟩
      · rw [hcom]
        exact ⟨log, h.of_eq hfail.contents hfail.indexes⟩
      · rw [hcom]
        have hpub : Points P _ _ _ _ e1.indexes.nodeIndex ∧ Points P _ _ _ _ e1.indexes.edgeIndex :=
          hdone.indexes ▸ points_publish h.nodes h.edges (stamp e op)
        exact ⟨_, h.append hf hdone.encodable hdone.contents hpub.1 hpub.2⟩
      · -- the entry is gone from the primary index, and the edge from the graph
        rw [hcom]
        have hn : e1.nodeIndex = e.nodeIndex := congrArg Indexes.nodeIndex hhalf.indexes
        have he : e1.edgeIndex = e.edgeIndex.erase id := congrArg Indexes.edgeIndex hhalf.indexes
        exact ⟨_, h.append hf hhalf.encodable hhalf.contents (hn ▸ h.nodes.append _)
          (he ▸ (h.edges.append _).erase id)⟩

theorem steps (h : Primary P e log) (hsteps : FaultSteps P e e') :
    ∃ log', Primary P e' log' := by
  induction hsteps with
  | refl => exact ⟨log, h⟩
  | tail _ hstep ih =>
      obtain ⟨log', h'⟩ := ih
      exact h'.step hstep

end Primary

/-- Every run with failures keeps the store, the log and the primary indexes together. -/
theorem FaultyReach.primary {e : Engine σ} (h : FaultyReach P e) : ∃ log, Primary P e log := by
  induction h with
  | fresh hs hrel hopen => exact ⟨[], (inv_fresh hs hrel hopen).1.toCore.primary⟩
  | faults _ hs ih =>
      obtain ⟨log, h⟩ := ih
      exact ⟨log, h.of_eq hs rfl⟩
  | wire l _ ih =>
      obtain ⟨log, h⟩ := ih
      exact ⟨log, h.of_eq rfl rfl⟩
  | call c _ ih =>
      obtain ⟨log, h⟩ := ih
      exact h.steps (c.shaped.moves _)
  | reopen _ hk hs hrel hopen ih =>
      obtain ⟨log, h⟩ := ih
      obtain ⟨n, tail, -, hcut, htorn, -, -⟩ := cut_log h.encodable hk
      obtain ⟨e', hopen', hrec⟩ := openWith_spec (hs.trans (h.contents ▸ hcut))
        (fun m hm => h.encodable m (List.mem_of_mem_take hm)) (h.wf.take n) htorn hrel _
      rw [hopen] at hopen'
      cases hopen'
      exact ⟨_, hrec.core.primary⟩

/-! ## Atomicity -/

/-- The mutation of an operation that makes a single commit. -/
def Op.mutation : Op → Option MutationOp
  | .insertNode node => some (.nodeInsert node)
  | .insertEdge edge => some (.edgeInsert edge)
  | .deleteNode id => some (.nodeDelete id)
  | .deleteEdge id => some (.edgeDelete id)
  | .deleteNodeWithCascade _ => none
  | .applySchema schema => some (.schemaApply schema)

/-- The operation is the delete of something that is not there: it succeeds and does nothing. -/
def Op.Idle (e : Engine σ) : Op → Prop
  | .deleteNode id => e.hasNode id = false
  | .deleteEdge id => e.hasEdge id = false
  | _ => False

/-- A call that returns an error has changed nothing; a call that returns `Ok` had nothing to do, or
its record was appended, published and teed. -/
def Atomic (P : Platform) (log : List Mutation) (e : Engine σ) (op : Op) (m : MutationOp) :
    EStateM.Result EngineError (Engine σ) Unit → Prop
  | .ok _ e' => op.Idle e ∧ e' = e ∨ Done P log e m e'
  | .error _ e' => Unchanged e e'

/-- Dropping the result of a delete leaves the outcome of its commit. -/
theorem discard_commit {x : EngineM σ Bool} {m : MutationOp} {e : Engine σ}
    (hx : x e = (Engine.commit P m >>= fun _ => pure true : EngineM σ Bool) e) :
    (x >>= fun _ => pure () : EngineM σ Unit) e = Engine.commit P m e := by
  cases hcom : Engine.commit P m e with
  | ok a e' =>
      rw [bind_of_ok hcom] at hx
      exact bind_of_ok hx
  | error err e' =>
      rw [bind_of_error hcom] at hx
      exact bind_of_error hx

/-- An operation with a single commit is refused before it, has nothing to do, or is that commit. -/
theorem Op.run_cases {op : Op} {m : MutationOp} (hm : op.mutation = some m) (e : Engine σ) :
    (∃ err, op.run P e = .error err e ∧ ∀ id, m ≠ .edgeDelete id) ∨
      (op.Idle e ∧ op.run P e = .ok () e) ∨ op.run P e = Engine.commit P m e := by
  cases op with
  | insertNode node =>
      cases hm
      rcases insertNode_cases (P := P) node e with ⟨err, hr, -⟩ | hr
      · exact Or.inl ⟨err, hr, by simp⟩
      · exact Or.inr (Or.inr hr)
  | insertEdge edge =>
      cases hm
      rcases insertEdge_cases (P := P) edge e with ⟨err, hr, -⟩ | ⟨-, hr⟩
      · exact Or.inl ⟨err, hr, by simp⟩
      · exact Or.inr (Or.inr hr)
  | deleteNode id =>
      cases hm
      have hget : Engine.deleteNode P id e = _ := bind_of_ok (get_apply e)
      cases hlive : e.hasNode id with
      | false =>
          -- a node that is not there is not deleted a second time
          rw [if_pos (by simp [hlive])] at hget
          exact Or.inr (Or.inl ⟨hlive, bind_of_ok hget⟩)
      | true =>
          rw [if_neg (by simp [hlive])] at hget
          exact Or.inr (Or.inr (discard_commit hget))
  | deleteEdge id =>
      cases hm
      have hget : Engine.deleteEdge P id e = _ := bind_of_ok (get_apply e)
      cases hlive : e.hasEdge id with
      | false =>
          rw [if_pos (by simp [hlive])] at hget
          exact Or.inr (Or.inl ⟨hlive, bind_of_ok hget⟩)
      | true =>
          rw [if_neg (by simp [hlive])] at hget
          exact Or.inr (Or.inr (discard_commit hget))
  | deleteNodeWithCascade id => cases hm
  | applySchema schema =>
      -- a schema is pushed without a check
      cases hm
      exact Or.inr (Or.inr rfl)

/-- A delete that has nothing to do reads nothing. -/
theorem Op.Idle.not_readFails {op : Op} {m : MutationOp} {e : Engine σ} (h : op.Idle e)
    (hm : op.mutation = some m) : ¬ ReadFails P e m := by
  rintro ⟨id, entry, -, -, rfl, hl, -⟩
  cases op with
  | deleteEdge id' =>
      cases hm
      have hlive : e.hasEdge id = true := decide_eq_true (HashMap.mem_of_lookup hl)
      rw [show e.hasEdge id = false from h] at hlive
      cases hlive
  | insertNode node => cases hm
  | insertEdge edge => cases hm
  | deleteNode id' => cases hm
  | deleteNodeWithCascade id' => cases hm
  | applySchema schema => cases hm

/-- Single-commit operations are atomic under storage errors, except for the delete of a live edge
whose record was appended and whose insert record could then not be read. -/
theorem single_commit_atomic_iff {e : Engine σ} (h : FaultyReach P e) :
    ∃ log, contents e.storage = header ++ encodeLog P log ∧
      ∀ (op : Op) (m : MutationOp), op.mutation = some m →
        (Atomic P log e op m (op.run P e) ↔ ¬ ReadFails P e m) := by
  obtain ⟨log, hprim⟩ := h.primary
  refine ⟨log, by simpa [storeImage] using hprim.contents, fun op m hm => ?_⟩
  rcases Op.run_cases (P := P) hm e with ⟨err, hr, hne⟩ | ⟨hidle, hr⟩ | hr
  · rw [hr]
    refine iff_of_true ⟨rfl, rfl, rfl⟩ ?_
    rintro ⟨id, -, -, -, rfl, -⟩
    exact hne id rfl
  · rw [hr]
    exact iff_of_true (Or.inl ⟨hidle, rfl⟩) (hidle.not_readFails hm)
  · rw [hr]
    rcases hprim.commit m with ⟨err, e', hcom, hfail, hno⟩ | ⟨e', hcom, hdone, hno⟩ |
      ⟨err, e', id, hcom, rfl, hhalf, hfails⟩
    · rw [hcom]
      exact iff_of_true ⟨hfail.contents, hfail.indexes, hfail.mutationLog⟩ hno
    · rw [hcom]
      exact iff_of_true (Or.inr hdone) hno
    · rw [hcom]
      refine iff_of_false (fun hun => ?_) (not_not_intro hfails)
      -- the frame of the delete is in the store
      have hc : LawfulStorage.contents e'.storage = LawfulStorage.contents e.storage := hun.contents
      rw [hhalf.contents] at hc
      have h4 := hhalf.encodable.four_le
      have hnil := List.append_right_eq_self.1 hc
      rw [hnil] at h4
      simp at h4

/-- An engine on a new file with a node, an edge from it to itself, and a wired log; the coming
reads of the file end as told. -/
def loopOnFile (reads : List Bool) : Engine FileStorage :=
  let e := Call.runAll bincode
    [.op (.insertNode (Node.new "a" "N")), .op (.insertEdge (Edge.new "x" "L" "a" "a"))]
    ((Engine.blank ⟨"u", "d"⟩ (FileStorage.fresh "store" IoPlan.noFaults)).withMutationLog
      MutationLog.new)
  { e with storage := { e.storage with plan := ⟨[], reads, []⟩ } }

theorem faultyReach_loopOnFile (reads : List Bool) : FaultyReach bincode (loopOnFile reads) :=
  FaultyReach.faults (Call.runAll_induction (fun c _ h => FaultyReach.call c h) _
    (FaultyReach.wire _
      (FaultyReach.fresh (s := FileStorage.fresh "store" IoPlan.noFaults) rfl ⟨rfl, rfl⟩ rfl))) rfl

/-- The insert of a node reads nothing, so it is atomic also when the reads fail. -/
theorem insert_atomic_under_read_failure :
    ∃ log, Atomic bincode log (loopOnFile [false]) (.insertNode (Node.new "b" "N"))
      (.nodeInsert (Node.new "b" "N"))
      ((Op.insertNode (Node.new "b" "N")).run bincode (loopOnFile [false])) := by
  obtain ⟨log, -, h⟩ := single_commit_atomic_iff (faultyReach_loopOnFile [false])
  refine ⟨log, (h _ _ rfl).2 ?_⟩
  rintro ⟨id, -, -, -, hid, -⟩
  cases hid

/-- The delete of the edge, with a read that fails after the append: the call returns an error, but
the store has the record of the delete, the edge is gone from the primary index and still in the
index by label, and the log was not told. -/
theorem delete_edge_not_atomic :
    FaultyReach bincode (loopOnFile [false]) ∧
      ∃ err e', (Op.deleteEdge "x").run bincode (loopOnFile [false]) = .error err e' ∧
        contents e'.storage ≠ contents (loopOnFile [false]).storage ∧
        e'.hasEdge "x" = false ∧ e'.edgeIdsForLabel "L" = ["x"] ∧
        e'.mutationLog = (loopOnFile [false]).mutationLog := by
  refine ⟨faultyReach_loopOnFile [false], ?_⟩
  have hfail : (match (Op.deleteEdge "x").run bincode (loopOnFile [false]) with
      | .ok _ _ => false
      | .error _ _ => true) = true := by decide +kernel
  have hstate : let e' := finalState ((Op.deleteEdge "x").run bincode (loopOnFile [false]))
      FileStorage.contents e'.storage ≠ FileStorage.contents (loopOnFile [false]).storage ∧
        e'.hasEdge "x" = false ∧ e'.edgeIdsForLabel "L" = ["x"] ∧
        e'.mutationLog = (loopOnFile [false]).mutationLog := by decide +kernel
  cases hr : (Op.deleteEdge "x").run bincode (loopOnFile [false]) with
  | ok a e' =>
      rw [hr] at hfail
      cases hfail
  | error err e' =>
      rw [hr] at hstate
      exact ⟨err, e', rfl, hstate⟩

end Morceau
