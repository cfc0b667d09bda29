import Morceau.Engine
import Morceau.PropertyGraph

/-!
# What the indexes are a function of

The index part of an engine is determined by the log: `replay` folds the log over the empty indexes
and the empty graph, giving each record the offset at which its frame stands. `Consistent` relates
the three: every index entry points at the frame of the insert that the graph holds under that id,
and each secondary index is the inverse of the graph's edges along a label or an endpoint.

`consistent_replay` proves it of every well-formed log, by induction from the right, one record at a
time (`Consistent.publish`).
-/

set_option autoImplicit false

namespace Morceau

open Lib

/-- The index part of an engine. -/
structure Indexes where
  nodeIndex : HashMap String IndexEntry
  edgeIndex : HashMap String IndexEntry
  edgeByLabel : HashMap String (HashSet String)
  edgesByFrom : HashMap String (HashSet String)
  edgesByTo : HashMap String (HashSet String)
  currentSchema : Option Schema

/-- The index part of an engine state. -/
def Engine.indexes {σ : Type} (e : Engine σ) : Indexes :=
  { nodeIndex := e.nodeIndex
    edgeIndex := e.edgeIndex
    edgeByLabel := e.edgeByLabel
    edgesByFrom := e.edgesByFrom
    edgesByTo := e.edgesByTo
    currentSchema := e.currentSchema }

/-- An engine state with its index part replaced. -/
def Engine.withIndexes {σ : Type} (e : Engine σ) (ix : Indexes) : Engine σ :=
  { e with
    nodeIndex := ix.nodeIndex
    edgeIndex := ix.edgeIndex
    edgeByLabel := ix.edgeByLabel
    edgesByFrom := ix.edgesByFrom
    edgesByTo := ix.edgesByTo
    currentSchema := ix.currentSchema }

namespace Indexes

/-- The indexes of an empty log. -/
def empty : Indexes := ⟨∅, ∅, ∅, ∅, ∅, none⟩

/-- The indexes without the edge `d`, known under `id`. -/
def removeEdge (id : String) (d : Edge) (ix : Indexes) : Indexes :=
  { ix with
    edgeIndex := ix.edgeIndex.erase id
    edgeByLabel := Buckets.drop ix.edgeByLabel d.label id
    edgesByFrom := Buckets.drop ix.edgesByFrom d.fromId id
    edgesByTo := Buckets.drop ix.edgesByTo d.toId id }

/-- The indexes after a record at `entry` was published into the graph `g`. An edge delete takes the
label and the endpoints of the edge from the graph. -/
def publish (g : PropertyGraph) (op : MutationOp) (entry : IndexEntry) (ix : Indexes) : Indexes :=
  match op with
  | .nodeInsert n => { ix with nodeIndex := ix.nodeIndex.insert n.id entry }
  | .edgeInsert d =>
      { ix with
        edgeIndex := ix.edgeIndex.insert d.id entry
        edgeByLabel := Buckets.add ix.edgeByLabel d.label d.id
        edgesByFrom := Buckets.add ix.edgesByFrom d.fromId d.id
        edgesByTo := Buckets.add ix.edgesByTo d.toId d.id }
  | .nodeDelete id => { ix with nodeIndex := ix.nodeIndex.erase id }
  | .edgeDelete id =>
      match g.edges.lookup id with
      | none => ix
      | some d => ix.removeEdge id d
  | .schemaApply s => { ix with currentSchema := some s }

end Indexes

/-! ## Replaying a log -/

/-- The sequence counter after a record was replayed. -/
def seqStep (next : UInt64) (m : Mutation) : UInt64 :=
  if next ≤ m.localSeq then m.localSeq + 1 else next

/-- The sequence counter after a log was replayed. -/
def replaySeq (log : List Mutation) : UInt64 := log.foldl seqStep 1

/-- The index entry of a record that is appended after `log`. -/
def entryAfter (P : Platform) (log : List Mutation) (m : Mutation) : IndexEntry :=
  { offset := headerLen + (encodeLog P log).length
    payloadLen := (P.frameOf m).length - lenPrefixBytes
    foreshadow := m.foreshadow }

/-- State of a replay: the records so far and the indexes they leave. -/
structure Replica where
  log : List Mutation
  ix : Indexes

/-- Replay one record. -/
def Replica.step (P : Platform) (r : Replica) (m : Mutation) : Replica :=
  { log := r.log ++ [m]
    ix := r.ix.publish (PropertyGraph.ofLog r.log) m.op (entryAfter P r.log m) }

/-- The indexes a log leaves. -/
def replay (P : Platform) (log : List Mutation) : Indexes :=
  (log.foldl (Replica.step P) ⟨[], Indexes.empty⟩).ix

section Replay

variable {P : Platform}

theorem foldl_step_log (r : Replica) (log : List Mutation) :
    (log.foldl (Replica.step P) r).log = r.log ++ log := by
  induction log generalizing r with
  | nil => simp
  | cons m log ih =>
      rw [List.foldl_cons, ih]
      simp [Replica.step]

@[simp] theorem replay_nil : replay P [] = Indexes.empty := rfl

@[simp] theorem replay_snoc (log : List Mutation) (m : Mutation) :
    replay P (log ++ [m]) =
      (replay P log).publish (PropertyGraph.ofLog log) m.op (entryAfter P log m) := by
  rw [replay, List.foldl_append, List.foldl_cons, List.foldl_nil, Replica.step, foldl_step_log]
  rfl

@[simp] theorem replaySeq_nil : replaySeq [] = 1 := rfl

@[simp] theorem replaySeq_snoc (log : List Mutation) (m : Mutation) :
    replaySeq (log ++ [m]) = seqStep (replaySeq log) m := by
  simp [replaySeq]

end Replay

/-! ## Entries point at their records -/

/-- `entry` is the place of a record with operation `op` in the log. -/
def Located (P : Platform) (log : List Mutation) (entry : IndexEntry) (op : MutationOp) : Prop :=
  ∃ pre m post, log = pre ++ m :: post ∧ entry = entryAfter P pre m ∧ m.op = op

theorem Located.append {P : Platform} {log : List Mutation} {entry : IndexEntry} {op : MutationOp}
    (h : Located P log entry op) (log' : List Mutation) : Located P (log ++ log') entry op := by
  obtain ⟨pre, m, post, rfl, hentry, hop⟩ := h
  exact ⟨pre, m, post ++ log', by simp, hentry, hop⟩

theorem located_snoc (P : Platform) (log : List Mutation) (m : Mutation) :
    Located P (log ++ [m]) (entryAfter P log m) m.op :=
  ⟨log, m, [], rfl, rfl, rfl⟩

/-- A primary index has an entry exactly for the ids of `base`, and each entry is the place of the
insert (`mk`) of what `base` holds there. -/
structure Points {β : Type} (P : Platform) (log : List Mutation) (mk : β → MutationOp)
    (idOf : β → String) (base : Finmap fun _ : String => β) (ix : HashMap String IndexEntry) :
    Prop where
  of_some : ∀ {id entry}, ix.lookup id = some entry →
    ∃ b, base.lookup id = some b ∧ idOf b = id ∧ Located P log entry (mk b)
  of_none : ∀ {id}, ix.lookup id = none → base.lookup id = none

namespace Points

variable {β : Type} {P : Platform} {log : List Mutation} {mk : β → MutationOp} {idOf : β → String}
  {base : Finmap fun _ : String => β} {ix : HashMap String IndexEntry}

theorem empty : Points P log mk idOf ∅ ∅ where
  of_some h := by simp at h
  of_none _ := Finmap.lookup_empty _

theorem append (h : Points P log mk idOf base ix) (log' : List Mutation) :
    Points P (log ++ log') mk idOf base ix where
  of_some hl := by
    obtain ⟨b, hb, hid, hat⟩ := h.of_some hl
    exact ⟨b, hb, hid, hat.append log'⟩
  of_none := h.of_none

/-- An insert points at the record that makes it. -/
theorem insert (h : Points P log mk idOf base ix) {entry : IndexEntry} {b : β}
    (hat : Located P log entry (mk b)) :
    Points P log mk idOf (base.insert (idOf b) b) (ix.insert (idOf b) entry) where
  of_some {id entry'} hl := by
    by_cases hid : id = idOf b
    · subst hid
      rw [AList.lookup_insert, Option.some.injEq] at hl
      subst hl
      exact ⟨b, Finmap.lookup_insert _, rfl, hat⟩
    · rw [AList.lookup_insert_ne hid] at hl
      obtain ⟨b', hb', hid', hat'⟩ := h.of_some hl
      exact ⟨b', by rw [← hb']; exact Finmap.lookup_insert_of_ne _ hid, hid', hat'⟩
  of_none {id} hl := by
    by_cases hid : id = idOf b
    · subst hid
      simp at hl
    · rw [AList.lookup_insert_ne hid] at hl
      rw [← h.of_none hl]
      exact Finmap.lookup_insert_of_ne _ hid

theorem erase (h : Points P log mk idOf base ix) (id0 : String) :
    Points P log mk idOf (base.erase id0) (ix.erase id0) where
  of_some {id entry} hl := by
    by_cases hid : id = id0
    · subst hid
      simp at hl
    · rw [AList.lookup_erase_ne hid] at hl
      obtain ⟨b, hb, hid', hat⟩ := h.of_some hl
      exact ⟨b, by rw [← hb]; exact Finmap.lookup_erase_ne hid, hid', hat⟩
  of_none {id} hl := by
    by_cases hid : id = id0
    · subst hid
      exact Finmap.lookup_erase _ _
    · rw [AList.lookup_erase_ne hid] at hl
      rw [← h.of_none hl]
      exact Finmap.lookup_erase_ne hid

end Points

/-- The indexes describe the graph, and their entries point into the log. -/
structure Consistent (P : Platform) (log : List Mutation) (g : PropertyGraph) (ix : Indexes) :
    Prop where
  nodes : Points P log MutationOp.nodeInsert Node.id g.nodes ix.nodeIndex
  edges : Points P log MutationOp.edgeInsert Edge.id g.edges ix.edgeIndex
  byLabel : Inverts Edge.label (fun id => g.edges.lookup id) ix.edgeByLabel
  byFrom : Inverts Edge.fromId (fun id => g.edges.lookup id) ix.edgesByFrom
  byTo : Inverts Edge.toId (fun id => g.edges.lookup id) ix.edgesByTo
  schema : ix.currentSchema = g.schema

theorem consistent_empty (P : Platform) : Consistent P [] PropertyGraph.empty Indexes.empty where
  nodes := Points.empty
  edges := Points.empty
  byLabel := by simpa [PropertyGraph.empty, Indexes.empty] using Inverts.empty
  byFrom := by simpa [PropertyGraph.empty, Indexes.empty] using Inverts.empty
  byTo := by simpa [PropertyGraph.empty, Indexes.empty] using Inverts.empty
  schema := rfl

/-- Deleting an edge id that is not live does not change the edges. -/
theorem erase_edges_of_none {g : PropertyGraph} {id : String} (h : g.edges.lookup id = none) :
    g.edges.erase id = g.edges := by
  refine Finmap.ext_lookup fun i => ?_
  by_cases hi : i = id
  · subst hi
    rw [h]
    exact Finmap.lookup_erase _ _
  · exact Finmap.lookup_erase_ne hi

/-- Publishing a record keeps the primary indexes on the graph. -/
theorem points_publish {P : Platform} {log : List Mutation} {g : PropertyGraph} {ix : Indexes}
    (hn : Points P log MutationOp.nodeInsert Node.id g.nodes ix.nodeIndex)
    (he : Points P log MutationOp.edgeInsert Edge.id g.edges ix.edgeIndex) (m : Mutation) :
    Points P (log ++ [m]) MutationOp.nodeInsert Node.id (g.apply m.op).nodes
        (ix.publish g m.op (entryAfter P log m)).nodeIndex ∧
      Points P (log ++ [m]) MutationOp.edgeInsert Edge.id (g.apply m.op).edges
        (ix.publish g m.op (entryAfter P log m)).edgeIndex := by
  have hloc := located_snoc P log m
  -- what an operation does not touch is read in the longer log
  have hnodes := hn.append [m]
  have hedges := he.append [m]
  cases hop : m.op with
  | nodeInsert n =>
      rw [hop] at hloc
      exact ⟨hnodes.insert hloc, hedges⟩
  | edgeInsert d =>
      rw [hop] at hloc
      exact ⟨hnodes, hedges.insert hloc⟩
  | nodeDelete id => exact ⟨hnodes.erase id, hedges⟩
  | edgeDelete id =>
      cases hd : g.edges.lookup id with
      | none =>
          simp only [Indexes.publish, hd, PropertyGraph.apply, erase_edges_of_none hd]
          exact ⟨hnodes, hedges⟩
      | some d =>
          simp only [Indexes.publish, hd]
          exact ⟨hnodes, hedges.erase id⟩
  | schemaApply s => exact ⟨hnodes, hedges⟩

/-- Publishing an admissible record keeps the indexes consistent. -/
theorem Consistent.publish {P : Platform} {log : List Mutation} {g : PropertyGraph} {ix : Indexes}
    (h : Consistent P log g ix) {m : Mutation} (hm : g.Admissible m.op) :
    Consistent P (log ++ [m]) (g.apply m.op) (ix.publish g m.op (entryAfter P log m)) := by
  obtain ⟨hnodes, hedges⟩ := points_publish h.nodes h.edges m
  -- the secondary indexes change with the edges only
  cases hop : m.op with
  | nodeInsert n =>
      rw [hop] at hnodes hedges
      exact ⟨hnodes, hedges, h.byLabel, h.byFrom, h.byTo, h.schema⟩
  | edgeInsert d =>
      rw [hop] at hnodes hedges hm
      have hfresh : g.edges.lookup d.id = none := hm
      refine ⟨hnodes, hedges, ?_, ?_, ?_, h.schema⟩
      · rw [PropertyGraph.apply, lookup_insert_eq_update]
        exact h.byLabel.insert hfresh d
      · rw [PropertyGraph.apply, lookup_insert_eq_update]
        exact h.byFrom.insert hfresh d
      · rw [PropertyGraph.apply, lookup_insert_eq_update]
        exact h.byTo.insert hfresh d
  | nodeDelete id =>
      rw [hop] at hnodes hedges
      exact ⟨hnodes, hedges, h.byLabel, h.byFrom, h.byTo, h.schema⟩
  | edgeDelete id =>
      rw [hop] at hnodes hedges
      cases hd : g.edges.lookup id with
      | none =>
          simp only [Indexes.publish, hd, PropertyGraph.apply, erase_edges_of_none hd]
            at hnodes hedges ⊢
          exact ⟨hnodes, hedges, h.byLabel, h.byFrom, h.byTo, h.schema⟩
      | some d =>
          simp only [Indexes.publish, hd] at hnodes hedges ⊢
          refine ⟨hnodes, hedges, ?_, ?_, ?_, h.schema⟩
          · rw [PropertyGraph.apply, lookup_erase_eq_update]
            exact h.byLabel.erase hd
          · rw [PropertyGraph.apply, lookup_erase_eq_update]
            exact h.byFrom.erase hd
          · rw [PropertyGraph.apply, lookup_erase_eq_update]
            exact h.byTo.erase hd
  | schemaApply s =>
      rw [hop] at hnodes hedges
      exact ⟨hnodes, hedges, h.byLabel, h.byFrom, h.byTo, rfl⟩

/-- The indexes that a well-formed log leaves describe the graph of the log. -/
theorem consistent_replay {P : Platform} {log : List Mutation} (h : WfLog log) :
    Consistent P log (PropertyGraph.ofLog log) (replay P log) := by
  induction log using List.reverseRecOn with
  | nil => exact consistent_empty P
  | append_singleton log m ih =>
      obtain ⟨hlog, hm⟩ := wfLog_snoc.1 h
      rw [replay_snoc, PropertyGraph.ofLog_snoc]
      exact (ih hlog).publish hm

end Morceau
