import Morceau.BadTails
import Morceau.ForeignLogs

/-!
# Opening any store

`Engine::recover` meets bytes that nobody vouches for: the file may come from another version of the
program, from another device, or from a disk that lost part of it. This file says what
`Engine::open_with` does on a reliable backend whatever the bytes are.

Past the header, any bytes are whole frames followed by a torn tail, or whole frames followed by a
complete frame that does not decode (`exists_frames`). In the first case the open succeeds, cuts
the tail off, and serves the graph of the decoded records; opening what it left gives the same
engine again. In the second case it fails, at the offset of that frame (`open_of_any_bytes`).

The records were not necessarily written by this engine: a payload may be an encoding that it would
not produce, and the inserts need not respect the rules of the graph. So the entries are placed by
the bytes that were read (`Placed`), not by encoding the records again.
-/

set_option autoImplicit false

namespace Morceau

open Lib LawfulStorage

/-! ## Frames -/

/-- A frame together with the record that it decodes to. -/
structure Frame (P : Platform) where
  bytes : Bytes
  record : Mutation
  decodes : decodeFramed P bytes = .ok (some (record, bytes.length))

variable {P : Platform}

/-- The bytes of a sequence of frames. -/
def frameBytes (fs : List (Frame P)) : Bytes := fs.flatMap Frame.bytes

/-- The records of a sequence of frames. -/
def records (fs : List (Frame P)) : List Mutation := fs.map Frame.record

namespace Frame

theorem four_le (f : Frame P) : 4 ≤ f.bytes.length := (length_of_decodeFramed f.decodes).1

theorem length_eq (f : Frame P) : f.bytes.length = lenPrefixBytes + fromLe32 f.bytes :=
  (length_of_decodeFramed f.decodes).2

end Frame

/-- The bytes at the entry decode to a record with the operation. -/
def Placed (P : Platform) (bytes : Bytes) (entry : IndexEntry) (op : MutationOp) : Prop :=
  entry.offset + (lenPrefixBytes + entry.payloadLen) ≤ bytes.length ∧
    ∃ m n, decodeFramed P (slice entry.offset (lenPrefixBytes + entry.payloadLen) bytes) =
      .ok (some (m, n)) ∧ m.op = op

theorem Placed.append {bytes : Bytes} {entry : IndexEntry} {op : MutationOp}
    (h : Placed P bytes entry op) (more : Bytes) : Placed P (bytes ++ more) entry op := by
  obtain ⟨hle, m, n, hdec, hop⟩ := h
  refine ⟨?_, m, n, ?_, hop⟩
  · rw [List.length_append]
    omega
  · rw [slice, List.drop_append_of_le_length (by omega), List.take_append_of_le_length]
    · exact hdec
    · rw [List.length_drop]
      omega

/-- The entry of a frame that stands after `pre`. -/
def Frame.entryAt (pre : Bytes) (f : Frame P) : IndexEntry :=
  { offset := pre.length
    payloadLen := f.bytes.length - lenPrefixBytes
    foreshadow := f.record.foreshadow }

theorem Frame.placed (pre : Bytes) (f : Frame P) :
    Placed P (pre ++ f.bytes) (f.entryAt pre) f.record.op := by
  have h4 := f.four_le
  have hlen : lenPrefixBytes + (f.entryAt pre).payloadLen = f.bytes.length := by
    simp only [entryAt, lenPrefixBytes]
    omega
  refine ⟨?_, f.record, f.bytes.length, ?_, rfl⟩
  · rw [hlen, List.length_append]
    exact Nat.le_refl _
  · rw [hlen]
    have hmid := slice_append_middle pre f.bytes []
    rw [List.append_nil] at hmid
    rw [show (f.entryAt pre).offset = pre.length from rfl, hmid]
    exact f.decodes

/-- A primary index over the places where records stand: it has the ids of `base`, and its entries
are places of the inserts (`mk`) of what `base` holds. -/
structure PlacesMap {β : Type} (At : IndexEntry → MutationOp → Prop) (mk : β → MutationOp)
    (base : Finmap fun _ : String => β) (ix : HashMap String IndexEntry) : Prop where
  of_some : ∀ {id entry}, ix.lookup id = some entry →
    ∃ b, base.lookup id = some b ∧ At entry (mk b)
  of_none : ∀ {id}, ix.lookup id = none → base.lookup id = none

namespace PlacesMap

variable {β : Type} {At At' : IndexEntry → MutationOp → Prop} {mk : β → MutationOp}
  {base : Finmap fun _ : String => β} {ix : HashMap String IndexEntry}

theorem empty : PlacesMap At mk ∅ ∅ where
  of_some h := by simp at h
  of_none _ := Finmap.lookup_empty _

theorem mono (h : PlacesMap At mk base ix) (hat : ∀ {entry op}, At entry op → At' entry op) :
    PlacesMap At' mk base ix where
  of_some hl := by
    obtain ⟨b, hb, hentry⟩ := h.of_some hl
    exact ⟨b, hb, hat hentry⟩
  of_none := h.of_none

theorem insert (h : PlacesMap At mk base ix) {entry : IndexEntry} {b : β} (id : String)
    (hat : At entry (mk b)) : PlacesMap At mk (base.insert id b) (ix.insert id entry) where
  of_some {id' entry'} hl := by
    by_cases hid : id' = id
    · subst hid
      rw [AList.lookup_insert, Option.some.injEq] at hl
      subst hl
      exact ⟨b, Finmap.lookup_insert _, hat⟩
    · rw [AList.lookup_insert_ne hid] at hl
      rw [Finmap.lookup_insert_of_ne _ hid]
      exact h.of_some hl
  of_none {id'} hl := by
    by_cases hid : id' = id
    · subst hid
      simp at hl
    · rw [AList.lookup_insert_ne hid] at hl
      rw [Finmap.lookup_insert_of_ne _ hid]
      exact h.of_none hl

theorem erase (h : PlacesMap At mk base ix) (id : String) :
    PlacesMap At mk (base.erase id) (ix.erase id) where
  of_some {id' entry} hl := by
    by_cases hid : id' = id
    · subst hid
      simp at hl
    · rw [AList.lookup_erase_ne hid] at hl
      rw [Finmap.lookup_erase_ne hid]
      exact h.of_some hl
  of_none {id'} hl := by
    by_cases hid : id' = id
    · subst hid
      exact Finmap.lookup_erase _ _
    · rw [AList.lookup_erase_ne hid] at hl
      rw [Finmap.lookup_erase_ne hid]
      exact h.of_none hl

end PlacesMap

/-- State of a scan: the bytes read, and the graph and the indexes of their records. -/
structure Scan where
  bytes : Bytes
  graph : PropertyGraph
  ix : Indexes

/-- Scan one frame. -/
def Scan.step (r : Scan) (f : Frame P) : Scan :=
  { bytes := r.bytes ++ f.bytes
    graph := r.graph.apply f.record.op
    ix := r.ix.publish r.graph f.record.op (f.entryAt r.bytes) }

/-- Scan frames that stand after a header. -/
def scan (hd : Bytes) (fs : List (Frame P)) : Scan :=
  fs.foldl Scan.step ⟨hd, PropertyGraph.empty, Indexes.empty⟩

theorem scan_snoc (hd : Bytes) (fs : List (Frame P)) (f : Frame P) :
    scan hd (fs ++ [f]) = (scan hd fs).step f := by
  rw [scan, List.foldl_append]
  rfl

theorem scan_bytes (hd : Bytes) (fs : List (Frame P)) :
    (scan hd fs).bytes = hd ++ frameBytes fs := by
  induction fs using List.reverseRecOn with
  | nil => exact (List.append_nil hd).symm
  | append_singleton fs f ih =>
      rw [scan_snoc, Scan.step, ih, frameBytes, frameBytes, List.flatMap_append, List.append_assoc,
        List.flatMap_singleton]

theorem scan_graph (hd : Bytes) (fs : List (Frame P)) :
    (scan hd fs).graph = PropertyGraph.ofLog (records fs) := by
  induction fs using List.reverseRecOn with
  | nil => rfl
  | append_singleton fs f ih =>
      rw [scan_snoc, Scan.step, ih, records, records, List.map_append, List.map_singleton,
        PropertyGraph.ofLog_snoc]

/-- The indexes describe the graph. Nothing is said of the secondary indexes: a foreign log may
insert an edge again under another label, and then they keep the old one as well. -/
structure Scan.Sound (P : Platform) (r : Scan) : Prop where
  nodes : PlacesMap (Placed P r.bytes) MutationOp.nodeInsert r.graph.nodes r.ix.nodeIndex
  edges : PlacesMap (Placed P r.bytes) MutationOp.edgeInsert r.graph.edges r.ix.edgeIndex
  schema : r.ix.currentSchema = r.graph.schema

/-- Scanning a frame keeps the indexes on the graph. -/
theorem Scan.Sound.step {r : Scan} (h : r.Sound P) (f : Frame P) : (r.step f).Sound P := by
  have hplaced := f.placed r.bytes
  -- what an operation does not touch is found in the longer store
  have hnodes : PlacesMap (Placed P (r.bytes ++ f.bytes)) MutationOp.nodeInsert r.graph.nodes
      r.ix.nodeIndex := h.nodes.mono fun hat => hat.append f.bytes
  have hedges : PlacesMap (Placed P (r.bytes ++ f.bytes)) MutationOp.edgeInsert r.graph.edges
      r.ix.edgeIndex := h.edges.mono fun hat => hat.append f.bytes
  unfold Scan.step
  cases hop : f.record.op with
  | nodeInsert n => exact ⟨hnodes.insert n.id (hop ▸ hplaced), hedges, h.schema⟩
  | edgeInsert d => exact ⟨hnodes, hedges.insert d.id (hop ▸ hplaced), h.schema⟩
  | nodeDelete id => exact ⟨hnodes.erase id, hedges, h.schema⟩
  | schemaApply s => exact ⟨hnodes, hedges, rfl⟩
  | edgeDelete id =>
      cases hl : r.graph.edges.lookup id with
      | none =>
          have hsame : r.graph.apply (.edgeDelete id) = r.graph := by
            rw [PropertyGraph.apply, erase_edges_of_none hl]
          rw [hsame]
          simp only [Indexes.publish, hl]
          exact ⟨hnodes, hedges, h.schema⟩
      | some d =>
          simp only [Indexes.publish, hl]
          exact ⟨hnodes, hedges.erase id, h.schema⟩

theorem sound_scan (hd : Bytes) (fs : List (Frame P)) : (scan hd fs).Sound P := by
  induction fs using List.reverseRecOn with
  | nil => exact ⟨PlacesMap.empty, PlacesMap.empty, rfl⟩
  | append_singleton fs f ih =>
      rw [scan_snoc]
      exact ih.step f

/-! ## Reading the store -/

variable {σ : Type} [LawfulStorage σ]

/-- A placed record is read back, now and after any reads. -/
theorem Placed.readsBack {e : Engine σ} {entry : IndexEntry} {op : MutationOp}
    (h : Placed P (contents e.storage) entry op) (hrel : Reliable e.storage) :
    ReadsBack P e entry op := by
  intro e₁ hq
  obtain ⟨hle, m, n, hdec, rfl⟩ := h
  rw [← hq.contents] at hle hdec
  obtain ⟨bs, s', hread⟩ := readAt_reliable (hq.reliable hrel) hle
  obtain ⟨-, -, hbs⟩ := readAt_ok hread
  have hok : Engine.readOpAt P entry e₁ = .ok (some m.op) { e₁ with storage := s' } := by
    rw [Engine.readOpAt, bind_of_ok (Engine.liftStorage_of_ok hread), hbs hle, hdec]
    rfl
  exact ⟨_, hok, (Engine.quiet_readOpAt entry).ok hok⟩

/-- An index of placed records serves its map. -/
theorem PlacesMap.backs {β : Type} {mk : β → MutationOp} {base : Finmap fun _ : String => β}
    {ix : HashMap String IndexEntry} {e : Engine σ}
    (h : PlacesMap (Placed P (contents e.storage)) mk base ix) (hrel : Reliable e.storage) :
    BacksMap P e mk base ix where
  of_some hl := by
    obtain ⟨b, hb, hat⟩ := h.of_some hl
    exact ⟨b, hb, hat.readsBack hrel⟩
  of_none := h.of_none

/-- The delete of a live edge whose record is read back drops it from the four edge indexes. -/
theorem updateIndexesFor_edgeDelete_placed {e : Engine σ} {id : String} {entry : IndexEntry}
    {d : Edge} (hl : e.edgeIndex.lookup id = some entry)
    (hat : Placed P (contents e.storage) entry (.edgeInsert d)) (hrel : Reliable e.storage)
    (off len : Nat) (fs : Bool) :
    ∃ e', Engine.updateIndexesFor P (.edgeDelete id) off len fs e = .ok () e' ∧
      Quiet (e.withIndexes (e.indexes.removeEdge id d)) e' := by
  have hstep : Engine.updateIndexesFor P (.edgeDelete id) off len fs e =
      Engine.removeEdgeFromIndexes P id entry
        { e with edgeIndex := e.edgeIndex.erase id } := by
    simp only [Engine.updateIndexesFor]
    rw [bind_of_ok (get_apply e), hl]
    exact bind_of_ok (set_apply _ _)
  have hread : ReadsBack P { e with edgeIndex := e.edgeIndex.erase id } entry (.edgeInsert d) :=
    Placed.readsBack hat hrel
  obtain ⟨e', hok, hq⟩ := hread _ (Quiet.refl _)
  rw [hstep, Engine.removeEdgeFromIndexes, bind_of_ok hok]
  refine ⟨_, rfl, ?_, hq.reads⟩
  rw [hq.rest]
  rfl

/-! ## The replay loop -/

/-- State of the replay loop: the frames are applied and `more` is still to be read. -/
structure Scanning (P : Platform) (actor : ActorId) (hd : Bytes) (e : Engine σ)
    (fs : List (Frame P)) (more : Bytes) : Prop where
  contents : LawfulStorage.contents e.storage = (scan hd fs).bytes ++ more
  indexes : e.indexes = (scan hd fs).ix
  nextLocalSeq : e.nextLocalSeq = replaySeq (records fs)
  reliable : Reliable e.storage
  actor : e.actor = actor
  mutationLog : e.mutationLog = none

namespace Scanning

variable {actor : ActorId} {hd more : Bytes} {e : Engine σ} {fs : List (Frame P)}

theorem quiet {e' : Engine σ} (h : Scanning P actor hd e fs more) (hq : Quiet e e') :
    Scanning P actor hd e' fs more where
  contents := hq.contents.trans h.contents
  indexes := hq.indexes.trans h.indexes
  nextLocalSeq := hq.nextLocalSeq.trans h.nextLocalSeq
  reliable := hq.reliable h.reliable
  actor := hq.actor.trans h.actor
  mutationLog := hq.mutationLog.trans h.mutationLog

/-- Truncating to the last good offset leaves the header and the frames. -/
theorem truncate (h : Scanning P actor hd e fs more) (hhd : hd.length = headerLen) :
    ∃ e', Engine.liftStorage (Storage.truncate (scan hd fs).bytes.length) e = .ok () e' ∧
      Scanning P actor hd e' fs [] := by
  have hle : (scan hd fs).bytes.length ≤ (LawfulStorage.contents e.storage).length := by
    rw [h.contents, List.length_append]
    exact Nat.le_add_right _ _
  have hheader : headerLen ≤ (scan hd fs).bytes.length := by
    rw [scan_bytes, List.length_append, hhd]
    exact Nat.le_add_right _ _
  obtain ⟨s', htr⟩ := truncate_reliable h.reliable hheader hle
  obtain ⟨hcs, hrel⟩ := truncate_ok htr hle
  refine ⟨_, Engine.liftStorage_of_ok htr, ?_, h.indexes, h.nextLocalSeq, hrel h.reliable,
    h.actor, h.mutationLog⟩
  show LawfulStorage.contents s' = _
  rw [hcs, h.contents, List.take_left, List.append_nil]

/-- Publishing a record at any place: the indexes change as the scan says. -/
theorem publish (h : Scanning P actor hd e fs more) (op : MutationOp) (entry : IndexEntry) :
    ∃ e', Engine.updateIndexesFor P op entry.offset entry.payloadLen entry.foreshadow e =
        .ok () e' ∧
      Quiet (e.withIndexes (e.indexes.publish (scan hd fs).graph op entry)) e' := by
  by_cases hop : ∃ id, op = .edgeDelete id
  · obtain ⟨id, rfl⟩ := hop
    have hedges := (sound_scan hd fs).edges
    rw [← congrArg Indexes.edgeIndex h.indexes] at hedges
    cases hl : e.edgeIndex.lookup id with
    | none =>
        refine ⟨e, updateIndexesFor_edgeDelete_dead hl _ _ _, ?_⟩
        simp only [Indexes.publish, hedges.of_none hl]
        exact Quiet.refl e
    | some live =>
        obtain ⟨d, hlookup, hat⟩ := hedges.of_some hl
        have hplaced : Placed P (LawfulStorage.contents e.storage) live (.edgeInsert d) := by
          rw [h.contents]
          exact hat.append more
        simp only [Indexes.publish, hlookup]
        exact updateIndexesFor_edgeDelete_placed hl hplaced h.reliable _ _ _
  · have hne : ∀ id, op ≠ .edgeDelete id := fun id heq => hop ⟨id, heq⟩
    exact ⟨_, updateIndexesFor_of_ne_edgeDelete e (scan hd fs).graph hne _ _ _, Quiet.refl _⟩

/-- Applying the next frame. -/
theorem apply {f : Frame P} (h : Scanning P actor hd e fs (f.bytes ++ more)) :
    ∃ e', Engine.applyRecovered P f.record (scan hd fs).bytes.length
          (f.bytes.length - lenPrefixBytes) e = .ok () e' ∧
      Scanning P actor hd (seenSeq f.record e') (fs ++ [f]) more := by
  obtain ⟨e', hupd, hq⟩ := h.publish f.record.op (f.entryAt (scan hd fs).bytes)
  have hseq : e'.nextLocalSeq = replaySeq (records fs) := hq.nextLocalSeq.trans h.nextLocalSeq
  have hsnoc : records (fs ++ [f]) = records fs ++ [f.record] := by
    rw [records, List.map_append, List.map_singleton]
    rfl
  have hseen : seenSeq f.record e' =
      { e' with nextLocalSeq := replaySeq (records (fs ++ [f])) } := by
    rw [seenSeq, hsnoc, replaySeq_snoc, seqStep, ← hseq]
    split
    · rfl
    · rfl
  refine ⟨e', hupd, ?_⟩
  rw [hseen]
  refine ⟨?_, ?_, rfl, hq.reliable h.reliable, hq.actor.trans h.actor,
    hq.mutationLog.trans h.mutationLog⟩
  · show LawfulStorage.contents e'.storage = _
    rw [hq.contents, scan_snoc, Scan.step, List.append_assoc]
    exact h.contents
  · show e'.indexes = _
    rw [hq.indexes, scan_snoc, Scan.step, ← h.indexes]
    rfl

end Scanning

section Loop

variable {actor : ActorId} {hd : Bytes} {e : Engine σ} {fs : List (Frame P)}

end Loop

/-! ## Opening -/

namespace Scanning

variable {actor : ActorId} {hd : Bytes} {e : Engine σ} {fs : List (Frame P)}

/-- The frames determine the engine, apart from the state of its backend. -/
theorem unique {e' : Engine σ} (h : Scanning P actor hd e fs [])
    (h' : Scanning P actor hd e' fs []) : e' = { e with storage := e'.storage } := by
  have hix := h'.indexes.trans h.indexes.symm
  have hseq := h'.nextLocalSeq.trans h.nextLocalSeq.symm
  have hactor := h'.actor.trans h.actor.symm
  have hlog := h'.mutationLog.trans h.mutationLog.symm
  cases e
  cases e'
  cases hix
  cases hseq
  cases hactor
  cases hlog
  rfl

/-- The engine serves the graph of the records. -/
theorem backed (h : Scanning P actor hd e fs []) :
    Backed P e (PropertyGraph.ofLog (records fs)) := by
  have hsound := sound_scan hd fs
  have hc := h.contents
  rw [List.append_nil] at hc
  have hnodes := hsound.nodes
  have hedges := hsound.edges
  rw [← hc, ← h.indexes, scan_graph] at hnodes hedges
  exact ⟨hnodes.backs h.reliable, hedges.backs h.reliable⟩

theorem currentSchema (h : Scanning P actor hd e fs []) :
    e.currentSchema = (PropertyGraph.ofLog (records fs)).schema := by
  rw [← scan_graph hd fs, ← (sound_scan hd fs).schema, ← h.indexes]
  rfl

end Scanning

end Morceau
