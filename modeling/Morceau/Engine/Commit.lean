import Morceau.Engine.Reads

/-!
# Committing a mutation

`commit_cases` says everything a call of `Engine::commit` can do: fail to encode, fail to append, or
append and then publish. `Core P e log` is the invariant that ties an engine to the log on its
store: the store is the image of the log, and the indexes are what replaying the log leaves. On a
reliable backend a commit that appends also publishes and tees, and keeps the invariant with the log
one record longer (`Core.commit`).
-/

set_option autoImplicit false

namespace Morceau

open Lib LawfulStorage

variable {σ : Type} [LawfulStorage σ] {P : Platform}

/-! ## Publishing -/

/-- Publishing reads the store only for the delete of a live edge. -/
theorem updateIndexesFor_of_ne_edgeDelete (e : Engine σ) (g : PropertyGraph) {op : MutationOp}
    (hop : ∀ id, op ≠ .edgeDelete id) (off len : Nat) (fs : Bool) :
    Engine.updateIndexesFor P op off len fs e =
      .ok () (e.withIndexes (e.indexes.publish g op ⟨off, len, fs⟩)) := by
  cases op with
  | edgeDelete id => exact absurd rfl (hop id)
  | nodeInsert n => rfl
  | edgeInsert d => rfl
  | nodeDelete id => rfl
  | schemaApply s => rfl

theorem updateIndexesFor_edgeDelete_dead {e : Engine σ} {id : String}
    (h : e.edgeIndex.lookup id = none) (off len : Nat) (fs : Bool) :
    Engine.updateIndexesFor P (.edgeDelete id) off len fs e = .ok () e := by
  simp only [Engine.updateIndexesFor]
  rw [bind_of_ok (get_apply e), h]
  rfl

/-- The delete of a live edge drops the edge from the four edge indexes, or fails with only the
primary entry gone when its record cannot be read. -/
theorem updateIndexesFor_edgeDelete_live {e : Engine σ} {log : List Mutation} {tail : Bytes}
    (hc : contents e.storage = storeImage P log tail) (henc : ∀ m ∈ log, P.Encodable m)
    {id : String} {entry : IndexEntry} {d : Edge} (hl : e.edgeIndex.lookup id = some entry)
    (hat : Located P log entry (.edgeInsert d)) (off len : Nat) (fs : Bool) :
    (∃ e', Engine.updateIndexesFor P (.edgeDelete id) off len fs e = .ok () e' ∧
        Quiet (e.withIndexes (e.indexes.removeEdge id d)) e' ∧
        ¬ EntryUnreadable entry e.storage) ∨
      (∃ err e', Engine.updateIndexesFor P (.edgeDelete id) off len fs e =
          .error (.storage err) e' ∧
        Quiet { e with edgeIndex := e.edgeIndex.erase id } e' ∧
        EntryUnreadable entry e.storage ∧ ¬ Reliable e.storage) := by
  have hstep : Engine.updateIndexesFor P (.edgeDelete id) off len fs e =
      Engine.removeEdgeFromIndexes P id entry
        { e with edgeIndex := e.edgeIndex.erase id } := by
    simp only [Engine.updateIndexesFor]
    rw [bind_of_ok (get_apply e), hl]
    exact bind_of_ok (set_apply _ _)
  rw [hstep]
  unfold Engine.removeEdgeFromIndexes
  rcases readOpAt_located (e := { e with edgeIndex := e.edgeIndex.erase id }) hc henc hat with
    ⟨e', hread, hq, hreadable⟩ | ⟨err, e', hread, hq, hfails⟩
  · rw [bind_of_ok hread]
    refine Or.inl ⟨_, rfl, ⟨?_, hq.reads⟩, hreadable⟩
    rw [hq.rest]
    rfl
  · rw [bind_of_error hread]
    exact Or.inr ⟨err, e', rfl, hq, hfails⟩

/-- On a reliable backend with consistent indexes, publishing succeeds. -/
theorem updateIndexesFor_consistent {e : Engine σ} {log : List Mutation} {tail : Bytes}
    (hc : contents e.storage = storeImage P log tail) (henc : ∀ m ∈ log, P.Encodable m)
    (hrel : Reliable e.storage) {g : PropertyGraph} (hcons : Consistent P log g e.indexes)
    (op : MutationOp) (off len : Nat) (fs : Bool) :
    ∃ e', Engine.updateIndexesFor P op off len fs e = .ok () e' ∧
      Quiet (e.withIndexes (e.indexes.publish g op ⟨off, len, fs⟩)) e' := by
  by_cases hop : ∃ id, op = .edgeDelete id
  · obtain ⟨id, rfl⟩ := hop
    cases hl : e.edgeIndex.lookup id with
    | none =>
        have hg : g.edges.lookup id = none := hcons.edges.of_none hl
        refine ⟨e, updateIndexesFor_edgeDelete_dead hl off len fs, ?_⟩
        simp only [Indexes.publish, hg]
        exact Quiet.refl e
    | some entry =>
        obtain ⟨d, hd, -, hat⟩ := hcons.edges.of_some hl
        simp only [Indexes.publish, hd]
        rcases updateIndexesFor_edgeDelete_live hc henc hl hat off len fs with
          ⟨e', hr, hq, -⟩ | ⟨_, _, -, -, -, hn⟩
        · exact ⟨e', hr, hq⟩
        · exact absurd hrel hn
  · exact ⟨_, updateIndexesFor_of_ne_edgeDelete e g (fun id h => hop ⟨id, h⟩) off len fs,
      Quiet.refl _⟩

/-! ## What a commit can do -/

/-- The mutation a commit of `op` builds. -/
def stamp (e : Engine σ) (op : MutationOp) : Mutation :=
  { localSeq := e.nextLocalSeq, actor := e.actor, foreshadow := true, op := op }

/-- The engine after the sequence number of a commit was taken. -/
def bumped (e : Engine σ) : Engine σ := { e with nextLocalSeq := e.nextLocalSeq + 1 }

/-- The engine after a mutation was teed. -/
def teed (m : Mutation) (e : Engine σ) : Engine σ :=
  { e with mutationLog := e.mutationLog.map fun log => log.record m }

/-- Everything a commit can do. -/
theorem commit_cases (op : MutationOp) (e : Engine σ) :
    (∃ err, encodeFramed P (stamp e op) = .error err ∧
      Engine.commit P op e = .error (.record err) (bumped e)) ∨
    (∃ err s', P.Encodable (stamp e op) ∧
      Storage.append (P.frameOf (stamp e op)) e.storage = .error err s' ∧
      Engine.commit P op e = .error (.storage err) { bumped e with storage := s' }) ∨
    (∃ off s', P.Encodable (stamp e op) ∧
      Storage.append (P.frameOf (stamp e op)) e.storage = .ok off s' ∧
      Engine.commit P op e =
        (Engine.updateIndexesFor P op off ((P.frameOf (stamp e op)).length - lenPrefixBytes) true
          >>= fun _ => modify (teed (stamp e op))) { bumped e with storage := s' }) := by
  have hstart : Engine.commit P op e =
      (Engine.liftRecord (encodeFramed P (stamp e op)) >>= fun frame =>
        Engine.liftStorage (Storage.append frame) >>= fun offset =>
          Engine.updateIndexesFor P op offset (frame.length - lenPrefixBytes) true >>= fun _ =>
            modify (teed (stamp e op)))
        (bumped e) := rfl
  cases henc : encodeFramed P (stamp e op) with
  | error err =>
      refine Or.inl ⟨err, rfl, ?_⟩
      rw [hstart, henc]
      rfl
  | ok b =>
      have hb : P.frameOf (stamp e op) = b := frameOf_of_ok henc
      have hE : P.Encodable (stamp e op) := ⟨b, henc⟩
      rw [hb]
      rw [henc] at hstart
      cases happ : Storage.append b e.storage with
      | error err s' =>
          refine Or.inr (Or.inl ⟨err, s', hE, rfl, ?_⟩)
          rw [hstart, bind_of_ok (Engine.liftRecord_ok b _)]
          exact bind_of_error (Engine.liftStorage_of_error happ)
      | ok off s' =>
          refine Or.inr (Or.inr ⟨off, s', hE, rfl, ?_⟩)
          rw [hstart, bind_of_ok (Engine.liftRecord_ok b _)]
          exact bind_of_ok (Engine.liftStorage_of_ok happ)

/-! ## The invariant -/

/-- What a failed call is due to: the I/O layer (the backend, or a record that has no frame), a
store or an index that does not hold what it should, or a request that the engine refuses. -/
inductive Fault where
  | io
  | desync
  | refusal
deriving DecidableEq

/-- What an error of the engine is due to. -/
def EngineError.fault : EngineError → Fault
  | .storage _ => .io
  | .record (.lengthOverflow _) => .io
  | .record (.encode _) => .io
  | .record (.decode _) => .desync
  | .recovery _ _ => .desync
  | .duplicateId _ => .refusal
  | .missingNode _ => .refusal
  | .schemaUnknown _ _ => .refusal
  | .schemaPropertyTypeMismatch _ _ _ _ _ => .refusal

theorem encodeFramed_error_fault {m : Mutation} {err : RecordError}
    (h : encodeFramed P m = .error err) : (EngineError.record err).fault = .io := by
  unfold encodeFramed at h
  split at h
  · cases h
    rfl
  · split at h
    · cases h
    · cases h
      rfl

/-- The store holds exactly the log, and the indexes are what the log leaves. -/
structure Core (P : Platform) (e : Engine σ) (log : List Mutation) : Prop where
  contents : LawfulStorage.contents e.storage = storeImage P log []
  encodable : ∀ m ∈ log, P.Encodable m
  wf : WfLog log
  indexes : e.indexes = replay P log
  reliable : Reliable e.storage

/-- An edge insert is committed only under an id that no live edge has. -/
def Fresh (e : Engine σ) : MutationOp → Prop
  | .edgeInsert d => d.id ∉ e.edgeIndex
  | _ => True

namespace Core

variable {e e' : Engine σ} {log : List Mutation}

theorem consistent (h : Core P e log) :
    Consistent P log (PropertyGraph.ofLog log) e.indexes := by
  rw [h.indexes]
  exact consistent_replay h.wf

theorem quiet (h : Core P e log) (hq : Quiet e e') : Core P e' log where
  contents := hq.contents.trans h.contents
  encodable := h.encodable
  wf := h.wf
  indexes := hq.indexes.trans h.indexes
  reliable := hq.reliable h.reliable

theorem admissible (h : Core P e log) {op : MutationOp} (hf : Fresh e op) :
    (PropertyGraph.ofLog log).Admissible op := by
  cases op with
  | edgeInsert d =>
      exact h.consistent.edges.of_none (AList.lookup_eq_none.2 hf)
  | nodeInsert n => trivial
  | nodeDelete id => trivial
  | edgeDelete id => trivial
  | schemaApply s => trivial

end Core

/-- What a successful commit of `op` leaves. -/
structure Committed (P : Platform) (e : Engine σ) (log : List Mutation) (op : MutationOp)
    (e' : Engine σ) : Prop where
  core : Core P e' (log ++ [stamp e op])
  actor : e'.actor = e.actor
  nextLocalSeq : e'.nextLocalSeq = e.nextLocalSeq + 1
  mutationLog : e'.mutationLog = e.mutationLog.map fun l => l.record (stamp e op)
  storage : ∃ off s', Storage.append (P.frameOf (stamp e op)) e.storage = .ok off s' ∧
    ReadSteps s' e'.storage

/-- What a commit of `op` that failed in the I/O layer leaves: it has taken a sequence number, and
the store is as before or as the failed append left it. -/
structure Failed (P : Platform) (e : Engine σ) (op : MutationOp) (e' : Engine σ) : Prop where
  rest : e' = { bumped e with storage := e'.storage }
  storage : e'.storage = e.storage ∨ P.Encodable (stamp e op) ∧
    ∃ err, Storage.append (P.frameOf (stamp e op)) e.storage = .error err e'.storage

namespace Failed

variable {e e' : Engine σ} {op : MutationOp}

theorem indexes (h : Failed P e op e') : e'.indexes = e.indexes := by
  rw [h.rest]
  rfl

theorem mutationLog (h : Failed P e op e') : e'.mutationLog = e.mutationLog := by
  rw [h.rest]
  rfl

theorem contents (h : Failed P e op e') :
    contents e'.storage = LawfulStorage.contents e.storage := by
  rcases h.storage with hs | ⟨-, err, hs⟩
  · rw [hs]
  · exact (append_error hs).1

theorem reliable (h : Failed P e op e') (hr : Reliable e.storage) : Reliable e'.storage := by
  rcases h.storage with hs | ⟨-, err, hs⟩
  · rw [hs]
    exact hr
  · exact (append_error hs).2 hr

end Failed

/-- A failed commit keeps the invariant. -/
theorem Core.failed {e e' : Engine σ} {log : List Mutation} {op : MutationOp} (h : Core P e log)
    (hf : Failed P e op e') : Core P e' log where
  contents := hf.contents.trans h.contents
  encodable := h.encodable
  wf := h.wf
  indexes := hf.indexes.trans h.indexes
  reliable := hf.reliable h.reliable

/-- A commit either appends, publishes and tees, or it fails in the I/O layer and has only taken a
sequence number. -/
theorem Core.commit {e : Engine σ} {log : List Mutation} (h : Core P e log) {op : MutationOp}
    (hf : Fresh e op) :
    (∃ e', Engine.commit P op e = .ok () e' ∧ Committed P e log op e') ∨
      (∃ err e', Engine.commit P op e = .error err e' ∧ err.fault = .io ∧
        Failed P e op e') := by
  rcases commit_cases (P := P) op e with ⟨err, herr, hcom⟩ | ⟨err, s', henc, happ, hcom⟩ |
    ⟨off, s', henc, happ, hcom⟩
  · exact Or.inr ⟨_, _, hcom, encodeFramed_error_fault herr, rfl, Or.inl rfl⟩
  · exact Or.inr ⟨_, _, hcom, rfl, rfl, Or.inr ⟨henc, err, happ⟩⟩
  · obtain ⟨hoff, hcs, hrel⟩ := append_ok happ
    set m := stamp e op with hm
    rw [h.contents] at hcs hoff
    -- the log is read with the new frame as its tail
    have himg : LawfulStorage.contents s' = storeImage P log (P.frameOf m) := by
      rw [hcs]
      simp [storeImage]
    have hentry : (⟨off, (P.frameOf m).length - lenPrefixBytes, true⟩ : IndexEntry) =
        entryAfter P log m := by
      rw [hoff]
      simp [entryAfter, storeImage, hm, stamp, length_header]
    obtain ⟨e', hupd, hq⟩ := updateIndexesFor_consistent
      (e := { bumped e with storage := s' }) himg h.encodable (hrel h.reliable) h.consistent op off
      ((P.frameOf m).length - lenPrefixBytes) true
    rw [hentry] at hq
    rw [bind_of_ok hupd] at hcom
    refine Or.inl ⟨_, hcom, ⟨?_, ?_, ?_, ?_, ?_⟩, ?_, ?_, ?_,
      off, s', happ, hq.reads⟩
    · show LawfulStorage.contents e'.storage = _
      rw [hq.contents]
      show LawfulStorage.contents s' = _
      rw [himg]
      simp [storeImage, hm]
    · intro m' hm'
      rcases List.mem_append.1 hm' with hm' | hm'
      · exact h.encodable m' hm'
      · rw [List.mem_singleton] at hm'
        exact hm' ▸ henc
    · exact wfLog_snoc.2 ⟨h.wf, h.admissible hf⟩
    · show e'.indexes = _
      rw [hq.indexes, replay_snoc, ← h.indexes]
      rfl
    · exact hq.reliable (hrel h.reliable)
    · exact hq.actor
    · exact hq.nextLocalSeq
    · show Option.map _ e'.mutationLog = _
      rw [hq.mutationLog]
      rfl

end Morceau
