import Morceau.Engine.Replay

/-!
# What the engine's reads do

A read moves at most the backend: `Quiet e e'` says that `e'` is `e` after some reads of its
backend, which has the same contents then. Every read-only operation of the engine is quiet,
whatever its outcome.

An entry that points at a record of the log is read back as the operation of that record, unless the
backend itself fails (`readOpAt_located`); on a reliable backend it always is.
-/

set_option autoImplicit false

namespace Morceau

open Lib LawfulStorage

variable {σ : Type} [LawfulStorage σ] {P : Platform}

/-- The two engines differ at most in the backend, by some reads. -/
structure Quiet (e e' : Engine σ) : Prop where
  rest : e' = { e with storage := e'.storage }
  reads : ReadSteps e.storage e'.storage

namespace Quiet

theorem refl (e : Engine σ) : Quiet e e := ⟨rfl, Relation.ReflTransGen.refl⟩

theorem trans (a b c : Engine σ) (hab : Quiet a b) (hbc : Quiet b c) : Quiet a c where
  rest := by
    rw [hbc.rest, hab.rest]
  reads := Relation.ReflTransGen.trans hab.reads hbc.reads

theorem contents {e e' : Engine σ} (h : Quiet e e') :
    contents e'.storage = LawfulStorage.contents e.storage := h.reads.keeps.1

theorem reliable {e e' : Engine σ} (h : Quiet e e') (hr : Reliable e.storage) :
    Reliable e'.storage := h.reads.keeps.2 hr

theorem indexes {e e' : Engine σ} (h : Quiet e e') : e'.indexes = e.indexes := by
  rw [h.rest]
  rfl

theorem nextLocalSeq {e e' : Engine σ} (h : Quiet e e') : e'.nextLocalSeq = e.nextLocalSeq := by
  rw [h.rest]

theorem actor {e e' : Engine σ} (h : Quiet e e') : e'.actor = e.actor := by
  rw [h.rest]

theorem mutationLog {e e' : Engine σ} (h : Quiet e e') : e'.mutationLog = e.mutationLog := by
  rw [h.rest]

end Quiet

/-! ## Reads are quiet -/

namespace Engine

theorem liftStorage_of_ok {τ α : Type} {x : EStateM StorageError τ α} {e : Engine τ} {a : α}
    {s' : τ} (h : x e.storage = .ok a s') : liftStorage x e = .ok a { e with storage := s' } := by
  simp [liftStorage, h]

theorem liftStorage_of_error {τ α : Type} {x : EStateM StorageError τ α} {e : Engine τ}
    {err : StorageError} {s' : τ} (h : x e.storage = .error err s') :
    liftStorage x e = .error (.storage err) { e with storage := s' } := by
  simp [liftStorage, h]

theorem liftRecord_ok {τ α : Type} (a : α) (e : Engine τ) :
    (liftRecord (.ok a) : EngineM τ α) e = .ok a e := rfl

theorem quiet_readAt (o n : Nat) :
    Moves Quiet (liftStorage (Storage.readAt o n) : EngineM σ Bytes) := by
  intro e
  have hstep : ReadStep e.storage (finalState (Storage.readAt o n e.storage)) := ⟨o, n, rfl⟩
  unfold liftStorage
  cases h : Storage.readAt o n e.storage with
  | ok bs s' =>
      rw [h] at hstep
      exact ⟨rfl, Relation.ReflTransGen.single hstep⟩
  | error err s' =>
      rw [h] at hstep
      exact ⟨rfl, Relation.ReflTransGen.single hstep⟩

theorem quiet_liftRecord {α : Type} (x : Except RecordError α) :
    Moves Quiet (liftRecord x : EngineM σ α) := by
  cases x with
  | ok a => exact Moves.pure Quiet.refl a
  | error err => exact Moves.throw Quiet.refl _

theorem quiet_readOpAt (entry : IndexEntry) :
    Moves Quiet (readOpAt P entry : EngineM σ (Option MutationOp)) := by
  refine Moves.bind Quiet.trans (quiet_readAt _ _) fun bytes => ?_
  refine Moves.bind Quiet.trans (quiet_liftRecord _) fun decoded => ?_
  cases decoded with
  | none => exact Moves.throw Quiet.refl _
  | some p => exact Moves.pure Quiet.refl _

theorem quiet_collectOps {α : Type} (sel : MutationOp → Option α) (entries : List IndexEntry) :
    Moves Quiet (collectOps P sel entries : EngineM σ (List α)) := by
  induction entries with
  | nil => exact Moves.pure Quiet.refl _
  | cons entry rest ih =>
      refine Moves.bind Quiet.trans (quiet_readOpAt _) fun op => ?_
      refine Moves.bind Quiet.trans ih fun out => ?_
      cases op.bind sel with
      | none => exact Moves.pure Quiet.refl _
      | some a => exact Moves.pure Quiet.refl _

theorem quiet_materializeEdges (ids : List String) :
    Moves Quiet (materializeEdges P ids : EngineM σ (List Edge)) := by
  induction ids with
  | nil => exact Moves.pure Quiet.refl _
  | cons id ids ih =>
      refine Moves.bind Quiet.trans (Moves.get Quiet.refl) fun e => ?_
      cases e.edgeIndex.lookup id with
      | none => exact ih
      | some entry =>
          refine Moves.bind Quiet.trans (quiet_readOpAt _) fun op => ?_
          refine Moves.bind Quiet.trans ih fun out => ?_
          cases op.bind edgeOf with
          | none => exact Moves.pure Quiet.refl _
          | some d => exact Moves.pure Quiet.refl _

theorem quiet_iterNodes : Moves Quiet (iterNodes P : EngineM σ (List Node)) :=
  Moves.bind Quiet.trans (Moves.get Quiet.refl) fun _ => quiet_collectOps _ _

theorem quiet_iterEdgesFrom (nodeId : String) (label : Option String) :
    Moves Quiet (iterEdgesFrom P nodeId label : EngineM σ (List Edge)) := by
  refine Moves.bind Quiet.trans (Moves.get Quiet.refl) fun e => ?_
  cases e.edgesByFrom.lookup nodeId with
  | none => exact Moves.pure Quiet.refl _
  | some fromSet =>
      cases label with
      | none => exact quiet_materializeEdges _
      | some label =>
          simp only
          cases e.edgeByLabel.lookup label with
          | none => exact Moves.pure Quiet.refl _
          | some labelSet => exact quiet_materializeEdges _

theorem quiet_iterEdgesIncidentTo (nodeId : String) :
    Moves Quiet (iterEdgesIncidentTo P nodeId : EngineM σ (List Edge)) :=
  Moves.bind Quiet.trans (Moves.get Quiet.refl) fun _ => quiet_materializeEdges _

theorem quiet_getNode (id : String) : Moves Quiet (getNode P id : EngineM σ (Option Node)) := by
  refine Moves.bind Quiet.trans (Moves.get Quiet.refl) fun e => ?_
  cases e.nodeIndex.lookup id with
  | none => exact Moves.pure Quiet.refl _
  | some entry =>
      exact Moves.bind Quiet.trans (quiet_readOpAt _) fun op => Moves.pure Quiet.refl _

end Engine

/-! ## Reading a record of the log -/

/-- The bytes of a store that holds `log` and then `tail`. -/
def storeImage (P : Platform) (log : List Mutation) (tail : Bytes) : Bytes :=
  header ++ encodeLog P log ++ tail

theorem storeImage_split (pre : List Mutation) (m : Mutation) (post : List Mutation)
    (tail : Bytes) :
    storeImage P (pre ++ m :: post) tail =
      (header ++ encodeLog P pre) ++ (P.frameOf m ++ (encodeLog P post ++ tail)) := by
  simp [storeImage]

/-- The frame of a record stands at the record's entry. -/
theorem slice_storeImage (pre : List Mutation) (m : Mutation) (post : List Mutation)
    (tail : Bytes) :
    slice (headerLen + (encodeLog P pre).length) (P.frameOf m).length
      (storeImage P (pre ++ m :: post) tail) = P.frameOf m := by
  rw [storeImage_split]
  have h := slice_append_middle (header ++ encodeLog P pre) (P.frameOf m)
    (encodeLog P post ++ tail)
  rwa [List.length_append, length_header] at h

theorem frame_in_storeImage (pre : List Mutation) (m : Mutation) (post : List Mutation)
    (tail : Bytes) :
    headerLen + (encodeLog P pre).length + (P.frameOf m).length ≤
      (storeImage P (pre ++ m :: post) tail).length := by
  rw [storeImage_split]
  simp only [List.length_append, length_header]
  omega

/-- A read at a record's entry that succeeds returns the frame of the record. -/
theorem readAt_frame {s s' : σ} {pre : List Mutation} {m : Mutation} {post : List Mutation}
    {tail bs : Bytes} (hc : contents s = storeImage P (pre ++ m :: post) tail)
    (hr : Storage.readAt (headerLen + (encodeLog P pre).length) (P.frameOf m).length s =
      .ok bs s') : bs = P.frameOf m := by
  obtain ⟨-, -, hbs⟩ := readAt_ok hr
  rw [hbs (by rw [hc]; exact frame_in_storeImage pre m post tail), hc, slice_storeImage]

/-- The backend fails the read of the record at `entry`. -/
def EntryUnreadable {τ : Type} [Storage τ] (entry : IndexEntry) (s : τ) : Prop :=
  ∃ err s', Storage.readAt entry.offset (lenPrefixBytes + entry.payloadLen) s = .error err s'

/-- `Engine::read_op_at` at the place of a record: the operation of the record, or an error of the
backend. -/
theorem readOpAt_located {e : Engine σ} {log : List Mutation} {tail : Bytes}
    (hc : contents e.storage = storeImage P log tail) (henc : ∀ m ∈ log, P.Encodable m)
    {entry : IndexEntry} {op : MutationOp} (hat : Located P log entry op) :
    (∃ e', Engine.readOpAt P entry e = .ok (some op) e' ∧ Quiet e e' ∧
        ¬ EntryUnreadable entry e.storage) ∨
      (∃ err e', Engine.readOpAt P entry e = .error (.storage err) e' ∧ Quiet e e' ∧
        EntryUnreadable entry e.storage ∧ ¬ Reliable e.storage) := by
  obtain ⟨pre, m, post, rfl, rfl, rfl⟩ := hat
  have hm : P.Encodable m := henc m (by simp)
  have h4 : lenPrefixBytes + ((P.frameOf m).length - lenPrefixBytes) = (P.frameOf m).length := by
    have := hm.four_le
    simp only [lenPrefixBytes]
    omega
  have hin := frame_in_storeImage (P := P) pre m post tail
  rw [← hc] at hin
  have hquiet := Engine.quiet_readOpAt (P := P) (entryAfter P pre m) e
  unfold Engine.readOpAt at hquiet ⊢
  simp only [EntryUnreadable, entryAfter, h4] at hquiet ⊢
  cases hr : Storage.readAt (headerLen + (encodeLog P pre).length) (P.frameOf m).length
      e.storage with
  | ok bs s' =>
      have hdec : (Engine.liftRecord (decodeFramed P bs) : EngineM σ _)
          { e with storage := s' } =
            .ok (some (m, (P.frameOf m).length)) { e with storage := s' } := by
        rw [readAt_frame hc hr, hm.decodeFramed_frameOf]
        rfl
      rw [bind_of_ok (Engine.liftStorage_of_ok hr), bind_of_ok hdec] at hquiet ⊢
      exact Or.inl ⟨_, rfl, hquiet, by simp⟩
  | error err s' =>
      rw [bind_of_error (Engine.liftStorage_of_error hr)] at hquiet ⊢
      refine Or.inr ⟨err, _, rfl, hquiet, ⟨err, s', rfl⟩, fun hrel => ?_⟩
      obtain ⟨bs, t, hok⟩ := readAt_reliable hrel hin
      rw [hr] at hok
      cases hok

/-- On a reliable backend the record is read back. -/
theorem readOpAt_reliable {e : Engine σ} {log : List Mutation} {tail : Bytes}
    (hc : contents e.storage = storeImage P log tail) (henc : ∀ m ∈ log, P.Encodable m)
    (hrel : Reliable e.storage) {entry : IndexEntry} {op : MutationOp}
    (hat : Located P log entry op) :
    ∃ e', Engine.readOpAt P entry e = .ok (some op) e' ∧ Quiet e e' := by
  rcases readOpAt_located hc henc hat with ⟨e', hr, hq, -⟩ | ⟨err, e', -, -, -, hnot⟩
  · exact ⟨e', hr, hq⟩
  · exact absurd hrel hnot

end Morceau
