import Morceau.Lib.Buckets
import Morceau.Record

/-!
# The engine

The operations of `engine.rs` over an arbitrary storage backend. Every operation takes `&mut self`
in the source and is a fallible state transformer here: an error keeps whatever was changed before
it. The `Query` variant of `EngineError` is the error type of `Engine.query`, which is defined with
the query layer.

`usize` is the 64-bit one of the native target, and the lengths and offsets of a store fit it, so
they are natural numbers. Sequence numbers are `u64` and wrap.
-/

set_option autoImplicit false

namespace Morceau

open Lib

/-- `EngineError`, without the `Query` variant. -/
inductive EngineError where
  | storage (err : StorageError)
  | record (err : RecordError)
  | duplicateId (id : String)
  | missingNode (id : String)
  | recovery (offset : Nat) (source : RecordError)
  | schemaUnknown (label : String) (schemaVersion : UInt64)
  | schemaPropertyTypeMismatch (label property : String) (declared : PropertyType)
      (actual : String) (schemaVersion : UInt64)
deriving DecidableEq, Repr

/-- `IndexEntry`: where the record of a live node or edge is. -/
structure IndexEntry where
  offset : Nat
  payloadLen : Nat
  foreshadow : Bool
deriving DecidableEq, Repr

/-- `MutationLog`: mutations are buffered until a forwarder is wired, and then go through it. The
forwarder is the list of mutations it was given. -/
structure MutationLog where
  buffer : List Mutation
  forwarder : Option (List Mutation)
deriving DecidableEq

namespace MutationLog

/-- `MutationLog::new`. -/
def new : MutationLog := ⟨[], none⟩

/-- `MutationLog::record`. -/
def record (l : MutationLog) (m : Mutation) : MutationLog :=
  match l.forwarder with
  | some sent => { l with forwarder := some (sent ++ [m]) }
  | none => { l with buffer := l.buffer ++ [m] }

/-- `MutationLog::set_forwarder`. What is buffered stays in the buffer. -/
def setForwarder (l : MutationLog) : MutationLog :=
  { l with forwarder := some (l.forwarder.getD []) }

/-- Everything handed to `record` since the log was created, oldest first. -/
def handed (l : MutationLog) : List Mutation := l.buffer ++ l.forwarder.getD []

end MutationLog

/-- `Engine`: the storage, the two primary indexes, the three secondary edge indexes, the actor, the
sequence counter, the tee, and the schema in force. -/
structure Engine (σ : Type) where
  storage : σ
  nodeIndex : HashMap String IndexEntry
  edgeIndex : HashMap String IndexEntry
  edgeByLabel : HashMap String (HashSet String)
  edgesByFrom : HashMap String (HashSet String)
  edgesByTo : HashMap String (HashSet String)
  actor : ActorId
  nextLocalSeq : UInt64
  mutationLog : Option MutationLog
  currentSchema : Option Schema

/-- An engine operation: `&mut self` with a `Result`. -/
abbrev EngineM (σ α : Type) := EStateM EngineError (Engine σ) α

/-- `drop_from_index`. -/
def dropFromIndex (map : HashMap String (HashSet String)) (key id : String) :
    HashMap String (HashSet String) := Buckets.drop map key id

namespace Engine

variable {σ : Type}

/-! ## Lifting the layers below -/

/-- Run a storage call; its error becomes `EngineError::Storage`. -/
def liftStorage {α : Type} (x : EStateM StorageError σ α) : EngineM σ α := fun e =>
  match x e.storage with
  | .ok a s => .ok a { e with storage := s }
  | .error err s => .error (.storage err) { e with storage := s }

/-- Run a codec call; its error becomes `EngineError::Record`. -/
def liftRecord {α : Type} (x : Except RecordError α) : EngineM σ α :=
  match x with
  | .ok a => pure a
  | .error err => throw (.record err)

/-- Run a check that reads the engine only. -/
def liftCheck {α : Type} (x : Engine σ → Except EngineError α) : EngineM σ α := fun e =>
  match x e with
  | .ok a => .ok a e
  | .error err => .error err e

variable [Storage σ] (P : Platform)

/-! ## Reading records -/

/-- `Engine::read_op_at`. -/
def readOpAt (entry : IndexEntry) : EngineM σ (Option MutationOp) := do
  let bytes ← liftStorage (Storage.readAt entry.offset (lenPrefixBytes + entry.payloadLen))
  match ← liftRecord (decodeFramed P bytes) with
  | none =>
      throw (.recovery entry.offset (.decode (.other "indexed mutation decoded to None")))
  | some (mutation, _) => pure (some mutation.op)

/-- The loop of `iter_nodes` and `iter_edges`: read each entry and keep the selected records. -/
def collectOps {α : Type} (sel : MutationOp → Option α) : List IndexEntry → EngineM σ (List α)
  | [] => pure []
  | entry :: rest => do
      let op ← readOpAt P entry
      let out ← collectOps sel rest
      match op.bind sel with
      | some a => pure (a :: out)
      | none => pure out

/-- The node of a `NodeInsert`. -/
def nodeOf : MutationOp → Option Node
  | .nodeInsert n => some n
  | _ => none

/-- The edge of an `EdgeInsert`. -/
def edgeOf : MutationOp → Option Edge
  | .edgeInsert d => some d
  | _ => none

/-- `Engine::iter_nodes`. -/
def iterNodes : EngineM σ (List Node) := do
  let e ← get
  collectOps P nodeOf e.nodeIndex.values

/-- `Engine::iter_edges`. -/
def iterEdges : EngineM σ (List Edge) := do
  let e ← get
  collectOps P edgeOf e.edgeIndex.values

/-- `Engine::materialize_edges`: ids without an index entry are skipped. -/
def materializeEdges : List String → EngineM σ (List Edge)
  | [] => pure []
  | id :: ids => do
      let e ← get
      match e.edgeIndex.lookup id with
      | none => materializeEdges ids
      | some entry => do
          let op ← readOpAt P entry
          let out ← materializeEdges ids
          match op.bind edgeOf with
          | some d => pure (d :: out)
          | none => pure out

/-- `Engine::edge_ids_for_label`. -/
def edgeIdsForLabel (e : Engine σ) (label : String) : List String :=
  match e.edgeByLabel.lookup label with
  | some set => set.keys
  | none => []

/-- `Engine::iter_edges_by_label`. -/
def iterEdgesByLabel (label : String) : EngineM σ (List Edge) := do
  let e ← get
  materializeEdges P (e.edgeIdsForLabel label)

/-- `Engine::iter_edges_from`. -/
def iterEdgesFrom (nodeId : String) (label : Option String) : EngineM σ (List Edge) := do
  let e ← get
  match e.edgesByFrom.lookup nodeId with
  | none => pure []
  | some fromSet =>
      match label with
      | some label =>
          match e.edgeByLabel.lookup label with
          | some labelSet => materializeEdges P (fromSet.intersection labelSet)
          | none => pure []
      | none => materializeEdges P fromSet.keys

/-- The ids `iter_edges_incident_to` gathers: a self-loop lives in both buckets and is kept once. -/
def incidentIds (e : Engine σ) (nodeId : String) : HashSet String :=
  let ids := match e.edgesByFrom.lookup nodeId with
    | some set => HashSet.extend ∅ set.keys
    | none => ∅
  match e.edgesByTo.lookup nodeId with
  | some set => ids.extend set.keys
  | none => ids

/-- `Engine::iter_edges_incident_to`. -/
def iterEdgesIncidentTo (nodeId : String) : EngineM σ (List Edge) := do
  let e ← get
  materializeEdges P (e.incidentIds nodeId).keys

/-- `Engine::get_node`. -/
def getNode (id : String) : EngineM σ (Option Node) := do
  let e ← get
  match e.nodeIndex.lookup id with
  | none => pure none
  | some entry => do
      let op ← readOpAt P entry
      pure (op.bind nodeOf)

/-- `Engine::get_edge`. -/
def getEdge (id : String) : EngineM σ (Option Edge) := do
  let e ← get
  match e.edgeIndex.lookup id with
  | none => pure none
  | some entry => do
      let op ← readOpAt P entry
      pure (op.bind edgeOf)

/-- `Engine::has_node`. -/
def hasNode (e : Engine σ) (id : String) : Bool := decide (id ∈ e.nodeIndex)

/-- `Engine::has_edge`. -/
def hasEdge (e : Engine σ) (id : String) : Bool := decide (id ∈ e.edgeIndex)

/-- `Engine::node_count`. -/
def nodeCount (e : Engine σ) : Nat := e.nodeIndex.entries.length

/-- `Engine::edge_count`. -/
def edgeCount (e : Engine σ) : Nat := e.edgeIndex.entries.length

/-- `Engine::is_foreshadow`: a node's flag wins over that of an edge with the same id. -/
def isForeshadow (e : Engine σ) (id : String) : Bool :=
  match e.nodeIndex.lookup id with
  | some entry => entry.foreshadow
  | none =>
      match e.edgeIndex.lookup id with
      | some entry => entry.foreshadow
      | none => false

/-! ## Publishing records -/

/-- `Engine::remove_edge_from_indexes`: one read recovers the edge's label and endpoints. -/
def removeEdgeFromIndexes (id : String) (entry : IndexEntry) : EngineM σ Unit := do
  match ← readOpAt P entry with
  | some (.edgeInsert d) =>
      modify fun e =>
        { e with
          edgeByLabel := dropFromIndex e.edgeByLabel d.label id
          edgesByFrom := dropFromIndex e.edgesByFrom d.fromId id
          edgesByTo := dropFromIndex e.edgesByTo d.toId id }
  | _ =>
      throw (.recovery entry.offset
        (.decode (.other "edge_index entry did not decode to an EdgeInsert")))

/-- `Engine::update_indexes_for`. -/
def updateIndexesFor (op : MutationOp) (offset payloadLen : Nat) (foreshadow : Bool) :
    EngineM σ Unit :=
  match op with
  | .nodeInsert n =>
      modify fun e =>
        { e with nodeIndex := e.nodeIndex.insert n.id ⟨offset, payloadLen, foreshadow⟩ }
  | .edgeInsert d =>
      modify fun e =>
        { e with
          edgeIndex := e.edgeIndex.insert d.id ⟨offset, payloadLen, foreshadow⟩
          edgeByLabel := Buckets.add e.edgeByLabel d.label d.id
          edgesByFrom := Buckets.add e.edgesByFrom d.fromId d.id
          edgesByTo := Buckets.add e.edgesByTo d.toId d.id }
  | .nodeDelete id => modify fun e => { e with nodeIndex := e.nodeIndex.erase id }
  | .edgeDelete id => do
      let e ← get
      match e.edgeIndex.lookup id with
      | none => pure ()
      | some entry => do
          set { e with edgeIndex := e.edgeIndex.erase id }
          removeEdgeFromIndexes P id entry
  | .schemaApply s => modify fun e => { e with currentSchema := some s }

/-! ## Recovery -/

/-- `Engine::apply_recovered`. -/
def applyRecovered (m : Mutation) (offset payloadLen : Nat) : EngineM σ Unit :=
  updateIndexesFor P m.op offset payloadLen m.foreshadow

/-- The replay loop of `Engine::recover` from `cursor` on, with everything before `lastGood` already
applied. The result is `none` when the loop returned from `recover` itself, after truncating a
record that promises more bytes than the store holds, and the loop variables when it ended or was
left by a `break`. Every turn that continues moves the cursor by at least four bytes, so `total`
turns are enough. -/
def recoverLoop (total : Nat) : Nat → Nat → Nat → EngineM σ (Option (Nat × Nat))
  | 0, cursor, lastGood => pure (some (cursor, lastGood))
  | fuel + 1, cursor, lastGood =>
      if cursor < total then
        if total - cursor < lenPrefixBytes then pure (some (cursor, lastGood))
        else do
          let lenBytes ← liftStorage (Storage.readAt cursor lenPrefixBytes)
          let payloadLen := fromLe32 lenBytes
          let totalRecord := lenPrefixBytes + payloadLen
          if total - cursor < totalRecord then do
            liftStorage (Storage.truncate lastGood)
            pure none
          else do
            let frame ← liftStorage (Storage.readAt cursor totalRecord)
            match decodeFramed P frame with
            | .ok (some (mutation, _)) => do
                applyRecovered P mutation cursor payloadLen
                modify fun e =>
                  if e.nextLocalSeq ≤ mutation.localSeq then
                    { e with nextLocalSeq := mutation.localSeq + 1 }
                  else e
                recoverLoop total fuel (cursor + totalRecord) (cursor + totalRecord)
            | .ok none => pure (some (cursor, lastGood))
            | .error source => throw (.recovery cursor source)
      else pure (some (cursor, lastGood))

/-- `Engine::recover`. -/
def recover : EngineM σ Unit := do
  let e ← get
  let total := Storage.len e.storage
  match ← recoverLoop P total total headerLen headerLen with
  | none => pure ()
  | some (cursor, lastGood) =>
      if cursor < total then liftStorage (Storage.truncate lastGood) else pure ()

/-- The engine `open_with` builds before it recovers. -/
def blank (actor : ActorId) (s : σ) : Engine σ :=
  { storage := s
    nodeIndex := ∅
    edgeIndex := ∅
    edgeByLabel := ∅
    edgesByFrom := ∅
    edgesByTo := ∅
    actor := actor
    nextLocalSeq := 1
    mutationLog := none
    currentSchema := none }

/-- `Engine::open_with`. Of the configuration only the identity reaches the modelled state. -/
def openWith (actor : ActorId) (s : σ) : Except EngineError (Engine σ) :=
  match recover P (blank actor s) with
  | .ok _ e => .ok e
  | .error err _ => .error err

/-- `Engine::open`: `FileStorage::open` on the path, then `open_with`. -/
def openPath (actor : ActorId) (path : String) (file : File) (plan : IoPlan) :
    Except EngineError (Engine FileStorage) :=
  match FileStorage.openFile path file plan with
  | .ok s => openWith P actor s
  | .error err => .error (.storage err)

/-- `Engine::open_in_memory`. -/
def openInMemory (actor : ActorId) : Except EngineError (Engine MemoryStorage) :=
  openWith P actor MemoryStorage.new

/-- `Engine::with_mutation_log`. -/
def withMutationLog (e : Engine σ) (log : MutationLog) : Engine σ :=
  { e with mutationLog := some log }

/-! ## Committing -/

/-- `Engine::commit`. The sequence number is taken before anything can fail. -/
def commit (op : MutationOp) : EngineM σ Unit := do
  let e ← get
  set { e with nextLocalSeq := e.nextLocalSeq + 1 }
  let m : Mutation :=
    { localSeq := e.nextLocalSeq, actor := e.actor, foreshadow := true, op := op }
  let frame ← liftRecord (encodeFramed P m)
  let offset ← liftStorage (Storage.append frame)
  updateIndexesFor P m.op offset (frame.length - lenPrefixBytes) m.foreshadow
  modify fun e => { e with mutationLog := e.mutationLog.map fun log => log.record m }

/-- `Engine::validate_label`. -/
def validateLabel (label : String) (e : Engine σ) : Except EngineError Unit :=
  match e.currentSchema with
  | none => .ok ()
  | some schema =>
      if schema.hasLabel label then .ok () else .error (.schemaUnknown label schema.version)

/-- The first declared property, in key order, whose value disagrees with its type. -/
def firstMismatch (properties : Properties) :
    List (String × PropertyType) → Option (String × PropertyType × Value)
  | [] => none
  | (name, declared) :: rest =>
      match properties[name]? with
      | some value =>
          if declared.matches value then firstMismatch properties rest
          else some (name, declared, value)
      | none => firstMismatch properties rest

/-- `Engine::validate_properties`. -/
def validateProperties (label : String) (properties : Properties) (e : Engine σ) :
    Except EngineError Unit :=
  match e.currentSchema with
  | none => .ok ()
  | some schema =>
      match schema.table label with
      | none => .ok ()
      | some table =>
          match firstMismatch properties table.properties.toList with
          | none => .ok ()
          | some (name, declared, value) =>
              .error (.schemaPropertyTypeMismatch label name declared value.typeName
                schema.version)

/-- `Engine::insert_node`. -/
def insertNode (node : Node) : EngineM σ Unit := do
  let e ← get
  if node.id ∈ e.nodeIndex then throw (.duplicateId node.id)
  else do
    liftCheck (validateLabel node.label)
    liftCheck (validateProperties node.label node.properties)
    commit P (.nodeInsert node)

/-- `Engine::insert_edge`. -/
def insertEdge (edge : Edge) : EngineM σ Unit := do
  let e ← get
  if edge.id ∈ e.edgeIndex then throw (.duplicateId edge.id)
  else if !e.hasNode edge.fromId then throw (.missingNode edge.fromId)
  else if !e.hasNode edge.toId then throw (.missingNode edge.toId)
  else do
    liftCheck (validateLabel edge.label)
    liftCheck (validateProperties edge.label edge.properties)
    commit P (.edgeInsert edge)

/-- `Engine::apply_schema`. -/
def applySchema (schema : Schema) : EngineM σ Unit := commit P (.schemaApply schema)

/-- `Engine::delete_node`. -/
def deleteNode (id : String) : EngineM σ Bool := do
  let e ← get
  if !e.hasNode id then pure false
  else do
    commit P (.nodeDelete id)
    pure true

/-- `Engine::delete_edge`. -/
def deleteEdge (id : String) : EngineM σ Bool := do
  let e ← get
  if !e.hasEdge id then pure false
  else do
    commit P (.edgeDelete id)
    pure true

/-- Commit a list of operations in order, stopping at the first error. -/
def commitAll : List MutationOp → EngineM σ Unit
  | [] => pure ()
  | op :: ops => do
      commit P op
      commitAll ops

/-- `Engine::delete_node_with_cascade`: the incident edges first, the node last. -/
def deleteNodeWithCascade (id : String) : EngineM σ (Bool × Nat) := do
  let e ← get
  if !e.hasNode id then pure (false, 0)
  else do
    let incident ← iterEdgesIncidentTo P id
    commitAll P (incident.map fun d => MutationOp.edgeDelete d.id)
    commit P (.nodeDelete id)
    pure (true, incident.length)

/-! ## Replaying to a controller -/

/-- The loop of `Engine::replay_unconfirmed`; the second counter is `replayed`. -/
def replayLoop (total : Nat) : Nat → Nat → Nat → EngineM σ Nat
  | 0, _, replayed => pure replayed
  | fuel + 1, cursor, replayed =>
      if cursor < total then
        if total - cursor < lenPrefixBytes then pure replayed
        else do
          let lenBytes ← liftStorage (Storage.readAt cursor lenPrefixBytes)
          let totalRecord := lenPrefixBytes + fromLe32 lenBytes
          if total - cursor < totalRecord then pure replayed
          else do
            let frame ← liftStorage (Storage.readAt cursor totalRecord)
            match ← liftRecord (decodeFramed P frame) with
            | some (mutation, _) =>
                if mutation.foreshadow then do
                  modify fun e => { e with mutationLog := e.mutationLog.map (·.record mutation) }
                  replayLoop total fuel (cursor + totalRecord) (replayed + 1)
                else replayLoop total fuel (cursor + totalRecord) replayed
            | none => replayLoop total fuel (cursor + totalRecord) replayed
      else pure replayed

/-- `Engine::replay_unconfirmed`. -/
def replayUnconfirmed : EngineM σ Nat := do
  let e ← get
  if e.mutationLog.isNone then pure 0
  else replayLoop P (Storage.len e.storage) (Storage.len e.storage) headerLen 0

end Engine

end Morceau
