import Morceau.Engine.Recovery

/-!
# Recovery on a 32-bit and on a 64-bit target

`Engine::recover` computes with `usize`, which has 64 bits on native targets and 32 bits on wasm32,
where a release build wraps. Three of its numbers depend on the width: what is left of the store,
`(total - cursor) as usize`; the size of a record, `LEN_PREFIX_BYTES + payload_len as usize`; and
the same sum in `read_op_at` and in `decode_framed`. `AtWidth` are the functions on the way from
`open_with` down, with these numbers wrapped.

At 64 bits nothing wraps, and the functions are those of `Engine` (`AtWidth.openWith_native64`). At
either width, and whatever the store holds, recovery reads only inside the store
(`AtWidth.recover_reads_inside`): a `Watched` store notes when a read goes past its end.
-/

set_option autoImplicit false

namespace Morceau

open Lib LawfulStorage

/-! ## The two targets -/

/-- The targets the crate is built for, by the width of `usize`. -/
inductive PointerWidth where
  | wasm32
  | native64
deriving DecidableEq, Repr

namespace PointerWidth

/-- The number of bits of `usize`. -/
def bits : PointerWidth → Nat
  | .wasm32 => 32
  | .native64 => 64

/-- A number as a `usize` of a release build. -/
def usize (w : PointerWidth) (n : Nat) : Nat := n % 2 ^ w.bits

theorem usize_of_lt {w : PointerWidth} {n : Nat} (h : n < 2 ^ w.bits) : w.usize n = n :=
  Nat.mod_eq_of_lt h

theorem usize_le (w : PointerWidth) (n : Nat) : w.usize n ≤ n := Nat.mod_le _ _

theorem two_pow_32_le (w : PointerWidth) : 2 ^ 32 ≤ 2 ^ w.bits := by
  cases w with
  | wasm32 => exact le_refl _
  | native64 => decide

end PointerWidth

/-! ## The functions below `open_with` -/

namespace AtWidth

/-- `decode_framed`. A total that has wrapped below the length of the prefix makes the slice of the
payload panic, which is an error here. Recovery does not get there: what it decodes is as long as
the wrapped total. -/
def decodeFramed (w : PointerWidth) (P : Platform) (bytes : Bytes) :
    Except RecordError (Option (Mutation × Nat)) :=
  if bytes.isEmpty then .ok none
  else if bytes.length < lenPrefixBytes then
    .error (.decode (.unexpectedEnd (lenPrefixBytes - bytes.length)))
  else
    let total := w.usize (lenPrefixBytes + fromLe32 bytes)
    if bytes.length < total then
      .error (.decode (.unexpectedEnd (total - bytes.length)))
    else if total < lenPrefixBytes then
      .error (.decode (.other "slice index starts past its end"))
    else
      match P.decode (slice lenPrefixBytes (total - lenPrefixBytes) bytes) with
      | .error err => .error (.decode err)
      | .ok mutation => .ok (some (mutation, total))

variable {σ : Type} [Storage σ] (w : PointerWidth) (P : Platform)

/-- `Engine::read_op_at`. -/
def readOpAt (entry : IndexEntry) : EngineM σ (Option MutationOp) := do
  let frameLen := w.usize (lenPrefixBytes + entry.payloadLen)
  let bytes ← Engine.liftStorage (Storage.readAt entry.offset frameLen)
  match ← Engine.liftRecord (decodeFramed w P bytes) with
  | none =>
      throw (.recovery entry.offset (.decode (.other "indexed mutation decoded to None")))
  | some (mutation, _) => pure (some mutation.op)

/-- `Engine::remove_edge_from_indexes`. -/
def removeEdgeFromIndexes (id : String) (entry : IndexEntry) : EngineM σ Unit := do
  match ← readOpAt w P entry with
  | some (.edgeInsert d) =>
      modify fun e =>
        { e with
          edgeByLabel := dropFromIndex e.edgeByLabel d.label id
          edgesByFrom := dropFromIndex e.edgesByFrom d.fromId id
          edgesByTo := dropFromIndex e.edgesByTo d.toId id }
  | _ =>
      throw (.recovery entry.offset
        (.decode (.other "edge_index entry did not decode to an EdgeInsert")))

/-- `Engine::update_indexes_for`. Only the delete of a live edge reads the store. -/
def updateIndexesFor (op : MutationOp) (offset payloadLen : Nat) (foreshadow : Bool) :
    EngineM σ Unit :=
  match op with
  | .edgeDelete id => do
      let e ← get
      match e.edgeIndex.lookup id with
      | none => pure ()
      | some entry => do
          set { e with edgeIndex := e.edgeIndex.erase id }
          removeEdgeFromIndexes w P id entry
  | op => Engine.updateIndexesFor P op offset payloadLen foreshadow

/-- `Engine::apply_recovered`. -/
def applyRecovered (m : Mutation) (offset payloadLen : Nat) : EngineM σ Unit :=
  updateIndexesFor w P m.op offset payloadLen m.foreshadow

/-- The replay loop of `Engine::recover`, as `Engine.recoverLoop` models it. -/
def recoverLoop (total : Nat) : Nat → Nat → Nat → EngineM σ (Option (Nat × Nat))
  | 0, cursor, lastGood => pure (some (cursor, lastGood))
  | fuel + 1, cursor, lastGood =>
      if cursor < total then
        if w.usize (total - cursor) < lenPrefixBytes then pure (some (cursor, lastGood))
        else do
          let lenBytes ← Engine.liftStorage (Storage.readAt cursor lenPrefixBytes)
          let payloadLen := fromLe32 lenBytes
          let totalRecord := w.usize (lenPrefixBytes + payloadLen)
          if w.usize (total - cursor) < totalRecord then do
            Engine.liftStorage (Storage.truncate lastGood)
            pure none
          else do
            let frame ← Engine.liftStorage (Storage.readAt cursor totalRecord)
            match decodeFramed w P frame with
            | .ok (some (mutation, _)) => do
                applyRecovered w P mutation cursor payloadLen
                modify fun e =>
                  if e.nextLocalSeq ≤ mutation.localSeq then
                    { e with nextLocalSeq := mutation.localSeq + 1 }
                  else e
                recoverLoop total fuel (cursor + totalRecord) (cursor + totalRecord)
            | .ok none => pure (some (cursor, lastGood))
            | .error source => throw (.recovery cursor source)
      else pure (some (cursor, lastGood))

/-- `Engine::recover`. -/
def recover : EngineM σ Unit := do
  let e ← get
  let total := Storage.len e.storage
  match ← recoverLoop w P total total headerLen headerLen with
  | none => pure ()
  | some (cursor, lastGood) =>
      if cursor < total then Engine.liftStorage (Storage.truncate lastGood) else pure ()

/-- `Engine::open_with`. -/
def openWith (actor : ActorId) (s : σ) : Except EngineError (Engine σ) :=
  match recover w P (Engine.blank actor s) with
  | .ok _ e => .ok e
  | .error err _ => .error err

end AtWidth

/-! ## Where nothing wraps -/

namespace AtWidth

variable {w : PointerWidth} {P : Platform}

/-- Bytes whose prefix promises a record that fits `usize` are decoded alike. -/
theorem decodeFramed_of_lt {bytes : Bytes} (h : lenPrefixBytes + fromLe32 bytes < 2 ^ w.bits) :
    decodeFramed w P bytes = Morceau.decodeFramed P bytes := by
  unfold decodeFramed Morceau.decodeFramed
  rewrite [PointerWidth.usize_of_lt h]
  dsimp only
  rewrite [Nat.add_sub_cancel_left,
    if_neg (show ¬ lenPrefixBytes + fromLe32 bytes < lenPrefixBytes by omega)]
  rfl

theorem decodeFramed_nil : decodeFramed w P [] = .ok none := rfl

/-- Fewer bytes than a length prefix do not decode. -/
theorem decodeFramed_short {bytes : Bytes} (hne : bytes ≠ []) (hlt : bytes.length < 4) :
    ∃ err, decodeFramed w P bytes = .error err := by
  refine ⟨.decode (.unexpectedEnd (lenPrefixBytes - bytes.length)), ?_⟩
  unfold decodeFramed
  rw [if_neg (by simpa using hne), if_pos (by simpa [lenPrefixBytes] using hlt)]

/-! ## What publishing a record does to the edge index and the backend -/

/-- Every entry of the edge index satisfies `p`, and the backend satisfies `S`. -/
structure Guarded {σ : Type} (p : IndexEntry → Prop) (S : σ → Prop) (e : Engine σ) : Prop where
  entries : ∀ id entry, e.edgeIndex.lookup id = some entry → p entry
  storage : S e.storage

section Guarded

variable {σ : Type}

/-- A storage call moves the backend only. -/
theorem finalState_liftStorage {α : Type} (x : EStateM StorageError σ α) (e : Engine σ) :
    finalState (Engine.liftStorage x e) = { e with storage := finalState (x e.storage) } := by
  unfold Engine.liftStorage
  cases x e.storage with
  | ok a s' => rfl
  | error err s' => rfl

/-- A storage call that keeps `S` keeps the guard. -/
theorem Guarded.liftStorage {α : Type} {p : IndexEntry → Prop} {S : σ → Prop} {e e' : Engine σ}
    (h : Guarded p S e) {x : EStateM StorageError σ α} (hx : S (finalState (x e.storage)))
    (hr : finalState (Engine.liftStorage x e) = e') : Guarded p S e' := by
  rw [← hr, finalState_liftStorage]
  exact ⟨h.entries, hx⟩

/-- The sequence counter is outside the guard. -/
theorem Guarded.seenSeq {p : IndexEntry → Prop} {S : σ → Prop} {e : Engine σ} (h : Guarded p S e)
    (m : Mutation) : Guarded p S (seenSeq m e) := by
  unfold Morceau.seenSeq
  split
  · exact ⟨h.entries, h.storage⟩
  · exact h

variable [Storage σ]

/-- The backend after the read of the record at `entry`. -/
def afterRead (w : PointerWidth) (entry : IndexEntry) (s : σ) : σ :=
  finalState (Storage.readAt entry.offset (w.usize (lenPrefixBytes + entry.payloadLen)) s)

/-- `Engine::read_op_at` makes one read. -/
theorem finalState_readOpAt (entry : IndexEntry) (e : Engine σ) :
    finalState (readOpAt w P entry e) = { e with storage := afterRead w entry e.storage } := by
  unfold readOpAt afterRead
  cases hr : Storage.readAt entry.offset (w.usize (lenPrefixBytes + entry.payloadLen))
      e.storage with
  | error err s' =>
      rw [bind_of_error (Engine.liftStorage_of_error hr)]
      rfl
  | ok bytes s' =>
      rw [bind_of_ok (Engine.liftStorage_of_ok hr)]
      cases hd : decodeFramed w P bytes with
      | error err => rfl
      | ok decoded =>
          cases decoded with
          | none => rfl
          | some p => rfl

variable {p : IndexEntry → Prop} {S : σ → Prop} {e : Engine σ}

/-- The read of an edge's record, and then a change of the secondary indexes only. -/
theorem Guarded.removeEdgeFromIndexes (h : Guarded p S e) {id : String} {entry : IndexEntry}
    (hread : S (afterRead w entry e.storage)) :
    Guarded p S (finalState (removeEdgeFromIndexes w P id entry e)) := by
  have hrest := finalState_readOpAt (w := w) (P := P) entry e
  unfold AtWidth.removeEdgeFromIndexes
  cases hr : readOpAt w P entry e with
  | error err e' =>
      rw [hr] at hrest
      rw [bind_of_error hr, finalState_error, show e' = _ from hrest]
      exact ⟨h.entries, hread⟩
  | ok op e' =>
      rw [hr] at hrest
      rw [bind_of_ok hr, show e' = _ from hrest]
      split
      · exact ⟨h.entries, hread⟩
      · exact ⟨h.entries, hread⟩

/-- Publishing a record at a place that satisfies `p` keeps the guard, if the reads at such places
keep `S`. -/
theorem Guarded.updateIndexesFor (h : Guarded p S e)
    (hread : ∀ entry, p entry → ∀ s, S s → S (afterRead w entry s))
    (op : MutationOp) {offset payloadLen : Nat} {foreshadow : Bool}
    (hp : p ⟨offset, payloadLen, foreshadow⟩) :
    Guarded p S (finalState (updateIndexesFor w P op offset payloadLen foreshadow e)) := by
  have herase : ∀ id id' entry,
      (e.edgeIndex.erase id).lookup id' = some entry → p entry := by
    intro id id' entry hl
    by_cases hid : id' = id
    · rw [hid, AList.lookup_erase] at hl
      cases hl
    · rw [AList.lookup_erase_ne hid] at hl
      exact h.entries id' entry hl
  cases op with
  | nodeInsert n => exact ⟨h.entries, h.storage⟩
  | nodeDelete id => exact ⟨h.entries, h.storage⟩
  | schemaApply s => exact ⟨h.entries, h.storage⟩
  | edgeInsert d =>
      refine ⟨fun id entry hl => ?_, h.storage⟩
      have hl' : (e.edgeIndex.insert d.id ⟨offset, payloadLen, foreshadow⟩).lookup id =
        some entry := hl
      by_cases hid : id = d.id
      · rw [hid, AList.lookup_insert] at hl'
        cases hl'
        exact hp
      · rw [AList.lookup_insert_ne hid] at hl'
        exact h.entries id entry hl'
  | edgeDelete id =>
      -- the only case that reads the store, at the entry that was removed
      simp only [AtWidth.updateIndexesFor]
      rw [bind_of_ok (get_apply e)]
      cases hl : e.edgeIndex.lookup id with
      | none => exact h
      | some entry =>
          simp only
          rw [bind_of_ok (set_apply _ _)]
          have herased : Guarded p S { e with edgeIndex := e.edgeIndex.erase id } :=
            ⟨herase id, h.storage⟩
          exact herased.removeEdgeFromIndexes (hread entry (h.entries id entry hl) _ h.storage)

end Guarded

/-! ## The 64-bit target -/

section Native

variable {σ : Type}

theorem lt_native64 {n : Nat} (h : n < 2 ^ 32) :
    lenPrefixBytes + n < 2 ^ PointerWidth.native64.bits := by
  simp only [lenPrefixBytes, PointerWidth.bits]
  omega

theorem decodeFramed_native64 : decodeFramed .native64 P = Morceau.decodeFramed P :=
  funext fun bytes => decodeFramed_of_lt (lt_native64 (fromLe32_lt bytes))

/-- Every entry of the edge index has the length of a `u32`. -/
abbrev SmallEntries (e : Engine σ) : Prop :=
  Guarded (fun entry => entry.payloadLen < 2 ^ 32) (fun _ => True) e

theorem removeEdgeFromIndexes_native64 [Storage σ] (id : String) {entry : IndexEntry}
    (h : entry.payloadLen < 2 ^ 32) :
    (removeEdgeFromIndexes .native64 P id entry : EngineM σ Unit) =
      Engine.removeEdgeFromIndexes P id entry := by
  have hread : (readOpAt .native64 P entry : EngineM σ _) = Engine.readOpAt P entry := by
    unfold readOpAt Engine.readOpAt
    rewrite [PointerWidth.usize_of_lt (lt_native64 h), decodeFramed_native64]
    rfl
  unfold removeEdgeFromIndexes Engine.removeEdgeFromIndexes
  rewrite [hread]
  rfl

theorem updateIndexesFor_native64 [Storage σ] {e : Engine σ} (h : SmallEntries e)
    (op : MutationOp) (offset payloadLen : Nat) (foreshadow : Bool) :
    updateIndexesFor .native64 P op offset payloadLen foreshadow e =
      Engine.updateIndexesFor P op offset payloadLen foreshadow e := by
  cases op with
  | nodeInsert n => rfl
  | edgeInsert d => rfl
  | nodeDelete id => rfl
  | schemaApply s => rfl
  | edgeDelete id =>
      simp only [updateIndexesFor, Engine.updateIndexesFor]
      rw [bind_of_ok (get_apply e), bind_of_ok (get_apply e)]
      cases hl : e.edgeIndex.lookup id with
      | none => rfl
      | some entry =>
          simp only
          rw [removeEdgeFromIndexes_native64 id (h.entries id entry hl)]

theorem recoverLoop_native64 [Storage σ] {total : Nat} (ht : total < 2 ^ 64) (fuel : Nat) :
    ∀ (cursor lastGood : Nat) {e : Engine σ}, SmallEntries e →
      recoverLoop .native64 P total fuel cursor lastGood e =
        Engine.recoverLoop P total fuel cursor lastGood e := by
  induction fuel with
  | zero => exact fun _ _ _ _ => rfl
  | succ fuel ih =>
      intro cursor lastGood e h
      have hleft : PointerWidth.native64.usize (total - cursor) = total - cursor := by
        refine PointerWidth.usize_of_lt ?_
        simp only [PointerWidth.bits]
        omega
      rw [recoverLoop, Engine.recoverLoop, hleft]
      by_cases hc : cursor < total
      case neg => rw [if_neg hc, if_neg hc]
      rw [if_pos hc, if_pos hc]
      by_cases h4 : total - cursor < lenPrefixBytes
      case pos => rw [if_pos h4, if_pos h4]
      rw [if_neg h4, if_neg h4]
      refine bind_congr_at rfl fun lenBytes e1 hr => ?_
      have h1 : SmallEntries e1 := h.liftStorage trivial (congrArg finalState hr)
      rewrite [PointerWidth.usize_of_lt (lt_native64 (fromLe32_lt lenBytes))]
      by_cases htorn : total - cursor < lenPrefixBytes + fromLe32 lenBytes
      case pos => rw [if_pos htorn, if_pos htorn]
      rw [if_neg htorn, if_neg htorn]
      refine bind_congr_at rfl fun frame e2 hf => ?_
      have h2 : SmallEntries e2 := h1.liftStorage trivial (congrArg finalState hf)
      rw [decodeFramed_native64]
      cases Morceau.decodeFramed P frame with
      | error err => rfl
      | ok decoded =>
          cases decoded with
          | none => rfl
          | some r =>
              -- the record is published alike, and its entry has the length of a `u32`
              have hpub : applyRecovered .native64 P r.1 cursor (fromLe32 lenBytes) e2 =
                  Engine.applyRecovered P r.1 cursor (fromLe32 lenBytes) e2 :=
                updateIndexesFor_native64 h2 _ _ _ _
              have h3 : SmallEntries (finalState
                  (applyRecovered .native64 P r.1 cursor (fromLe32 lenBytes) e2)) :=
                h2.updateIndexesFor (fun _ _ _ _ => trivial) _ (fromLe32_lt lenBytes)
              refine bind_congr_at hpub fun u e3 ha => ?_
              rw [hpub, ha] at h3
              exact ih _ _ (h3.seenSeq r.1)

/-- On a 64-bit target recovery is the recovery of `Engine`. -/
theorem openWith_native64 {σ : Type} [LawfulStorage σ] (actor : ActorId) (s : σ) :
    openWith .native64 P actor s = Engine.openWith P actor s := by
  have hsmall : SmallEntries (Engine.blank actor s) := by
    refine ⟨fun id entry hl => ?_, trivial⟩
    cases hl
  have hloop := recoverLoop_native64 (P := P) (len_lt s) (Storage.len s) headerLen headerLen hsmall
  have hrecover : recover .native64 P (Engine.blank actor s) =
      Engine.recover P (Engine.blank actor s) := by
    unfold recover Engine.recover
    rw [bind_of_ok (get_apply _), bind_of_ok (get_apply _)]
    refine bind_congr_at hloop fun r e _ => ?_
    cases r with
    | none => rfl
    | some r => rfl
  unfold openWith Engine.openWith
  rewrite [hrecover]
  rfl

end Native

end AtWidth

/-! ## Reads stay inside the store -/

/-- A backend that notes whether a read went past its end. -/
structure Watched (σ : Type) where
  inner : σ
  past : Bool

namespace Watched

variable {σ : Type}

/-- Run a call of the backend below, and note what `past` says of it. -/
def call {α : Type} (past : σ → Bool) (x : EStateM StorageError σ α) :
    EStateM StorageError (Watched σ) α := fun s =>
  match x s.inner with
  | .ok a t => .ok a ⟨t, s.past || past s.inner⟩
  | .error err t => .error err ⟨t, s.past || past s.inner⟩

theorem finalState_call {α : Type} (past : σ → Bool) (x : EStateM StorageError σ α)
    (s : Watched σ) :
    finalState (call past x s) = ⟨finalState (x s.inner), s.past || past s.inner⟩ := by
  unfold call
  cases x s.inner with
  | ok a t => rfl
  | error err t => rfl

instance [Storage σ] : Storage (Watched σ) where
  append b := call (fun _ => false) (Storage.append b)
  readAt o n := call (fun s => decide (Storage.len s < o + n)) (Storage.readAt o n)
  len s := Storage.len s.inner
  truncate n := call (fun _ => false) (Storage.truncate n)

variable [LawfulStorage σ]

/-- Nothing was read past the end, and the store is `total` bytes long. -/
def Inside (total : Nat) (s : Watched σ) : Prop :=
  s.past = false ∧ Storage.len s.inner = total

theorem Inside.readAt {total : Nat} {s : Watched σ} (h : Inside total s) {o n : Nat}
    (hle : o + n ≤ total) : Inside total (finalState (Storage.readAt o n s)) := by
  have hlen : Storage.len (finalState (Storage.readAt o n s.inner)) = total := by
    rw [← h.2, len_eq, len_eq]
    cases hr : Storage.readAt o n s.inner with
    | ok bs t => exact congrArg List.length (readAt_ok hr).1
    | error err t => exact congrArg List.length (readAt_error hr).1
  show Inside total (finalState (call _ _ s))
  rw [finalState_call]
  refine ⟨?_, hlen⟩
  rw [h.1, h.2, Bool.false_or, decide_eq_false_iff_not]
  omega

theorem past_truncate (n : Nat) (s : Watched σ) :
    (finalState (Storage.truncate n s)).past = s.past := by
  show (finalState (call _ _ s)).past = _
  rw [finalState_call, Bool.or_false]

end Watched

namespace AtWidth

variable {w : PointerWidth} {P : Platform} {σ : Type} [LawfulStorage σ]

/-- The edge index points into a store of `total` bytes, past whose end nothing was read. -/
abbrev ReadsInside (w : PointerWidth) (total : Nat) (e : Engine (Watched σ)) : Prop :=
  Guarded (fun entry => entry.offset + w.usize (lenPrefixBytes + entry.payloadLen) ≤ total)
    (Watched.Inside total) e

theorem past_liftStorage_truncate (n : Nat) (e : Engine (Watched σ)) :
    (finalState (Engine.liftStorage (Storage.truncate n) e)).storage.past = e.storage.past := by
  rw [finalState_liftStorage]
  exact Watched.past_truncate n e.storage

theorem recoverLoop_reads_inside {total : Nat} (fuel : Nat) :
    ∀ (cursor lastGood : Nat) {e : Engine (Watched σ)}, ReadsInside w total e →
      (finalState (recoverLoop w P total fuel cursor lastGood e)).storage.past = false := by
  induction fuel with
  | zero => exact fun _ _ _ h => h.storage.1
  | succ fuel ih =>
      intro cursor lastGood e h
      -- what a wrapped number promises is not more than there is
      have hle := w.usize_le (total - cursor)
      rw [recoverLoop]
      by_cases hc : cursor < total
      case neg =>
        rw [if_neg hc]
        exact h.storage.1
      rw [if_pos hc]
      by_cases h4 : w.usize (total - cursor) < lenPrefixBytes
      case pos =>
        rw [if_pos h4]
        exact h.storage.1
      rw [if_neg h4]
      have h1 := h.storage.readAt (show cursor + lenPrefixBytes ≤ total by omega)
      refine finalState_bind
        (Q := fun e' : Engine (Watched σ) => e'.storage.past = false)
        (fun err e1 hr => (h.liftStorage h1 (congrArg finalState hr)).storage.1)
        fun lenBytes e1 hr => ?_
      replace h1 : ReadsInside w total e1 := h.liftStorage h1 (congrArg finalState hr)
      by_cases htorn : w.usize (total - cursor) < w.usize (lenPrefixBytes + fromLe32 lenBytes)
      case pos =>
        rw [if_pos htorn]
        have hcut : (finalState (Engine.liftStorage (Storage.truncate lastGood) e1)).storage.past =
            false := (past_liftStorage_truncate lastGood e1).trans h1.storage.1
        refine finalState_bind (Q := fun e' : Engine (Watched σ) => e'.storage.past = false)
          (fun err e2 hr => ?_) fun u e2 hr => ?_
        · rwa [hr] at hcut
        · rwa [hr] at hcut
      rw [if_neg htorn]
      have hin : cursor + w.usize (lenPrefixBytes + fromLe32 lenBytes) ≤ total := by omega
      refine finalState_bind (Q := fun e' : Engine (Watched σ) => e'.storage.past = false)
        (fun err e2 hr => (h1.liftStorage (h1.storage.readAt hin)
          (congrArg finalState hr)).storage.1) fun frame e2 hf => ?_
      have h2 : ReadsInside w total e2 :=
        h1.liftStorage (h1.storage.readAt hin) (congrArg finalState hf)
      cases decodeFramed w P frame with
      | error err => exact h2.storage.1
      | ok decoded =>
          cases decoded with
          | none => exact h2.storage.1
          | some r =>
              have h3 : ReadsInside w total (finalState
                  (applyRecovered w P r.1 cursor (fromLe32 lenBytes) e2)) :=
                h2.updateIndexesFor (fun entry hentry s hs => hs.readAt hentry) _ hin
              refine finalState_bind
                (Q := fun e' : Engine (Watched σ) => e'.storage.past = false)
                (fun err e3 hr => ?_) fun u e3 hr => ?_
              · rw [hr] at h3
                exact h3.storage.1
              · rw [hr] at h3
                exact ih _ _ (h3.seenSeq r.1)

/-- Whatever the store holds, recovery reads only inside it. -/
theorem recover_reads_inside (actor : ActorId) (s : σ) :
    (finalState (recover w P (Engine.blank actor (Watched.mk s false)))).storage.past = false := by
  have hblank : ReadsInside w (Storage.len s) (Engine.blank actor (Watched.mk s false)) := by
    refine ⟨fun id entry hl => ?_, rfl, rfl⟩
    cases hl
  have hloop := recoverLoop_reads_inside (P := P) (Storage.len s) headerLen headerLen hblank
  unfold recover
  rw [bind_of_ok (get_apply _)]
  refine finalState_bind (Q := fun e' : Engine (Watched σ) => e'.storage.past = false)
    (fun err e hr => ?_) fun r e hr => ?_
  · exact (congrArg (fun r => (finalState r).storage.past) hr).symm.trans hloop
  · have hpast : e.storage.past = false :=
      (congrArg (fun r => (finalState r).storage.past) hr).symm.trans hloop
    cases r with
    | none => exact hpast
    | some r =>
        dsimp only
        split
        · exact (past_liftStorage_truncate r.2 e).trans hpast
        · exact hpast

end AtWidth

end Morceau
