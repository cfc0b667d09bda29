import Morceau.Platform
import Morceau.Storage

/-!
# On-disk records

The framing codec of `record.rs`. The payload codec (bincode 2 with its standard configuration) is
not part of the repository and comes from the parameter `Platform`; the one fact the engine relies
on, that decoding an encoded mutation gives the mutation back, is its field `decode_encode`.

`encodeFramed` puts the payload length before the payload, and refuses a payload whose length does
not fit 32 bits. `Platform.frameOf` is the frame of a mutation that encodes, and `encodeLog` is the
byte image of a list of mutations.
-/

set_option autoImplicit false

namespace Morceau

open Lib

/-- `RecordError`. -/
inductive RecordError where
  | lengthOverflow (len : Nat)
  | encode (err : EncodeError)
  | decode (err : DecodeError)
deriving DecidableEq, Repr

/-- Length-prefix framing constant. -/
def lenPrefixBytes : Nat := 4

/-- `encode_framed`. -/
def encodeFramed (P : Platform) (m : Mutation) : Except RecordError Bytes :=
  match P.encode m with
  | .error err => .error (.encode err)
  | .ok payload =>
      if payload.length < 2 ^ 32 then .ok (le32 payload.length ++ payload)
      else .error (.lengthOverflow payload.length)

/-- `decode_framed`. -/
def decodeFramed (P : Platform) (bytes : Bytes) : Except RecordError (Option (Mutation × Nat)) :=
  if bytes.isEmpty then .ok none
  else if bytes.length < lenPrefixBytes then
    .error (.decode (.unexpectedEnd (lenPrefixBytes - bytes.length)))
  else
    if bytes.length < lenPrefixBytes + fromLe32 bytes then
      .error (.decode (.unexpectedEnd (lenPrefixBytes + fromLe32 bytes - bytes.length)))
    else
      match P.decode (slice lenPrefixBytes (fromLe32 bytes) bytes) with
      | .error err => .error (.decode err)
      | .ok mutation => .ok (some (mutation, lenPrefixBytes + fromLe32 bytes))

/-- The mutation encodes into a frame. -/
def Platform.Encodable (P : Platform) (m : Mutation) : Prop := ∃ b, encodeFramed P m = .ok b

/-- The frame of a mutation; empty when it does not encode. -/
def Platform.frameOf (P : Platform) (m : Mutation) : Bytes :=
  match encodeFramed P m with
  | .ok b => b
  | .error _ => []

/-- The byte image of a log, without the header. -/
def encodeLog (P : Platform) (log : List Mutation) : Bytes := (log.map P.frameOf).flatten

variable {P : Platform}

theorem encodeFramed_eq_ok {m : Mutation} {b : Bytes} (h : encodeFramed P m = .ok b) :
    ∃ payload, P.encode m = .ok payload ∧ payload.length < 2 ^ 32 ∧ b = frame payload := by
  unfold encodeFramed at h
  split at h
  · cases h
  · rename_i payload hp
    split at h
    · cases h
      exact ⟨payload, hp, by assumption, rfl⟩
    · cases h

theorem frameOf_of_ok {m : Mutation} {b : Bytes} (h : encodeFramed P m = .ok b) :
    P.frameOf m = b := by
  simp [Platform.frameOf, h]

namespace Platform.Encodable

theorem isFrame {m : Mutation} (h : P.Encodable m) : IsFrame (P.frameOf m) := by
  obtain ⟨b, hb⟩ := h
  obtain ⟨payload, -, hlt, rfl⟩ := encodeFramed_eq_ok hb
  exact ⟨payload, hlt, frameOf_of_ok hb⟩

theorem four_le {m : Mutation} (h : P.Encodable m) : 4 ≤ (P.frameOf m).length := h.isFrame.four_le

/-- Decoding the frame of a mutation gives the mutation back and consumes the whole frame. -/
theorem decodeFramed_frameOf {m : Mutation} (h : P.Encodable m) :
    decodeFramed P (P.frameOf m) = .ok (some (m, (P.frameOf m).length)) := by
  obtain ⟨b, hb⟩ := h
  obtain ⟨payload, hp, hlt, rfl⟩ := encodeFramed_eq_ok hb
  rw [frameOf_of_ok hb]
  have hlen : fromLe32 (frame payload) = payload.length := by
    have := fromLe32_frame_append hlt []
    rwa [List.append_nil] at this
  have hslice : slice lenPrefixBytes payload.length (frame payload) = payload := by
    have := slice_append_middle (le32 payload.length) payload []
    rwa [List.append_nil] at this
  have hne : (frame payload).isEmpty = false := by simp [frame, le32]
  unfold decodeFramed
  rw [hlen, hslice, hne, P.decode_encode hp, length_frame]
  simp [lenPrefixBytes]

end Platform.Encodable

@[simp] theorem encodeLog_nil : encodeLog P [] = [] := rfl

@[simp] theorem encodeLog_cons (m : Mutation) (log : List Mutation) :
    encodeLog P (m :: log) = P.frameOf m ++ encodeLog P log := rfl

@[simp] theorem encodeLog_append (log log' : List Mutation) :
    encodeLog P (log ++ log') = encodeLog P log ++ encodeLog P log' := by
  simp [encodeLog]

/-- The bytes of a log determine its records: frames are self-delimiting. -/
theorem encodeLog_inj {log : List Mutation} (henc : ∀ m ∈ log, P.Encodable m) :
    ∀ {log' : List Mutation}, (∀ m ∈ log', P.Encodable m) → encodeLog P log = encodeLog P log' →
      log = log' := by
  induction log with
  | nil =>
      intro log' henc' h
      cases log' with
      | nil => rfl
      | cons m' log' =>
          have h4 := (henc' m' (List.mem_cons_self ..)).four_le
          have hlen := congrArg List.length h
          simp only [encodeLog_nil, encodeLog_cons, List.length_nil, List.length_append] at hlen
          omega
  | cons m log ih =>
      intro log' henc' h
      have hm := henc m (List.mem_cons_self ..)
      cases log' with
      | nil =>
          have h4 := hm.four_le
          have hlen := congrArg List.length h
          simp only [encodeLog_nil, encodeLog_cons, List.length_nil, List.length_append] at hlen
          omega
      | cons m' log' =>
          have hm' := henc' m' (List.mem_cons_self ..)
          rw [encodeLog_cons, encodeLog_cons] at h
          have hlen : (P.frameOf m).length = (P.frameOf m').length := by
            rw [hm.isFrame.length_eq (encodeLog P log), hm'.isFrame.length_eq (encodeLog P log'), h]
          obtain ⟨hframe, hrest⟩ := List.append_inj h hlen
          have hdec := hm.decodeFramed_frameOf
          rw [hframe, hm'.decodeFramed_frameOf] at hdec
          obtain rfl : m = m' := by
            injection hdec with hdec
            injection hdec with hdec
            exact (Prod.mk.inj hdec).1.symm
          rw [ih (fun x hx => henc x (List.mem_cons_of_mem _ hx))
            (fun x hx => henc' x (List.mem_cons_of_mem _ hx)) hrest]

end Morceau
