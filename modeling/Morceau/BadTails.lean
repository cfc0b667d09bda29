import Morceau.CrashRecovery

/-!
# A complete last frame that does not decode

Recovery cuts off a tail that ends before its length prefix, or before the bytes that the prefix
promises. A tail of full length whose payload does not decode takes another exit of the replay loop:
the open fails, and the store cannot be opened again. `undecodable_tail_iff` says which of the two
happens to a tail that is torn or one undecodable frame.
-/

set_option autoImplicit false

namespace Morceau

open Lib LawfulStorage

/-- One complete frame, a length prefix and exactly as many bytes as it says, that does not decode.
-/
structure Undecodable (P : Platform) (tail : Bytes) : Prop where
  four_le : 4 ≤ tail.length
  complete : tail.length = 4 + fromLe32 tail
  error : ∃ err, P.decode (tail.drop 4) = .error err

theorem Undecodable.decodeFramed {P : Platform} {tail : Bytes} (h : Undecodable P tail) :
    ∃ err, Morceau.decodeFramed P tail = .error (.decode err) := by
  obtain ⟨err, herr⟩ := h.error
  have h4 := h.four_le
  have hlen := h.complete
  have hne : ¬ tail.isEmpty = true := by
    intro hempty
    rw [List.isEmpty_iff.1 hempty] at h4
    simp at h4
  have hpayload : slice lenPrefixBytes (fromLe32 tail) tail = tail.drop 4 := by
    rw [slice, lenPrefixBytes, List.take_of_length_le]
    rw [List.length_drop]
    omega
  refine ⟨err, ?_⟩
  unfold Morceau.decodeFramed
  rw [if_neg hne, if_neg (by simp only [lenPrefixBytes]; omega),
    if_neg (by simp only [lenPrefixBytes]; omega), hpayload, herr]

variable {σ : Type} [LawfulStorage σ] {P : Platform}

/-- The turn of the replay loop that meets the frame ends in an error. -/
theorem recoverLoop_undecodable {actor : ActorId} {e : Engine σ} {done : List Mutation}
    {tail : Bytes} (h : Replayed P actor e done tail) (htail : Undecodable P tail) {fuel : Nat}
    (hfuel : tail.length ≤ fuel) :
    ∃ err e', Engine.recoverLoop P (boundary P done + tail.length) fuel (boundary P done)
        (boundary P done) e = .error (.recovery (boundary P done) (.decode err)) e' := by
  have h4 := htail.four_le
  have hlen := htail.complete
  obtain ⟨err, herr⟩ := htail.decodeFramed
  obtain ⟨lenBytes, e1, hr1, hpre, hq1⟩ := read_prefix h.contents h.reliable h4
  have hall : contents e1.storage = storeImage P done (tail ++ []) := by
    rw [List.append_nil]
    exact hq1.contents.trans h.contents
  obtain ⟨e2, hr2, -⟩ := read_at_boundary done hall (hq1.reliable h.reliable)
  -- the frame is complete, so the loop decodes it instead of cutting it off
  have htotal : lenPrefixBytes + fromLe32 lenBytes = tail.length := by
    simp only [lenPrefixBytes, hpre]
    omega
  cases fuel with
  | zero => omega
  | succ fuel =>
      refine ⟨err, e2, ?_⟩
      rw [Engine.recoverLoop, if_pos (by omega), if_neg (by simp only [lenPrefixBytes]; omega),
        bind_of_ok hr1]
      simp only [htotal]
      rw [if_neg (by omega), bind_of_ok hr2, herr]
      rfl

/-- Opening a store that holds a log and then such a frame fails at the frame. -/
theorem openWith_undecodable {s : σ} {log : List Mutation} {tail : Bytes}
    (hc : contents s = storeImage P log tail) (henc : ∀ m ∈ log, P.Encodable m)
    (hwf : WfLog log) (htail : Undecodable P tail) (hrel : Reliable s) (actor : ActorId) :
    ∃ err, Engine.openWith P actor s = .error (.recovery (boundary P log) (.decode err)) := by
  obtain ⟨-, fuel, e, hfuel, h, hloop⟩ := recoverLoop_storeImage hc henc hwf hrel actor
  obtain ⟨err, e', hend⟩ := recoverLoop_undecodable h htail hfuel
  have hrecover : Engine.recover P (Engine.blank actor s) =
      .error (.recovery (boundary P log) (.decode err)) e' := by
    unfold Engine.recover
    rw [bind_of_ok (get_apply _)]
    exact bind_of_error (hloop.trans hend)
  refine ⟨err, ?_⟩
  rw [Engine.openWith, hrecover]

/-- Which tails recovery drops. On the store of a reachable engine followed by a tail that is torn,
or one complete frame that does not decode, opening succeeds, cuts the tail off and restores the
engine exactly if the tail is torn; on the undecodable frame it fails at the offset where the frame
begins. -/
theorem undecodable_tail_iff {e : Engine σ} (h : Reach P e) {s : σ} {tail : Bytes}
    (hs : contents s = contents e.storage ++ tail) (hrel : Reliable s)
    (htail : Torn tail ∨ Undecodable P tail) (actor : ActorId) :
    ((∃ e', Engine.openWith P actor s = .ok e' ∧ Restores e' e) ↔ Torn tail) ∧
      (Undecodable P tail → ∃ err, Engine.openWith P actor s =
        .error (.recovery (contents e.storage).length (.decode err))) := by
  obtain ⟨hist, hrun⟩ := h.run
  obtain ⟨log, hinv, -⟩ := hrun.inv
  have hc : contents s = storeImage P log tail := by
    rw [hs, hinv.contents]
    simp [storeImage]
  have hlen : (contents e.storage).length = boundary P log := by
    rw [hinv.contents, length_storeImage]
    rfl
  have hbad : Undecodable P tail → ∃ err, Engine.openWith P actor s =
      .error (.recovery (contents e.storage).length (.decode err)) := by
    intro hu
    rw [hlen]
    exact openWith_undecodable hc hinv.encodable hinv.wf hu hrel actor
  refine ⟨⟨?_, fun htorn => ?_⟩, hbad⟩
  · rintro ⟨e', hopen, -⟩
    refine htail.resolve_right fun hu => ?_
    obtain ⟨err, herr⟩ := hbad hu
    rw [hopen] at herr
    cases herr
  · obtain ⟨e', hopen, hrec⟩ := openWith_spec hc hinv.encodable hinv.wf htorn hrel actor
    exact ⟨e', hopen, (Inv.of_recovered hrec hinv.numbered hinv.foreshadow).restores hinv⟩

/-- The store of one node followed by four zero bytes: an empty frame. -/
def zeroBlock : MemoryStorage := ⟨oneNode.storage.bytes ++ [0, 0, 0, 0], by decide +kernel⟩

/-- The store cannot be opened: an empty payload is not a mutation. -/
theorem zero_block_is_fatal :
    Reach bincode oneNode ∧ Undecodable bincode [0, 0, 0, 0] ∧
      contents zeroBlock = contents oneNode.storage ++ [0, 0, 0, 0] ∧
      ¬ ∃ e', Engine.openWith bincode ⟨"u", "d"⟩ zeroBlock = .ok e' := by
  have hu : Undecodable bincode [0, 0, 0, 0] := ⟨by decide, by decide, ⟨_, rfl⟩⟩
  refine ⟨reach_oneNode, hu, rfl, ?_⟩
  rintro ⟨e', hopen⟩
  have hfails : (Engine.openWith bincode ⟨"u", "d"⟩ zeroBlock).isOk = false := by decide +kernel
  rw [hopen] at hfails
  cases hfails

/-- A torn tail of the same store is dropped. -/
theorem short_tail_is_dropped :
    Torn [0, 0] ∧ ∃ (s : MemoryStorage) (e' : Engine MemoryStorage),
      s.bytes = oneNode.storage.bytes ++ [0, 0] ∧
      Engine.openWith bincode ⟨"u", "d"⟩ s = .ok e' ∧ Restores e' oneNode := by
  have htorn : Torn [0, 0] := Or.inl (by decide)
  obtain ⟨e', hopen, hres⟩ := ((undecodable_tail_iff reach_oneNode
    (s := ⟨oneNode.storage.bytes ++ [0, 0], by decide +kernel⟩) rfl trivial (Or.inl htorn)
    ⟨"u", "d"⟩).1).2 htorn
  exact ⟨htorn, _, e', rfl, hopen, hres⟩

end Morceau
