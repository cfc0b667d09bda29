import Morceau.Engine.Commit

/-!
# Recovery

`Engine::open_with` on a store that holds a log followed by a torn tail: the replay loop applies
every record of the log (`recoverLoop_frame`, one turn), stops at the tail, and the tail is cut off
(`recoverLoop_torn`). The engine it leaves satisfies the invariant for exactly that log, and its
sequence counter is the one the log determines (`openWith_spec`).

The walk of `Engine::replay_unconfirmed` over the same bytes hands every foreshadow record to the
mutation log, in order, and changes nothing else (`replayUnconfirmed_spec`).
-/

set_option autoImplicit false

namespace Morceau

open Lib LawfulStorage

/-- The offset at which the frames of `log` end. -/
def boundary (P : Platform) (log : List Mutation) : Nat := headerLen + (encodeLog P log).length

theorem boundary_snoc (P : Platform) (log : List Mutation) (m : Mutation) :
    boundary P (log ++ [m]) = boundary P log + (P.frameOf m).length := by
  simp [boundary, Nat.add_assoc]

theorem length_storeImage (P : Platform) (log : List Mutation) (tail : Bytes) :
    (storeImage P log tail).length = boundary P log + tail.length := by
  simp only [storeImage, boundary, List.length_append, length_header]

variable {σ : Type} [LawfulStorage σ] {P : Platform}

/-! ## Reading at the end of what was replayed -/

/-- Reading past the frames of `done` gives the bytes that stand there. -/
theorem read_at_boundary {e : Engine σ} (done : List Mutation) {b more : Bytes}
    (hc : contents e.storage = storeImage P done (b ++ more)) (hrel : Reliable e.storage) :
    ∃ e', Engine.liftStorage (Storage.readAt (boundary P done) b.length) e = .ok b e' ∧
      Quiet e e' := by
  have hlen : boundary P done + b.length ≤ (contents e.storage).length := by
    rw [hc, length_storeImage, List.length_append]
    omega
  obtain ⟨bs, s', hread⟩ := readAt_reliable hrel hlen
  obtain ⟨-, -, hbs⟩ := readAt_ok hread
  have hb : bs = b := by
    rw [hbs hlen, hc, storeImage, boundary]
    have := slice_append_middle (header ++ encodeLog P done) b more
    rwa [List.length_append, length_header] at this
  have hok := Engine.liftStorage_of_ok hread
  exact ⟨_, hb ▸ hok, (Engine.quiet_readAt _ _).ok hok⟩

/-- The two reads of a turn that finds a whole frame: its prefix, then the frame. -/
theorem read_frame {e : Engine σ} {done : List Mutation} {m : Mutation} {more : Bytes}
    (hc : contents e.storage = storeImage P done (P.frameOf m ++ more)) (hm : P.Encodable m)
    (hrel : Reliable e.storage) :
    ∃ lenBytes e1 e2,
      Engine.liftStorage (Storage.readAt (boundary P done) lenPrefixBytes) e = .ok lenBytes e1 ∧
      lenPrefixBytes + fromLe32 lenBytes = (P.frameOf m).length ∧
      Engine.liftStorage (Storage.readAt (boundary P done) (P.frameOf m).length) e1 =
        .ok (P.frameOf m) e2 ∧ Quiet e e2 := by
  have h4 := hm.four_le
  have hsplit : P.frameOf m ++ more =
      (P.frameOf m).take 4 ++ ((P.frameOf m).drop 4 ++ more) := by
    rw [← List.append_assoc, List.take_append_drop]
  have hlen4 : ((P.frameOf m).take 4).length = lenPrefixBytes := by
    simp only [List.length_take, lenPrefixBytes]
    omega
  obtain ⟨e1, hr1, hq1⟩ := read_at_boundary (P := P) done (hsplit ▸ hc) hrel
  obtain ⟨e2, hr2, hq2⟩ := read_at_boundary (P := P) done (b := P.frameOf m)
    (hq1.contents.trans hc) (hq1.reliable hrel)
  refine ⟨_, e1, e2, hlen4 ▸ hr1, ?_, hr2, Quiet.trans _ _ _ hq1 hq2⟩
  have hfr := hm.isFrame.length_eq []
  rw [List.append_nil] at hfr
  have hpre := fromLe32_append (by rw [hlen4]; exact le_refl 4) ((P.frameOf m).drop 4)
  rw [List.take_append_drop] at hpre
  rw [← hpre]
  exact hfr.symm

/-- The first read of a turn that finds at least four bytes: what their length prefix says. -/
theorem read_prefix {e : Engine σ} {done : List Mutation} {tail : Bytes}
    (hc : contents e.storage = storeImage P done tail) (hrel : Reliable e.storage)
    (h4 : 4 ≤ tail.length) :
    ∃ lenBytes e1,
      Engine.liftStorage (Storage.readAt (boundary P done) lenPrefixBytes) e = .ok lenBytes e1 ∧
      fromLe32 lenBytes = fromLe32 tail ∧ Quiet e e1 := by
  have hlen4 : (tail.take 4).length = lenPrefixBytes := by
    simp only [List.length_take, lenPrefixBytes]
    omega
  have hsplit : contents e.storage = storeImage P done (tail.take 4 ++ tail.drop 4) := by
    rw [List.take_append_drop]
    exact hc
  obtain ⟨e1, hr1, hq1⟩ := read_at_boundary done hsplit hrel
  have hpre := fromLe32_append (by rw [hlen4]; exact le_refl 4) (tail.drop 4)
  rw [List.take_append_drop] at hpre
  exact ⟨_, e1, hlen4 ▸ hr1, hpre.symm, hq1⟩

/-- The prefix of a torn tail promises more than the tail holds. -/
theorem read_torn {e : Engine σ} {done : List Mutation} {tail : Bytes}
    (hc : contents e.storage = storeImage P done tail) (hrel : Reliable e.storage)
    (htorn : Torn tail) (h4 : 4 ≤ tail.length) :
    ∃ lenBytes e1,
      Engine.liftStorage (Storage.readAt (boundary P done) lenPrefixBytes) e = .ok lenBytes e1 ∧
      tail.length < lenPrefixBytes + fromLe32 lenBytes ∧ Quiet e e1 := by
  obtain ⟨lenBytes, e1, hr, hpre, hq⟩ := read_prefix hc hrel h4
  refine ⟨lenBytes, e1, hr, ?_, hq⟩
  rw [hpre]
  exact htorn.resolve_left (by omega)

/-! ## The replay loop -/

/-- State of the replay loop: the records of `done` are applied and `more` is still to be read. -/
structure Replayed (P : Platform) (actor : ActorId) (e : Engine σ) (done : List Mutation)
    (more : Bytes) : Prop where
  contents : LawfulStorage.contents e.storage = storeImage P done more
  indexes : e.indexes = replay P done
  nextLocalSeq : e.nextLocalSeq = replaySeq done
  reliable : Reliable e.storage
  actor : e.actor = actor
  mutationLog : e.mutationLog = none

variable {actor : ActorId}

theorem Replayed.quiet {e e' : Engine σ} {done : List Mutation} {more : Bytes}
    (h : Replayed P actor e done more) (hq : Quiet e e') : Replayed P actor e' done more where
  contents := hq.contents.trans h.contents
  indexes := hq.indexes.trans h.indexes
  nextLocalSeq := hq.nextLocalSeq.trans h.nextLocalSeq
  reliable := hq.reliable h.reliable
  actor := hq.actor.trans h.actor
  mutationLog := hq.mutationLog.trans h.mutationLog

/-- Truncating to the last good offset leaves exactly the replayed records. -/
theorem Replayed.truncate {e : Engine σ} {done : List Mutation} {more : Bytes}
    (h : Replayed P actor e done more) :
    ∃ e', Engine.liftStorage (Storage.truncate (boundary P done)) e = .ok () e' ∧
      Replayed P actor e' done [] := by
  have hle : boundary P done ≤ (LawfulStorage.contents e.storage).length := by
    rw [h.contents, length_storeImage]
    omega
  have hheader : headerLen ≤ boundary P done := Nat.le_add_right _ _
  obtain ⟨s', htr⟩ := truncate_reliable h.reliable hheader hle
  obtain ⟨hcs, hrel⟩ := truncate_ok htr hle
  refine ⟨_, Engine.liftStorage_of_ok htr, ?_, h.indexes, h.nextLocalSeq, hrel h.reliable, h.actor,
    h.mutationLog⟩
  show LawfulStorage.contents s' = _
  rw [hcs, h.contents, storeImage, storeImage, List.append_nil, boundary, ← length_header,
    ← List.length_append, List.take_left]

/-- The engine after the sequence number of a replayed record was seen. -/
def seenSeq (m : Mutation) (e : Engine σ) : Engine σ :=
  if e.nextLocalSeq ≤ m.localSeq then { e with nextLocalSeq := m.localSeq + 1 } else e

/-- Publishing the next record of the log. -/
theorem Replayed.publish {e : Engine σ} {done : List Mutation} {m : Mutation} {more : Bytes}
    (h : Replayed P actor e done (P.frameOf m ++ more)) (henc : ∀ x ∈ done, P.Encodable x)
    (hwf : WfLog done) :
    ∃ e', Engine.applyRecovered P m (boundary P done) ((P.frameOf m).length - lenPrefixBytes) e =
        .ok () e' ∧ Replayed P actor (seenSeq m e') (done ++ [m]) more := by
  have hcons : Consistent P done (PropertyGraph.ofLog done) e.indexes := by
    rw [h.indexes]
    exact consistent_replay hwf
  obtain ⟨e', hupd, hq⟩ := updateIndexesFor_consistent h.contents henc h.reliable hcons m.op
    (boundary P done) ((P.frameOf m).length - lenPrefixBytes) m.foreshadow
  have hseq : e'.nextLocalSeq = replaySeq done := hq.nextLocalSeq.trans h.nextLocalSeq
  have hseen : seenSeq m e' = { e' with nextLocalSeq := replaySeq (done ++ [m]) } := by
    rw [seenSeq, replaySeq_snoc, seqStep, ← hseq]
    split
    · rfl
    · rfl
  refine ⟨e', hupd, ?_⟩
  rw [hseen]
  refine ⟨?_, ?_, rfl, hq.reliable h.reliable, hq.actor.trans h.actor,
    hq.mutationLog.trans h.mutationLog⟩
  · show LawfulStorage.contents e'.storage = _
    rw [hq.contents]
    show LawfulStorage.contents e.storage = _
    rw [h.contents]
    simp [storeImage]
  · show e'.indexes = _
    rw [hq.indexes, replay_snoc, ← h.indexes]
    rfl

/-- One turn of the loop on a whole frame. -/
theorem recoverLoop_frame {e : Engine σ} {done : List Mutation} {m : Mutation} {more : Bytes}
    (h : Replayed P actor e done (P.frameOf m ++ more)) (henc : ∀ x ∈ done, P.Encodable x)
    (hm : P.Encodable m) (hwf : WfLog done) (fuel : Nat) :
    ∃ e', Engine.recoverLoop P (boundary P done + (P.frameOf m ++ more).length) (fuel + 1)
        (boundary P done) (boundary P done) e =
      Engine.recoverLoop P (boundary P done + (P.frameOf m ++ more).length) fuel
        (boundary P (done ++ [m])) (boundary P (done ++ [m])) e' ∧
      Replayed P actor e' (done ++ [m]) more := by
  have h4 := hm.four_le
  obtain ⟨lenBytes, e1, e2, hr1, hlen, hr2, hq⟩ := read_frame h.contents hm h.reliable
  obtain ⟨e3, hpub, h3⟩ := (h.quiet hq).publish henc hwf
  have hpl : fromLe32 lenBytes = (P.frameOf m).length - lenPrefixBytes := by omega
  rw [← hpl] at hpub
  refine ⟨seenSeq m e3, ?_, h3⟩
  rw [Engine.recoverLoop, if_pos, if_neg, bind_of_ok hr1]
  · simp only [hlen]
    rw [if_neg, bind_of_ok hr2, hm.decodeFramed_frameOf]
    · simp only
      rewrite [bind_of_ok hpub, bind_of_ok (modify_apply _ _), boundary_snoc]
      rfl
    · simp only [List.length_append]
      omega
  · simp only [List.length_append, lenPrefixBytes]
    omega
  · simp only [List.length_append]
    omega

/-- What the loop leaves when only a torn tail is left: the tail was already cut off, or the loop
variables stand before it. -/
theorem recoverLoop_torn {e : Engine σ} {done : List Mutation} {tail : Bytes}
    (h : Replayed P actor e done tail) (htorn : Torn tail) {fuel : Nat}
    (hfuel : tail.length ≤ fuel) :
    (∃ e', Engine.recoverLoop P (boundary P done + tail.length) fuel (boundary P done)
        (boundary P done) e = .ok none e' ∧ Replayed P actor e' done []) ∨
      Engine.recoverLoop P (boundary P done + tail.length) fuel (boundary P done)
        (boundary P done) e = .ok (some (boundary P done, boundary P done)) e := by
  cases fuel with
  | zero => exact Or.inr rfl
  | succ fuel =>
      rw [Engine.recoverLoop]
      by_cases hpos : 0 < tail.length
      · rw [if_pos (by omega)]
        by_cases h4 : tail.length < 4
        · rw [if_pos (by simp only [lenPrefixBytes]; omega)]
          exact Or.inr rfl
        · rw [if_neg (by simp only [lenPrefixBytes]; omega)]
          obtain ⟨lenBytes, e1, hr1, hlt, hq⟩ :=
            read_torn h.contents h.reliable htorn (by omega)
          obtain ⟨e2, htr, h2⟩ := (h.quiet hq).truncate
          rw [bind_of_ok hr1, if_pos (by omega), bind_of_ok htr]
          exact Or.inl ⟨e2, rfl, h2⟩
      · rw [if_neg (by omega)]
        exact Or.inr rfl

/-- The loop applies every record of the log, whatever stands after it. -/
theorem recoverLoop_frames {tail : Bytes} (rest : List Mutation) :
    ∀ {e : Engine σ} {done : List Mutation} {fuel : Nat},
      Replayed P actor e done (encodeLog P rest ++ tail) →
      (∀ m ∈ done ++ rest, P.Encodable m) → WfLog (done ++ rest) →
      (encodeLog P rest ++ tail).length ≤ fuel →
      ∃ fuel' e', tail.length ≤ fuel' ∧ Replayed P actor e' (done ++ rest) tail ∧
        Engine.recoverLoop P (boundary P (done ++ rest) + tail.length) fuel (boundary P done)
            (boundary P done) e =
          Engine.recoverLoop P (boundary P (done ++ rest) + tail.length) fuel'
            (boundary P (done ++ rest)) (boundary P (done ++ rest)) e' := by
  induction rest with
  | nil =>
      intro e done fuel h _ _ hfuel
      rw [List.append_nil]
      exact ⟨fuel, e, hfuel, h, rfl⟩
  | cons m rest ih =>
      intro e done fuel h henc hwf hfuel
      have hm : P.Encodable m := henc m (by simp)
      have h4 := hm.four_le
      rw [encodeLog_cons, List.append_assoc] at h hfuel
      cases fuel with
      | zero =>
          rw [List.length_append] at hfuel
          omega
      | succ fuel =>
          obtain ⟨e', hturn, h'⟩ := recoverLoop_frame h
            (fun x hx => henc x (List.mem_append_left _ hx)) hm hwf.of_append fuel
          have htotal : boundary P (done ++ m :: rest) + tail.length =
              boundary P done + (P.frameOf m ++ (encodeLog P rest ++ tail)).length := by
            simp only [boundary, encodeLog_append, encodeLog_cons, List.length_append]
            omega
          have hsnoc : done ++ m :: rest = (done ++ [m]) ++ rest := by simp
          rw [htotal, hturn, ← htotal, hsnoc]
          rw [hsnoc] at henc hwf
          refine ih h' henc hwf ?_
          rw [List.length_append] at hfuel
          omega

/-- The replay loop of `recover` on a store that holds a log gets to the end of the log. -/
theorem recoverLoop_storeImage {s : σ} {log : List Mutation} {tail : Bytes}
    (hc : contents s = storeImage P log tail) (henc : ∀ m ∈ log, P.Encodable m)
    (hwf : WfLog log) (hrel : Reliable s) (actor : ActorId) :
    Storage.len s = boundary P log + tail.length ∧
      ∃ fuel e, tail.length ≤ fuel ∧ Replayed P actor e log tail ∧
        Engine.recoverLoop P (Storage.len s) (Storage.len s) headerLen headerLen
            (Engine.blank actor s) =
          Engine.recoverLoop P (boundary P log + tail.length) fuel (boundary P log)
            (boundary P log) e := by
  have hstart : Replayed P actor (Engine.blank actor s) [] (encodeLog P log ++ tail) := by
    refine ⟨?_, rfl, rfl, hrel, rfl, rfl⟩
    show contents s = _
    rw [hc]
    simp [storeImage]
  have htotal : Storage.len s = boundary P log + tail.length := by
    rw [len_eq, hc, length_storeImage]
  have hfuel : (encodeLog P log ++ tail).length ≤ boundary P log + tail.length := by
    rw [boundary, List.length_append]
    omega
  refine ⟨htotal, ?_⟩
  rw [htotal]
  exact recoverLoop_frames log hstart henc hwf hfuel

/-- What `open_with` leaves on a store that holds `log`. -/
structure Recovered (P : Platform) (actor : ActorId) (e : Engine σ) (log : List Mutation) :
    Prop where
  core : Core P e log
  nextLocalSeq : e.nextLocalSeq = replaySeq log
  actor : e.actor = actor
  mutationLog : e.mutationLog = none

/-- Opening a store that holds a log and a torn tail recovers exactly the log. -/
theorem openWith_spec {s : σ} {log : List Mutation} {tail : Bytes}
    (hc : contents s = storeImage P log tail) (henc : ∀ m ∈ log, P.Encodable m)
    (hwf : WfLog log) (htorn : Torn tail) (hrel : Reliable s) (actor : ActorId) :
    ∃ e, Engine.openWith P actor s = .ok e ∧ Recovered P actor e log := by
  obtain ⟨htotal, fuel, e, hfuel, h, hloop⟩ := recoverLoop_storeImage hc henc hwf hrel actor
  have hrecover : ∃ e, Engine.recover P (Engine.blank actor s) = .ok () e ∧
      Replayed P actor e log [] := by
    unfold Engine.recover
    rw [bind_of_ok (get_apply _)]
    show ∃ e, (Engine.recoverLoop P (Storage.len s) (Storage.len s) headerLen headerLen >>= _) _ =
      _ ∧ _
    rcases recoverLoop_torn h htorn hfuel with ⟨e', hend, h'⟩ | hend
    · exact ⟨e', bind_of_ok (hloop.trans hend), h'⟩
    · rw [bind_of_ok (hloop.trans hend)]
      by_cases htail : 0 < tail.length
      · obtain ⟨e', htr, h'⟩ := h.truncate
        refine ⟨e', ?_, h'⟩
        simp only
        rw [if_pos (by show _ < Storage.len s; omega)]
        exact htr
      · have hnil : tail = [] := List.length_eq_zero_iff.1 (by omega)
        refine ⟨e, ?_, hnil ▸ h⟩
        simp only
        rw [if_neg (by show ¬ _ < Storage.len s; omega)]
        rfl
  obtain ⟨e, he, h⟩ := hrecover
  refine ⟨e, ?_, ⟨h.contents, henc, hwf, h.indexes, h.reliable⟩, h.nextLocalSeq, h.actor,
    h.mutationLog⟩
  rw [Engine.openWith, he]

/-! ## Replaying to a controller -/

namespace MutationLog

theorem handed_record (l : MutationLog) (m : Mutation) : (l.record m).handed = l.handed ++ [m] := by
  obtain ⟨buffer, forwarder⟩ := l
  cases forwarder with
  | none => simp [record, handed]
  | some sent => simp [record, handed]

theorem handed_setForwarder (l : MutationLog) : l.setForwarder.handed = l.handed := rfl

theorem handed_foldl_record (ms : List Mutation) (l : MutationLog) :
    (ms.foldl record l).handed = l.handed ++ ms := by
  induction ms generalizing l with
  | nil => simp
  | cons m ms ih =>
      rw [List.foldl_cons, ih, handed_record]
      simp

end MutationLog

/-- The engine after a list of mutations was teed. -/
def teedAll (ms : List Mutation) (e : Engine σ) : Engine σ :=
  { e with mutationLog := e.mutationLog.map fun l => ms.foldl MutationLog.record l }

omit [LawfulStorage σ] in
theorem teedAll_nil (e : Engine σ) : teedAll [] e = e := by
  cases e
  simp [teedAll]

omit [LawfulStorage σ] in
theorem teedAll_cons (m : Mutation) (ms : List Mutation) (e : Engine σ) :
    teedAll (m :: ms) e = teedAll ms (teedAll [m] e) := by
  simp only [teedAll, Option.map_map]
  rfl

theorem Quiet.teedAll {e e' : Engine σ} (h : Quiet e e') (ms : List Mutation) :
    Quiet (teedAll ms e) (Morceau.teedAll ms e') where
  rest := by
    rw [h.rest]
    rfl
  reads := h.reads

/-- A turn of the walk: the next record is read, and teed when its flag says so. -/
theorem replayLoop_turn {e : Engine σ} {done rest : List Mutation} {m : Mutation}
    (fuel replayed : Nat)
    (hc : contents e.storage = storeImage P done (P.frameOf m ++ encodeLog P rest))
    (hm : P.Encodable m) (hrel : Reliable e.storage) :
    ∃ e', Quiet e e' ∧
      Engine.replayLoop P (boundary P (done ++ m :: rest)) (fuel + 1) (boundary P done) replayed e =
        Engine.replayLoop P (boundary P ((done ++ [m]) ++ rest)) fuel (boundary P (done ++ [m]))
          (replayed + if m.foreshadow then 1 else 0)
          (if m.foreshadow then teedAll [m] e' else e') := by
  have h4 := hm.four_le
  obtain ⟨lenBytes, e1, e2, hr1, hlen, hr2, hq⟩ := read_frame hc hm hrel
  have htotal : boundary P (done ++ m :: rest) =
      boundary P done + ((P.frameOf m).length + (encodeLog P rest).length) := by
    simp only [boundary, encodeLog_append, encodeLog_cons, List.length_append]
    omega
  refine ⟨e2, hq, ?_⟩
  rw [Engine.replayLoop, if_pos (by omega),
    if_neg (by simp only [lenPrefixBytes]; omega), bind_of_ok hr1]
  simp only [hlen]
  rw [if_neg (by omega), bind_of_ok hr2, hm.decodeFramed_frameOf,
    bind_of_ok (Engine.liftRecord_ok _ _), boundary_snoc, List.append_assoc]
  simp only
  split
  · rfl
  · rfl

/-- The walk hands every foreshadow record on, in order, and counts them. -/
theorem replayLoop_spec (rest : List Mutation) :
    ∀ {e : Engine σ} {done : List Mutation} {fuel : Nat} (replayed : Nat),
      contents e.storage = storeImage P done (encodeLog P rest) → Reliable e.storage →
      (∀ m ∈ rest, P.Encodable m) → (encodeLog P rest).length ≤ fuel →
      ∃ e', Engine.replayLoop P (boundary P (done ++ rest)) fuel (boundary P done) replayed e =
          .ok (replayed + (rest.filter Mutation.foreshadow).length) e' ∧
        Quiet (teedAll (rest.filter Mutation.foreshadow) e) e' := by
  induction rest with
  | nil =>
      intro e done fuel replayed _ _ _ _
      refine ⟨e, ?_, ?_⟩
      · rw [List.append_nil]
        cases fuel with
        | zero => rfl
        | succ fuel =>
            rw [Engine.replayLoop, if_neg (lt_irrefl _)]
            rfl
      · rw [List.filter_nil, teedAll_nil]
        exact Quiet.refl e
  | cons m rest ih =>
      intro e done fuel replayed hc hrel henc hfuel
      obtain ⟨hm, hrest⟩ := List.forall_mem_cons.1 henc
      have h4 := hm.four_le
      rw [encodeLog_cons] at hc hfuel
      rw [List.length_append] at hfuel
      obtain ⟨fuel, rfl⟩ : ∃ n, fuel = n + 1 := ⟨fuel - 1, by omega⟩
      obtain ⟨e2, hq, hturn⟩ := replayLoop_turn fuel replayed hc hm hrel
      have hc2 : contents e2.storage = storeImage P (done ++ [m]) (encodeLog P rest) := by
        rw [hq.contents, hc]
        simp [storeImage]
      rw [hturn]
      cases hf : m.foreshadow with
      | true =>
          rw [if_pos rfl, if_pos rfl, List.filter_cons_of_pos hf, List.length_cons,
            teedAll_cons m (rest.filter Mutation.foreshadow) e]
          obtain ⟨e', hloop, hq'⟩ := @ih (teedAll [m] e2) _ fuel (replayed + 1) hc2
            (hq.reliable hrel) hrest (by omega)
          refine ⟨e', ?_, Quiet.trans _ _ _ ((hq.teedAll [m]).teedAll _) hq'⟩
          rw [hloop, Nat.add_assoc, Nat.add_comm 1]
      | false =>
          rw [if_neg Bool.false_ne_true, if_neg Bool.false_ne_true,
            List.filter_cons_of_neg (by simp [hf])]
          obtain ⟨e', hloop, hq'⟩ := @ih e2 _ fuel (replayed + 0) hc2
            (hq.reliable hrel) hrest (by omega)
          exact ⟨e', hloop, Quiet.trans _ _ _ (hq.teedAll _) hq'⟩

/-- `Engine::replay_unconfirmed` hands every foreshadow record of the log to a wired mutation
log. -/
theorem replayUnconfirmed_spec {e : Engine σ} {log : List Mutation} (h : Core P e log)
    (hwired : e.mutationLog.isSome) :
    ∃ e', Engine.replayUnconfirmed P e = .ok (log.filter Mutation.foreshadow).length e' ∧
      Quiet (teedAll (log.filter Mutation.foreshadow) e) e' := by
  have hlen : Storage.len e.storage = boundary P ([] ++ log) := by
    rw [len_eq, h.contents, length_storeImage]
    rfl
  have hc : contents e.storage = storeImage P [] (encodeLog P log) := by
    rw [h.contents]
    simp [storeImage]
  have hfuel : (encodeLog P log).length ≤ Storage.len e.storage := by
    rw [hlen, List.nil_append, boundary]
    omega
  obtain ⟨e', hloop, hq⟩ := replayLoop_spec log 0 hc h.reliable h.encodable hfuel
  refine ⟨e', ?_, hq⟩
  rw [Engine.replayUnconfirmed, bind_of_ok (get_apply e)]
  have hnone : e.mutationLog.isNone = false := by
    cases hlog : e.mutationLog with
    | none => simp [hlog] at hwired
    | some l => rfl
  rw [← hlen, Nat.zero_add] at hloop
  rw [hnone, if_neg Bool.false_ne_true]
  exact hloop

end Morceau
