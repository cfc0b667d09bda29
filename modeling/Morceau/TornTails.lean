import Morceau.CrashRecovery
import Morceau.Engine.PointerWidth

/-!
# Length prefixes that promise more than the store holds

Recovery cuts off a tail whose length prefix promises more bytes than are left. The comparison is
made in `usize`. On a 32-bit target the record size `4 + p` wraps for the four largest prefixes:
for `p = 2 ^ 32 - 4` the loop reads an empty frame and stops as it does at a torn tail, but for the
three prefixes above it reads one to three bytes that do not decode, and the open fails. What is
left of the store wraps too, on a host store of 4 GiB and more, and then recovery stops inside the
log.

`kept w P tail log` is what recovery at width `w` keeps of a store with the records `log` and a torn
tail: a prefix of the log, or nothing when the open fails (`openWith_kept`). The tail is cut off and
the log restored exactly when all of the log is kept (`oversized_prefix_dropped_iff`).
-/

set_option autoImplicit false

namespace Morceau

open Lib LawfulStorage

/-! ## What recovery keeps -/

/-- A record of `size` bytes, with `left` bytes of the store to its end, at which the loop stops
without an error when it does not apply it. -/
def Dropped (w : PointerWidth) (size left : Nat) : Prop :=
  size ≤ 2 ^ w.bits ∨ w.usize left < lenPrefixBytes

instance (w : PointerWidth) (size left : Nat) : Decidable (Dropped w size left) :=
  inferInstanceAs (Decidable (_ ∨ _))

/-- A record of `size` bytes that the loop applies. -/
def Applied (w : PointerWidth) (size left : Nat) : Prop :=
  size < 2 ^ w.bits ∧ size ≤ w.usize left

instance (w : PointerWidth) (size left : Nat) : Decidable (Applied w size left) :=
  inferInstanceAs (Decidable (_ ∧ _))

/-- The records that recovery keeps of a store with the given records and a torn tail; none when it
fails. -/
def kept (w : PointerWidth) (P : Platform) (tail : Bytes) : List Mutation → Option (List Mutation)
  | [] => if Dropped w (lenPrefixBytes + fromLe32 tail) tail.length then some [] else none
  | m :: rest =>
      if Applied w (P.frameOf m).length (encodeLog P (m :: rest) ++ tail).length then
        (kept w P tail rest).map (m :: ·)
      else if Dropped w (P.frameOf m).length (encodeLog P (m :: rest) ++ tail).length then some []
      else none

variable {w : PointerWidth} {P : Platform}

theorem kept_prefix {tail : Bytes} {log ks : List Mutation} (h : kept w P tail log = some ks) :
    ks <+: log := by
  induction log generalizing ks with
  | nil =>
      rw [kept] at h
      split at h
      · cases h
        exact List.prefix_rfl
      · cases h
  | cons m rest ih =>
      rw [kept] at h
      split at h
      · obtain ⟨ks', hks', rfl⟩ := Option.map_eq_some_iff.1 h
        exact (List.prefix_cons_inj m).2 (ih hks')
      · split at h
        · cases h
          exact List.nil_prefix
        · cases h

/-- On a store whose length fits `usize`, all of the log is kept unless the size that the tail
promises wraps. -/
theorem kept_eq_some_iff {tail : Bytes} (h4 : 4 ≤ tail.length) (log : List Mutation)
    (hlt : (encodeLog P log ++ tail).length < 2 ^ w.bits) :
    kept w P tail log = some log ↔ lenPrefixBytes + fromLe32 tail ≤ 2 ^ w.bits := by
  induction log with
  | nil =>
      have hleft : ¬ w.usize tail.length < lenPrefixBytes := by
        rw [PointerWidth.usize_of_lt (by simpa using hlt)]
        simp only [lenPrefixBytes]
        omega
      rw [kept]
      constructor
      · intro h
        split at h
        · rename_i hdrop
          exact hdrop.resolve_right hleft
        · cases h
      · intro h
        have hdrop : Dropped w (lenPrefixBytes + fromLe32 tail) tail.length := Or.inl h
        rw [if_pos hdrop]
  | cons m rest ih =>
      have hsplit : (encodeLog P (m :: rest) ++ tail).length =
          (P.frameOf m).length + (encodeLog P rest ++ tail).length := by
        rw [encodeLog_cons, List.append_assoc, List.length_append]
      have happlied : Applied w (P.frameOf m).length (encodeLog P (m :: rest) ++ tail).length := by
        rw [Applied, PointerWidth.usize_of_lt hlt]
        omega
      rw [kept, if_pos happlied, ← ih (by omega)]
      simp

/-! ## Sizes as a turn of the loop sees them -/

/-- The size that a prefix promises, as a `usize`. -/
theorem usize_size_cases {size : Nat} (h : size < 2 ^ 32 + 4) :
    (size < 2 ^ w.bits ∧ w.usize size = size) ∨ (size = 2 ^ w.bits ∧ w.usize size = 0) ∨
      (2 ^ w.bits < size ∧ 0 < w.usize size ∧ w.usize size < 4) := by
  have hw := w.two_pow_32_le
  rcases Nat.lt_trichotomy size (2 ^ w.bits) with hlt | heq | hgt
  · exact Or.inl ⟨hlt, PointerWidth.usize_of_lt hlt⟩
  · exact Or.inr (Or.inl ⟨heq, by rw [heq]; exact Nat.mod_self _⟩)
  · have hsub : w.usize size = size - 2 ^ w.bits := by
      rw [PointerWidth.usize, Nat.mod_eq_sub_mod hgt.le, Nat.mod_eq_of_lt (by omega)]
    exact Or.inr (Or.inr ⟨hgt, by omega, by omega⟩)

variable {σ : Type} [LawfulStorage σ] {actor : ActorId}

/-! ## One turn -/

/-- How the loop ends when it ends without an error: the store was cut after `log`, or the loop
variables stand there. -/
def Stops (P : Platform) (actor : ActorId) (total : Nat) (log : List Mutation)
    (r : EStateM.Result EngineError (Engine σ) (Option (Nat × Nat))) : Prop :=
  (∃ e, r = .ok none e ∧ Replayed P actor e log []) ∨
    ∃ e more, r = .ok (some (boundary P log, boundary P log)) e ∧ Replayed P actor e log more ∧
      total = boundary P log + more.length

/-- How the loop ends after the records of `done`, when it keeps the given records of the rest. -/
def Ends (P : Platform) (actor : ActorId) (total : Nat) (done : List Mutation)
    (r : EStateM.Result EngineError (Engine σ) (Option (Nat × Nat))) :
    Option (List Mutation) → Prop
  | some ks => Stops P actor total (done ++ ks) r
  | none => ∃ err e, r = .error err e

section Turns

variable {e : Engine σ} {done : List Mutation} {more : Bytes}

/-- What is left wraps to less than a length prefix: the loop breaks. -/
theorem recoverLoop_break (h4 : 4 ≤ more.length) (hshort : w.usize more.length < lenPrefixBytes)
    (fuel : Nat) :
    AtWidth.recoverLoop w P (boundary P done + more.length) (fuel + 1) (boundary P done)
      (boundary P done) e = .ok (some (boundary P done, boundary P done)) e := by
  rw [AtWidth.recoverLoop, if_pos (by omega), Nat.add_sub_cancel_left, if_pos hshort]
  rfl

/-- The size of the record is more than what is left: the store is cut. -/
theorem recoverLoop_cut (h : Replayed P actor e done more) (h4 : 4 ≤ more.length)
    (hlong : ¬ w.usize more.length < lenPrefixBytes)
    (htorn : w.usize more.length < w.usize (lenPrefixBytes + fromLe32 more)) (fuel : Nat) :
    ∃ e', AtWidth.recoverLoop w P (boundary P done + more.length) (fuel + 1) (boundary P done)
      (boundary P done) e = .ok none e' ∧ Replayed P actor e' done [] := by
  obtain ⟨lenBytes, e1, hr1, hpre, hq1⟩ := read_prefix h.contents h.reliable h4
  obtain ⟨e2, htr, h2⟩ := (h.quiet hq1).truncate
  refine ⟨e2, ?_, h2⟩
  rw [AtWidth.recoverLoop, if_pos (by omega), Nat.add_sub_cancel_left, if_neg hlong]
  rewrite [bind_of_ok hr1, hpre, if_pos htorn, bind_of_ok htr]
  rfl

/-- The size of the record wraps to less than a length prefix: a frame of no bytes ends the loop,
and one of one to three bytes is an error. -/
theorem recoverLoop_few (h : Replayed P actor e done more) (h4 : 4 ≤ more.length)
    (hlong : ¬ w.usize more.length < lenPrefixBytes)
    (hfew : w.usize (lenPrefixBytes + fromLe32 more) < lenPrefixBytes) (fuel : Nat) :
    (w.usize (lenPrefixBytes + fromLe32 more) = 0 →
      ∃ e', AtWidth.recoverLoop w P (boundary P done + more.length) (fuel + 1) (boundary P done)
        (boundary P done) e = .ok (some (boundary P done, boundary P done)) e' ∧
        Replayed P actor e' done more) ∧
      (0 < w.usize (lenPrefixBytes + fromLe32 more) →
        ∃ err e', AtWidth.recoverLoop w P (boundary P done + more.length) (fuel + 1)
          (boundary P done) (boundary P done) e = .error err e') := by
  have h4' : lenPrefixBytes = 4 := rfl
  obtain ⟨lenBytes, e1, hr1, hpre, hq1⟩ := read_prefix h.contents h.reliable h4
  have h1 := h.quiet hq1
  set size := w.usize (lenPrefixBytes + fromLe32 more)
  have hread : LawfulStorage.contents e1.storage =
      storeImage P done (more.take size ++ more.drop size) := by
    rw [List.take_append_drop]
    exact h1.contents
  have hlen : (more.take size).length = size := by
    rw [List.length_take]
    omega
  obtain ⟨e2, hr2, hq2⟩ := read_at_boundary done hread h1.reliable
  rw [hlen] at hr2
  rw [AtWidth.recoverLoop, if_pos (by omega), Nat.add_sub_cancel_left, if_neg hlong]
  rewrite [bind_of_ok hr1, hpre, if_neg (by omega), bind_of_ok hr2]
  constructor
  · intro hzero
    rw [hzero, List.take_zero, AtWidth.decodeFramed_nil]
    exact ⟨e2, rfl, h1.quiet hq2⟩
  · intro hpos
    have hne : more.take size ≠ [] := by
      rw [← List.length_pos_iff, hlen]
      exact hpos
    obtain ⟨err, herr⟩ := AtWidth.decodeFramed_short (w := w) (P := P) hne (by omega)
    rw [herr]
    exact ⟨_, e2, rfl⟩

/-- The turn at a record that is not applied. -/
theorem recoverLoop_not_applied (h : Replayed P actor e done more) (h4 : 4 ≤ more.length)
    (hnot : ¬ Applied w (lenPrefixBytes + fromLe32 more) more.length) (fuel : Nat) :
    Ends P actor (boundary P done + more.length) done
      (AtWidth.recoverLoop w P (boundary P done + more.length) (fuel + 1) (boundary P done)
        (boundary P done) e)
      (if Dropped w (lenPrefixBytes + fromLe32 more) more.length then some [] else none) := by
  have h4' : lenPrefixBytes = 4 := rfl
  have hsmall : lenPrefixBytes + fromLe32 more < 2 ^ 32 + 4 := by
    have := fromLe32_lt more
    omega
  -- a stop of the loop, whichever way, ends after `done`
  have hstop : ∀ {r : EStateM.Result EngineError (Engine σ) (Option (Nat × Nat))},
      Dropped w (lenPrefixBytes + fromLe32 more) more.length →
      Stops P actor (boundary P done + more.length) done r →
      Ends P actor (boundary P done + more.length) done r
        (if Dropped w (lenPrefixBytes + fromLe32 more) more.length then some [] else none) := by
    intro r hd hr
    rw [if_pos hd, Ends, List.append_nil]
    exact hr
  by_cases hshort : w.usize more.length < lenPrefixBytes
  case pos =>
    exact hstop (Or.inr hshort) (Or.inr ⟨e, more, recoverLoop_break h4 hshort fuel, h, rfl⟩)
  -- the size fits and is torn, wraps to no bytes, or wraps to a few
  rcases usize_size_cases (w := w) hsmall with ⟨hlt, hfit⟩ | ⟨heq, hzero⟩ | ⟨hgt, hpos, hfew⟩
  · have htorn : w.usize more.length < w.usize (lenPrefixBytes + fromLe32 more) := by
      rw [hfit]
      exact Nat.lt_of_not_le fun hle => hnot ⟨hlt, hle⟩
    exact hstop (Or.inl hlt.le) (Or.inl (recoverLoop_cut h h4 hshort htorn fuel))
  · obtain ⟨e', hend, h'⟩ := (recoverLoop_few h h4 hshort (by omega) fuel).1 hzero
    exact hstop (Or.inl heq.le) (Or.inr ⟨e', more, hend, h', rfl⟩)
  · have hnotDropped : ¬ Dropped w (lenPrefixBytes + fromLe32 more) more.length := by
      rintro (hle | hlt)
      · omega
      · exact hshort hlt
    rw [if_neg hnotDropped]
    exact (recoverLoop_few h h4 hshort hfew fuel).2 hpos

end Turns

/-- Where the records of the log fit `usize`, the entries of the edge index are read alike. -/
theorem readOpAt_of_fits {e : Engine σ} {log : List Mutation} {tail : Bytes}
    (hc : contents e.storage = storeImage P log tail) (henc : ∀ m ∈ log, P.Encodable m)
    (hfits : ∀ m ∈ log, (P.frameOf m).length < 2 ^ w.bits) {entry : IndexEntry} {op : MutationOp}
    (hat : Located P log entry op) :
    AtWidth.readOpAt w P entry e = Engine.readOpAt P entry e := by
  obtain ⟨pre, m, post, rfl, rfl, rfl⟩ := hat
  have hm : P.Encodable m := henc m (by simp)
  have hlt := hfits m (by simp)
  have hsize : lenPrefixBytes + (entryAfter P pre m).payloadLen = (P.frameOf m).length := by
    have := hm.four_le
    simp only [entryAfter, lenPrefixBytes]
    omega
  unfold AtWidth.readOpAt Engine.readOpAt
  rewrite [hsize, PointerWidth.usize_of_lt hlt]
  refine bind_congr_at rfl fun bytes e1 hr => ?_
  -- the bytes are the frame of the record, whose prefix does not wrap
  have hbytes : bytes = P.frameOf m := by
    cases hs : Storage.readAt (entryAfter P pre m).offset (P.frameOf m).length e.storage with
    | ok bs s' =>
        rw [Engine.liftStorage_of_ok hs] at hr
        cases hr
        exact readAt_frame hc hs
    | error err s' =>
        rw [Engine.liftStorage_of_error hs] at hr
        cases hr
  have hprefix : lenPrefixBytes + fromLe32 bytes < 2 ^ w.bits := by
    have hlen := hm.isFrame.length_eq []
    rw [List.append_nil] at hlen
    rw [hbytes]
    simp only [lenPrefixBytes]
    omega
  rewrite [AtWidth.decodeFramed_of_lt hprefix]
  rfl

/-- Where the records of the log fit `usize`, a record is published alike. -/
theorem updateIndexesFor_of_fits {e : Engine σ} {log : List Mutation} {tail : Bytes}
    (hc : contents e.storage = storeImage P log tail) (henc : ∀ m ∈ log, P.Encodable m)
    (hfits : ∀ m ∈ log, (P.frameOf m).length < 2 ^ w.bits) {g : PropertyGraph}
    (hcons : Consistent P log g e.indexes) (op : MutationOp) (off len : Nat) (fs : Bool) :
    AtWidth.updateIndexesFor w P op off len fs e = Engine.updateIndexesFor P op off len fs e := by
  cases op with
  | nodeInsert n => rfl
  | edgeInsert d => rfl
  | nodeDelete id => rfl
  | schemaApply s => rfl
  | edgeDelete id =>
      simp only [AtWidth.updateIndexesFor, Engine.updateIndexesFor]
      refine bind_congr_at rfl fun e0 e1 hget => ?_
      cases hget
      cases hl : e.edgeIndex.lookup id with
      | none => rfl
      | some entry =>
          refine bind_congr_at rfl fun u e1 hset => ?_
          cases hset
          obtain ⟨d, -, -, hat⟩ := hcons.edges.of_some hl
          have hread := readOpAt_of_fits
            (e := { e with edgeIndex := e.edgeIndex.erase id }) hc henc hfits hat
          unfold AtWidth.removeEdgeFromIndexes Engine.removeEdgeFromIndexes
          exact bind_congr_at hread fun _ _ _ => rfl

/-- The turn at a record that is applied. -/
theorem recoverLoop_applied {e : Engine σ} {done : List Mutation} {m : Mutation} {more : Bytes}
    (h : Replayed P actor e done (P.frameOf m ++ more)) (henc : ∀ x ∈ done, P.Encodable x)
    (hfits : ∀ x ∈ done, (P.frameOf x).length < 2 ^ w.bits) (hm : P.Encodable m)
    (hwf : WfLog done) (happlied : Applied w (P.frameOf m).length (P.frameOf m ++ more).length)
    (fuel : Nat) :
    ∃ e', AtWidth.recoverLoop w P (boundary P done + (P.frameOf m ++ more).length) (fuel + 1)
        (boundary P done) (boundary P done) e =
      AtWidth.recoverLoop w P (boundary P done + (P.frameOf m ++ more).length) fuel
        (boundary P (done ++ [m])) (boundary P (done ++ [m])) e' ∧
      Replayed P actor e' (done ++ [m]) more := by
  obtain ⟨hlt, hle⟩ := happlied
  have h4 := hm.four_le
  have hleft := w.usize_le (P.frameOf m ++ more).length
  obtain ⟨lenBytes, e1, e2, hr1, hlen, hr2, hq⟩ := read_frame h.contents hm h.reliable
  have h2 := h.quiet hq
  obtain ⟨e3, hpub, h3⟩ := h2.publish henc hwf
  have hcons : Consistent P done (PropertyGraph.ofLog done) e2.indexes := by
    rw [h2.indexes]
    exact consistent_replay hwf
  have hpl : fromLe32 lenBytes = (P.frameOf m).length - lenPrefixBytes := by omega
  have happly : AtWidth.applyRecovered w P m (boundary P done) (fromLe32 lenBytes) e2 =
      .ok () e3 := by
    rw [hpl, ← hpub]
    exact updateIndexesFor_of_fits h2.contents henc hfits hcons _ _ _ _
  have hdecode : AtWidth.decodeFramed w P (P.frameOf m) =
      .ok (some (m, (P.frameOf m).length)) := by
    rw [AtWidth.decodeFramed_of_lt, hm.decodeFramed_frameOf]
    have hprefix := hm.isFrame.length_eq []
    rw [List.append_nil] at hprefix
    simp only [lenPrefixBytes]
    omega
  refine ⟨seenSeq m e3, ?_, h3⟩
  rw [AtWidth.recoverLoop, if_pos (by omega), Nat.add_sub_cancel_left,
    if_neg (by simp only [lenPrefixBytes]; omega), bind_of_ok hr1]
  simp only [hlen, PointerWidth.usize_of_lt hlt]
  rw [if_neg (by omega), bind_of_ok hr2, hdecode]
  simp only
  rewrite [bind_of_ok happly, bind_of_ok (modify_apply _ _), boundary_snoc]
  rfl

/-! ## Whole runs -/

/-- The turn at a torn tail. -/
theorem recoverLoop_tail {e : Engine σ} {done : List Mutation} {tail : Bytes}
    (h : Replayed P actor e done tail) (htorn : Torn tail) {fuel : Nat}
    (hfuel : tail.length ≤ fuel) :
    Ends P actor (boundary P done + tail.length) done
      (AtWidth.recoverLoop w P (boundary P done + tail.length) fuel (boundary P done)
        (boundary P done) e)
      (kept w P tail []) := by
  have hleft := w.usize_le tail.length
  by_cases h4 : 4 ≤ tail.length
  case pos =>
    obtain ⟨fuel, rfl⟩ : ∃ n, fuel = n + 1 := ⟨fuel - 1, by omega⟩
    refine recoverLoop_not_applied h h4 (fun happlied => ?_) fuel
    have hlt := htorn.resolve_left (by omega)
    have hle := happlied.2
    simp only [lenPrefixBytes] at hle
    omega
  -- too few bytes for a prefix, or none at all
  have hshort : w.usize tail.length < lenPrefixBytes := by
    simp only [lenPrefixBytes]
    omega
  have hdrop : Dropped w (lenPrefixBytes + fromLe32 tail) tail.length := Or.inr hshort
  rw [kept, if_pos hdrop, Ends, List.append_nil]
  have hend : Stops P actor (boundary P done + tail.length) done
      (.ok (some (boundary P done, boundary P done)) e) := Or.inr ⟨e, tail, rfl, h, rfl⟩
  cases fuel with
  | zero => exact hend
  | succ fuel =>
      rw [AtWidth.recoverLoop, Nat.add_sub_cancel_left, if_pos hshort]
      split
      · exact hend
      · exact hend

/-- The loop on a log and a torn tail ends after what is kept of the log, or fails. -/
theorem recoverLoop_kept {tail : Bytes} (htorn : Torn tail) (rest : List Mutation) :
    ∀ {e : Engine σ} {done : List Mutation} {fuel : Nat},
      Replayed P actor e done (encodeLog P rest ++ tail) →
      (∀ m ∈ done ++ rest, P.Encodable m) → WfLog (done ++ rest) →
      (∀ m ∈ done, (P.frameOf m).length < 2 ^ w.bits) →
      (encodeLog P rest ++ tail).length ≤ fuel →
      Ends P actor (boundary P done + (encodeLog P rest ++ tail).length) done
        (AtWidth.recoverLoop w P (boundary P done + (encodeLog P rest ++ tail).length) fuel
          (boundary P done) (boundary P done) e)
        (kept w P tail rest) := by
  induction rest with
  | nil => exact fun h _ _ _ hfuel => recoverLoop_tail h htorn hfuel
  | cons m rest ih =>
      intro e done fuel h henc hwf hfits hfuel
      have hm : P.Encodable m := henc m (by simp)
      have h4 := hm.four_le
      have hsplit : encodeLog P (m :: rest) ++ tail =
          P.frameOf m ++ (encodeLog P rest ++ tail) := by
        rw [encodeLog_cons, List.append_assoc]
      have hsize : lenPrefixBytes + fromLe32 (P.frameOf m ++ (encodeLog P rest ++ tail)) =
          (P.frameOf m).length := (hm.isFrame.length_eq _).symm
      rw [kept]
      rw [hsplit] at h hfuel ⊢
      obtain ⟨fuel, rfl⟩ : ∃ n, fuel = n + 1 := ⟨fuel - 1, by
        rw [List.length_append] at hfuel
        omega⟩
      by_cases happlied : Applied w (P.frameOf m).length
          (P.frameOf m ++ (encodeLog P rest ++ tail)).length
      case neg =>
        -- the size wraps, or more is announced than the wrapped count of bytes left
        rw [if_neg happlied, ← hsize]
        refine recoverLoop_not_applied h ?_ ?_ fuel
        · rw [List.length_append]
          omega
        · rw [hsize]
          exact happlied
      rw [if_pos happlied]
      obtain ⟨e', hturn, h'⟩ := recoverLoop_applied h
        (fun x hx => henc x (List.mem_append_left _ hx)) hfits hm hwf.of_append happlied fuel
      -- the record moves from the rest to what is done
      have hsnoc : done ++ m :: rest = (done ++ [m]) ++ rest := by simp
      have htotal : boundary P done + (P.frameOf m ++ (encodeLog P rest ++ tail)).length =
          boundary P (done ++ [m]) + (encodeLog P rest ++ tail).length := by
        rw [boundary_snoc, List.length_append]
        omega
      rw [hsnoc] at henc hwf
      have hfits' : ∀ x ∈ done ++ [m], (P.frameOf x).length < 2 ^ w.bits := by
        intro x hx
        rcases List.mem_append.1 hx with hx | hx
        · exact hfits x hx
        · rw [List.mem_singleton.1 hx]
          exact happlied.1
      have hfuel' : (encodeLog P rest ++ tail).length ≤ fuel := by
        rw [List.length_append] at hfuel
        omega
      have hrest := ih h' henc hwf hfits' hfuel'
      rw [hturn, htotal]
      cases hk : kept w P tail rest with
      | none =>
          rw [hk] at hrest
          exact hrest
      | some ks =>
          rw [hk, Ends, List.append_assoc] at hrest
          exact hrest

/-- What the end of `recover` makes of a loop that stopped after `log`. -/
theorem recover_of_stops {s : σ} {log : List Mutation}
    (h : Stops P actor (Storage.len s) log (AtWidth.recoverLoop w P (Storage.len s) (Storage.len s)
      headerLen headerLen (Engine.blank actor s))) :
    ∃ e, AtWidth.recover w P (Engine.blank actor s) = .ok () e ∧ Replayed P actor e log [] := by
  unfold AtWidth.recover
  rw [bind_of_ok (get_apply _)]
  rcases h with ⟨e, hend, h⟩ | ⟨e, more, hend, h, htotal⟩
  · exact ⟨e, bind_of_ok hend, h⟩
  · by_cases hmore : 0 < more.length
    · obtain ⟨e', htr, h'⟩ := h.truncate
      refine ⟨e', (bind_of_ok hend).trans ?_, h'⟩
      show (if _ < Storage.len s then _ else _ : EngineM σ Unit) e = _
      rw [if_pos (by omega)]
      exact htr
    · have hnil : more = [] := List.length_eq_zero_iff.1 (by omega)
      refine ⟨e, (bind_of_ok hend).trans ?_, hnil ▸ h⟩
      show (if _ < Storage.len s then _ else _ : EngineM σ Unit) e = _
      rw [if_neg (by omega)]
      rfl

/-- Opening a store that holds a log and a torn tail recovers what is kept of the log, and fails
when nothing is. -/
theorem openWith_kept {s : σ} {log : List Mutation} {tail : Bytes}
    (hc : contents s = storeImage P log tail) (henc : ∀ m ∈ log, P.Encodable m)
    (hwf : WfLog log) (htorn : Torn tail) (hrel : Reliable s) (w : PointerWidth)
    (actor : ActorId) :
    (∀ ks, kept w P tail log = some ks →
      ∃ e, AtWidth.openWith w P actor s = .ok e ∧ Recovered P actor e ks) ∧
      (kept w P tail log = none → ∃ err, AtWidth.openWith w P actor s = .error err) := by
  have hstart : Replayed P actor (Engine.blank actor s) [] (encodeLog P log ++ tail) := by
    refine ⟨?_, rfl, rfl, hrel, rfl, rfl⟩
    show contents s = _
    rw [hc]
    simp [storeImage]
  have htotal : Storage.len s = boundary P [] + (encodeLog P log ++ tail).length := by
    rw [len_eq, hc, length_storeImage, boundary, boundary, List.length_append, encodeLog_nil,
      List.length_nil]
    omega
  have hfuel : (encodeLog P log ++ tail).length ≤ Storage.len s := by omega
  have hends := recoverLoop_kept (w := w) htorn log hstart henc hwf (by simp) hfuel
  rw [← htotal] at hends
  constructor
  · intro ks hk
    rw [hk, Ends, List.nil_append] at hends
    obtain ⟨e, hrec, h⟩ := recover_of_stops hends
    obtain ⟨rest, rfl⟩ := kept_prefix hk
    refine ⟨e, ?_, ⟨h.contents, fun m hm => henc m (List.mem_append_left _ hm), hwf.of_append,
      h.indexes, h.reliable⟩, h.nextLocalSeq, h.actor, h.mutationLog⟩
    rw [AtWidth.openWith, hrec]
  · intro hk
    rw [hk] at hends
    obtain ⟨err, e, hend⟩ := hends
    have hrec : AtWidth.recover w P (Engine.blank actor s) = .error err e := by
      unfold AtWidth.recover
      rw [bind_of_ok (get_apply _)]
      exact bind_of_error hend
    exact ⟨err, by rw [AtWidth.openWith, hrec]⟩

/-! ## The main result -/

/-- Tails of at least four bytes whose prefix promises more than they hold, at either width. Opening
succeeds, cuts the tail off and restores the engine exactly when all of the log is kept: always on a
64-bit target, and on a store below 4 GiB exactly when the promised size does not go past the
largest `usize` by more than one. No read goes past the end of the store. -/
theorem oversized_prefix_dropped_iff (w : PointerWidth) {e : Engine σ} (h : Reach P e) {s : σ}
    {tail : Bytes} (hs : contents s = contents e.storage ++ tail) (hrel : Reliable s)
    (h4 : 4 ≤ tail.length) (hp : tail.length - 4 < fromLe32 tail) (actor : ActorId) :
    ∃ log, contents e.storage = header ++ encodeLog P log ∧
      ((∃ e', AtWidth.openWith w P actor s = .ok e' ∧ Restores e' e) ↔
        kept w P tail log = some log) ∧
      (w = .native64 → kept w P tail log = some log) ∧
      ((contents s).length < 2 ^ 32 →
        (kept w P tail log = some log ↔ 4 + fromLe32 tail ≤ 2 ^ w.bits)) ∧
      (finalState
        (AtWidth.recover w P (Engine.blank actor (Watched.mk s false)))).storage.past = false := by
  obtain ⟨hist, hrun⟩ := h.run
  obtain ⟨log, hinv, -⟩ := hrun.inv
  have hc : contents s = storeImage P log tail := by
    rw [hs, hinv.contents]
    simp [storeImage]
  have hshorter : (encodeLog P log ++ tail).length ≤ (contents s).length := by
    rw [hc, length_storeImage, boundary, List.length_append]
    omega
  have htorn : Torn tail := Or.inr (by omega)
  obtain ⟨hsome, hnone⟩ := openWith_kept hc hinv.encodable hinv.wf htorn hrel w actor
  refine ⟨log, by simpa [storeImage] using hinv.contents, ⟨?_, fun hk => ?_⟩, fun hw => ?_,
    fun hlt => ?_, AtWidth.recover_reads_inside actor s⟩
  · rintro ⟨e', hopen, hres⟩
    cases hk : kept w P tail log with
    | none =>
        obtain ⟨err, herr⟩ := hnone hk
        rw [hopen] at herr
        cases herr
    | some ks =>
        obtain ⟨e1, hopen1, hrec⟩ := hsome ks hk
        rw [hopen] at hopen1
        cases hopen1
        -- the store determines its records
        have himg : storeImage P ks [] = storeImage P log [] :=
          hrec.core.contents.symm.trans (hres.contents.trans hinv.contents)
        have hks : ks = log := by
          refine encodeLog_inj hrec.core.encodable hinv.encodable ?_
          simpa [storeImage] using himg
        rw [hks]
  · obtain ⟨e', hopen, hrec⟩ := hsome log hk
    exact ⟨e', hopen, (Inv.of_recovered hrec hinv.numbered hinv.foreshadow).restores hinv⟩
  · have hlen := len_lt s
    rw [len_eq] at hlen
    have hsmall := fromLe32_lt tail
    subst hw
    refine (kept_eq_some_iff h4 log ?_).2 ?_
    · simp only [PointerWidth.bits]
      omega
    · simp only [lenPrefixBytes, PointerWidth.bits]
      omega
  · have hw := w.two_pow_32_le
    exact kept_eq_some_iff h4 log (by omega)

/-- The store of one node followed by four bytes. -/
def fourMore (b0 b1 b2 b3 : UInt8) : MemoryStorage :=
  ⟨oneNode.storage.bytes ++ [b0, b1, b2, b3], by
    have hlen : oneNode.storage.bytes.length = 32 := by decide +kernel
    rw [List.length_append, hlen]
    show 32 + 4 ≤ maxLen
    decide⟩

/-- A prefix that promises 2 GiB is cut off, also on a 32-bit target. -/
theorem two_gib_prefix_is_dropped :
    ∃ e', AtWidth.openWith .wasm32 bincode ⟨"u", "d"⟩ (fourMore 0 0 0 128) = .ok e' ∧
      Restores e' oneNode := by
  have hs : contents (fourMore 0 0 0 128) = contents oneNode.storage ++ [0, 0, 0, 128] := rfl
  obtain ⟨log, -, hiff, -, hsmall, -⟩ := oversized_prefix_dropped_iff .wasm32 reach_oneNode hs
    trivial (by decide) (by decide) ⟨"u", "d"⟩
  refine hiff.2 ((hsmall ?_).2 (by decide))
  show (oneNode.storage.bytes ++ [0, 0, 0, 128]).length < 2 ^ 32
  decide +kernel

/-- The largest prefix, on a 32-bit target: the size wraps to three bytes, and the store does not
open. -/
theorem largest_prefix_is_fatal :
    Reach bincode oneNode ∧
      contents (fourMore 255 255 255 255) = contents oneNode.storage ++ [255, 255, 255, 255] ∧
      fromLe32 [255, 255, 255, 255] = 2 ^ 32 - 1 ∧
      ¬ ∃ e', AtWidth.openWith .wasm32 bincode ⟨"u", "d"⟩ (fourMore 255 255 255 255) =
        .ok e' := by
  refine ⟨reach_oneNode, rfl, by decide, ?_⟩
  rintro ⟨e', hopen⟩
  have hfails : (AtWidth.openWith .wasm32 bincode ⟨"u", "d"⟩ (fourMore 255 255 255 255)).isOk =
      false := by decide +kernel
  rw [hopen] at hfails
  cases hfails

end Morceau
