import Morceau.Engine.Operations

/-!
# Sequence numbers, and cutting a log

`Inv P e log` is `Core P e log` together with what the sequence counter guarantees as long as no
append fails: the records of the log carry the numbers 1, 2, 3, ..., every record is a foreshadow
record, and the counter is one past the last. A commit takes at least four bytes of a store whose
length fits `u64`, so the counter does not wrap. Quiet steps and commits keep `Inv`; so do chains
(`Inv.chain`).

`cut_log` says what a prefix of a store is: the frames of a prefix of the log, as many as fit, and a
torn tail.
-/

set_option autoImplicit false

namespace Morceau

open Lib LawfulStorage

/-! ## Numbered logs -/

/-- The records carry the sequence numbers 1, 2, 3, ... -/
def Numbered (log : List Mutation) : Prop :=
  ∀ i m, log[i]? = some m → m.localSeq.toNat = i + 1

theorem numbered_nil : Numbered [] := by
  intro i m h
  simp at h

theorem numbered_snoc {log : List Mutation} {m : Mutation} :
    Numbered (log ++ [m]) ↔ Numbered log ∧ m.localSeq.toNat = log.length + 1 := by
  constructor
  · intro h
    refine ⟨fun i x hx => h i x ?_, h log.length m (by simp)⟩
    rw [List.getElem?_append_left (List.getElem?_eq_some_iff.1 hx).1]
    exact hx
  · rintro ⟨h, hm⟩ i x hx
    by_cases hi : i < log.length
    · rw [List.getElem?_append_left hi] at hx
      exact h i x hx
    · rw [List.getElem?_append_right (by omega)] at hx
      have hlt := (List.getElem?_eq_some_iff.1 hx).1
      have hi' : i = log.length := by
        simp only [List.length_singleton] at hlt
        omega
      subst hi'
      simp only [Nat.sub_self, List.getElem?_cons_zero, Option.some.injEq] at hx
      rw [← hx]
      exact hm

theorem Numbered.take {log : List Mutation} (h : Numbered log) (n : Nat) :
    Numbered (log.take n) := by
  intro i m hm
  refine h i m ?_
  have hlt := (List.getElem?_eq_some_iff.1 hm).1
  rw [List.length_take] at hlt
  rw [← hm, List.getElem?_take_of_lt (by omega)]

/-- In a numbered log the sequence numbers strictly increase. -/
theorem Numbered.pairwise {log : List Mutation} (h : Numbered log) :
    log.Pairwise fun a b => a.localSeq < b.localSeq := by
  rw [List.pairwise_iff_getElem]
  intro i j hi hj hij
  have h1 := h i _ (List.getElem?_eq_getElem hi)
  have h2 := h j _ (List.getElem?_eq_getElem hj)
  rw [UInt64.lt_iff_toNat_lt]
  omega

/-- Replaying a numbered log sets the counter to one past its last number. -/
theorem toNat_replaySeq {log : List Mutation} (h : Numbered log)
    (hlen : log.length + 1 < 2 ^ 64) : (replaySeq log).toNat = log.length + 1 := by
  induction log using List.reverseRecOn with
  | nil => rfl
  | append_singleton log m ih =>
      obtain ⟨hlog, hm⟩ := numbered_snoc.1 h
      rw [List.length_append, List.length_singleton] at hlen ⊢
      have hnext := ih hlog (by omega)
      have hle : replaySeq log ≤ m.localSeq := by
        rw [UInt64.le_iff_toNat_le]
        omega
      rw [replaySeq_snoc, seqStep, if_pos hle, UInt64.toNat_add, hm]
      show (log.length + 1 + 1) % 2 ^ 64 = _
      omega

variable {P : Platform}

/-- Every record takes at least the four bytes of its length prefix. -/
theorem four_mul_length_le {log : List Mutation} (henc : ∀ m ∈ log, P.Encodable m) :
    4 * log.length ≤ (encodeLog P log).length := by
  induction log with
  | nil => simp
  | cons m log ih =>
      have h4 := (henc m (List.mem_cons_self ..)).four_le
      have := ih fun x hx => henc x (List.mem_cons_of_mem _ hx)
      rw [encodeLog_cons, List.length_append, List.length_cons]
      omega

variable {σ : Type} [LawfulStorage σ] {e e' : Engine σ} {log : List Mutation}

/-- A log that is stored has fewer records than there are sequence numbers. -/
theorem Core.length_lt (h : Core P e log) : log.length + 1 < 2 ^ 64 := by
  have hlt := len_lt e.storage
  rw [len_eq, h.contents, length_storeImage, boundary] at hlt
  have := four_mul_length_le h.encodable
  simp only [headerLen] at hlt
  omega

/-! ## The invariant with sequence numbers -/

/-- `Core`, with a numbered log of foreshadow records and the counter one past it. -/
structure Inv (P : Platform) (e : Engine σ) (log : List Mutation) : Prop extends Core P e log where
  numbered : Numbered log
  foreshadow : ∀ m ∈ log, m.foreshadow = true
  nextLocalSeq : e.nextLocalSeq.toNat = log.length + 1

namespace Inv

theorem quiet (h : Inv P e log) (hq : Quiet e e') : Inv P e' log where
  toCore := h.toCore.quiet hq
  numbered := h.numbered
  foreshadow := h.foreshadow
  nextLocalSeq := by
    rw [hq.nextLocalSeq]
    exact h.nextLocalSeq

theorem commit (h : Inv P e log) {op : MutationOp} (hf : Fresh e op)
    (hc : Engine.commit P op e = .ok () e') : Inv P e' (log ++ [stamp e op]) := by
  have hcom := h.toCore.committed hf hc
  refine ⟨hcom.core, numbered_snoc.2 ⟨h.numbered, h.nextLocalSeq⟩, ?_, ?_⟩
  · intro m hm
    rcases List.mem_append.1 hm with hm | hm
    · exact h.foreshadow m hm
    · rw [List.mem_singleton.1 hm]
      rfl
  · have hlt := hcom.core.length_lt
    rw [hcom.nextLocalSeq, UInt64.toNat_add, h.nextLocalSeq, List.length_append]
    rw [List.length_append] at hlt
    show (log.length + 1 + 1) % 2 ^ 64 = _
    simp only [List.length_singleton] at hlt ⊢
    omega

/-- The mutation log is outside the invariant. -/
theorem setLog (h : Inv P e log) (l : Option MutationLog) :
    Inv P { e with mutationLog := l } log where
  contents := h.contents
  encodable := h.encodable
  wf := h.wf
  indexes := h.indexes
  reliable := h.reliable
  numbered := h.numbered
  foreshadow := h.foreshadow
  nextLocalSeq := h.nextLocalSeq

theorem wire (h : Inv P e log) (l : MutationLog) : Inv P (e.withMutationLog l) log := h.setLog _

/-- A chain keeps the invariant; each of its commits adds the record that it committed. -/
theorem chain (h : Inv P e log) {hs : List (Engine σ)} (hch : Chain P e hs e') :
    ∃ ms, Inv P e' (log ++ ms) ∧ hs.length = ms.length ∧
      ∀ j s, hs[j]? = some s → Inv P s (log ++ ms.take (j + 1)) :=
  hch.invariant (K := Inv P) (fun h hq => h.quiet hq) (fun h hf hc => h.commit hf hc) h

theorem of_recovered {actor : ActorId} (h : Recovered P actor e log) (hnum : Numbered log)
    (hfs : ∀ m ∈ log, m.foreshadow = true) : Inv P e log where
  toCore := h.core
  numbered := hnum
  foreshadow := hfs
  nextLocalSeq := by
    rw [h.nextLocalSeq]
    exact toNat_replaySeq hnum h.core.length_lt

/-- Two engines over the same log have the same counter. -/
theorem nextLocalSeq_eq (h : Inv P e log) (h' : Inv P e' log) :
    e.nextLocalSeq = e'.nextLocalSeq :=
  UInt64.toNat_inj.1 (h.nextLocalSeq.trans h'.nextLocalSeq.symm)

end Inv

/-- The store determines the log. -/
theorem Core.log_eq {log' : List Mutation} (h : Core P e log) (h' : Core P e log') :
    log = log' := by
  refine encodeLog_inj h.encodable h'.encodable ?_
  have heq := h.contents.symm.trans h'.contents
  simpa [storeImage] using heq

/-! ## Cutting a log -/

/-- The boundaries of a log strictly increase. -/
theorem boundary_take_lt (henc : ∀ m ∈ log, P.Encodable m) {i j : Nat} (hij : i < j)
    (hj : j ≤ log.length) : boundary P (log.take i) < boundary P (log.take j) := by
  have hsplit : log.take j = log.take i ++ (log.take j).drop i := by
    have := List.take_append_drop i (log.take j)
    rw [List.take_take, Nat.min_eq_left (by omega)] at this
    exact this.symm
  have h4 : 4 * ((log.take j).drop i).length ≤ (encodeLog P ((log.take j).drop i)).length :=
    four_mul_length_le fun m hm => henc m (List.mem_of_mem_take (List.mem_of_mem_drop hm))
  rw [List.length_drop, List.length_take] at h4
  rw [hsplit, boundary, boundary, encodeLog_append, List.length_append]
  omega

theorem boundary_take_le (henc : ∀ m ∈ log, P.Encodable m) {i j : Nat} (hj : j ≤ log.length)
    (h : boundary P (log.take j) ≤ boundary P (log.take i)) : j ≤ i := by
  by_contra hij
  have := boundary_take_lt henc (Nat.lt_of_not_le hij) hj
  omega

/-- Cutting a store at a boundary. -/
theorem storeImage_take (n : Nat) :
    (storeImage P log []).take (boundary P (log.take n)) = storeImage P (log.take n) [] := by
  have hsplit : storeImage P log [] =
      storeImage P (log.take n) [] ++ encodeLog P (log.drop n) := by
    rw [storeImage, storeImage, List.append_nil, List.append_nil, List.append_assoc,
      ← encodeLog_append, List.take_append_drop]
  have hlen : (storeImage P (log.take n) []).length = boundary P (log.take n) := by
    rw [length_storeImage, List.length_nil, Nat.add_zero]
  rw [hsplit, ← hlen, List.take_left]

/-- A prefix of a store that keeps the header is the frames of a prefix of the log, as many as fit,
and a torn tail. -/
theorem cut_log (henc : ∀ m ∈ log, P.Encodable m) {k : Nat} (hk : headerLen ≤ k) :
    ∃ n tail, n ≤ log.length ∧
      (storeImage P log []).take k = storeImage P (log.take n) tail ∧ Torn tail ∧
      boundary P (log.take n) ≤ k ∧
      ∀ j, j ≤ log.length → boundary P (log.take j) ≤ k → j ≤ n := by
  have hframes : ∀ f ∈ log.map P.frameOf, IsFrame f := by
    intro f hf
    obtain ⟨m, hm, rfl⟩ := List.mem_map.1 hf
    exact (henc m hm).isFrame
  obtain ⟨n0, tail, hcut, htorn, hle, hmax⟩ := cut_torn _ hframes (k - headerLen)
  -- taking more frames than there are is taking all of them
  obtain ⟨n, hn, htake⟩ : ∃ n, n ≤ log.length ∧ log.take n0 = log.take n :=
    ⟨min n0 log.length, Nat.min_le_right _ _, by rw [← List.take_eq_take_min]⟩
  simp only [← List.map_take] at hcut hle hmax
  rw [htake] at hcut hle hmax
  have hbound : ∀ j, boundary P (log.take j) ≤ k ↔
      ((log.take j).map P.frameOf).flatten.length ≤ k - headerLen := by
    intro j
    rw [boundary, encodeLog]
    omega
  refine ⟨n, tail, hn, ?_, htorn, (hbound n).2 hle, fun j hj hjk => ?_⟩
  · rw [storeImage, List.append_nil, List.take_append, length_header, List.take_of_length_le
      (by rw [length_header]; exact hk)]
    rw [storeImage, List.append_assoc]
    exact congrArg (header ++ ·) hcut
  · refine boundary_take_le henc hj ?_
    have := hmax j ((hbound j).1 hjk)
    simp only [boundary, encodeLog]
    omega

end Morceau
