import Morceau.Atomicity

/-!
# Gaps in the sequence numbers

`Engine::commit` takes a sequence number before it encodes and appends, and does not give it back
when either fails. `Engine::recover` sets the counter to one past the last record that it replays.
So a number that a failed commit took is lost when a later commit of the same session succeeds, and
is used again when the store is reopened first.

`LossyReach P e` are the engines of runs in which any append may fail. A `Ledger` goes along with
such a run: the records of the store, each with the number of commits that failed in its session
since the record before it or since the session began, and the number of commits that failed since
the last record. The ledger is not part of the program. A run determines one (`LossyReach.tallied`),
and the records on the store are numbered 1, 2, 3, ... exactly when every record of the ledger comes
after no failed commit, up to a multiple of 2 ^ 64 (`numbered_iff_none_skipped`).
-/

set_option autoImplicit false

namespace Morceau

open Lib LawfulStorage

variable {σ : Type} [LawfulStorage σ] {P : Platform}

/-! ## Runs whose appends may fail -/

/-- Engines that sessions on one store reach when any append may fail. The host may repeat a call
that failed, make other calls, or open the store again, after a crash at any byte. -/
inductive LossyReach (P : Platform) : Engine σ → Prop where
  | fresh {actor : ActorId} {s : σ} {e : Engine σ} :
      contents s = header → Reliable s → Engine.openWith P actor s = .ok e → LossyReach P e
  | faults {e : Engine σ} {s : σ} :
      LossyReach P e → contents s = contents e.storage → Reliable s →
      LossyReach P { e with storage := s }
  | wire {e : Engine σ} (l : MutationLog) : LossyReach P e → LossyReach P (e.withMutationLog l)
  | call {e : Engine σ} (c : Call) : LossyReach P e → LossyReach P (finalState (c.run P e))
  | reopen {e e' : Engine σ} {k : Nat} {actor : ActorId} {s : σ} :
      LossyReach P e → headerLen ≤ k → contents s = (contents e.storage).take k → Reliable s →
      Engine.openWith P actor s = .ok e' → LossyReach P e'

/-! ## The ledger of a run -/

/-- A record of the store, and how many commits of its session failed between it and the record
before it. -/
structure LedgerEntry where
  record : Mutation
  skipped : Nat

/-- The records of the store, and how many commits of the session failed since the last one. -/
structure Ledger where
  entries : List LedgerEntry
  pending : Nat

namespace Ledger

/-- The ledger of a new store. -/
def empty : Ledger := ⟨[], 0⟩

/-- The records. -/
def log (l : Ledger) : List Mutation := l.entries.map LedgerEntry.record

/-- A commit failed. -/
def fail (l : Ledger) : Ledger := { l with pending := l.pending + 1 }

/-- The record `m` was committed. -/
def append (l : Ledger) (m : Mutation) : Ledger := ⟨l.entries ++ [⟨m, l.pending⟩], 0⟩

/-- A session began on a store with the first `n` records. -/
def reopen (l : Ledger) (n : Nat) : Ledger := ⟨l.entries.take n, 0⟩

/-- Each of the first `n` records comes after no failed commit. The counter has 64 bits, so that
2 ^ 64 failures leave no trace. -/
def NoneSkipped (l : Ledger) (n : Nat) : Prop :=
  ∀ r ∈ l.entries.take n, r.skipped % 2 ^ 64 = 0

variable {l : Ledger} {m : Mutation}

theorem length_log : l.log.length = l.entries.length := List.length_map _

@[simp] theorem log_fail : l.fail.log = l.log := rfl

@[simp] theorem log_append : (l.append m).log = l.log ++ [m] := by
  simp [log, append]

@[simp] theorem log_reopen (n : Nat) : (l.reopen n).log = l.log.take n := by
  simp [log, reopen, List.map_take]

theorem noneSkipped_append_of_le {n : Nat} (hn : n ≤ l.entries.length) :
    (l.append m).NoneSkipped n ↔ l.NoneSkipped n := by
  rw [NoneSkipped, NoneSkipped, append, List.take_append_of_le_length hn]

theorem noneSkipped_append_of_lt {n : Nat} (hn : l.entries.length < n) :
    (l.append m).NoneSkipped n ↔ l.NoneSkipped n ∧ l.pending % 2 ^ 64 = 0 := by
  have hall : (l.entries ++ [LedgerEntry.mk m l.pending]).take n =
      l.entries ++ [LedgerEntry.mk m l.pending] := by
    apply List.take_of_length_le
    rw [List.length_append, List.length_singleton]
    exact hn
  rw [NoneSkipped, NoneSkipped, append, hall, List.take_of_length_le hn.le]
  simp only [List.forall_mem_append, List.forall_mem_singleton]

end Ledger

/-- A step of a session and what it enters into the ledger. -/
inductive TallyStep (P : Platform) : Engine σ × Ledger → Engine σ × Ledger → Prop where
  | quiet {e e' : Engine σ} {l : Ledger} : Quiet e e' → TallyStep P (e, l) (e', l)
  | done {e e' : Engine σ} {l : Ledger} {op : MutationOp} :
      Fresh e op → Engine.commit P op e = .ok () e' →
      TallyStep P (e, l) (e', l.append (stamp e op))
  | failed {e e' : Engine σ} {l : Ledger} {op : MutationOp} {err : EngineError} :
      Fresh e op → Engine.commit P op e = .error err e' → TallyStep P (e, l) (e', l.fail)

/-- Any number of such steps. -/
def TallySteps (P : Platform) : Engine σ × Ledger → Engine σ × Ledger → Prop :=
  Relation.ReflTransGen (TallyStep P)

/-- A run whose appends may fail, with its ledger. -/
inductive Tallied (P : Platform) : Engine σ → Ledger → Prop where
  | fresh {actor : ActorId} {s : σ} {e : Engine σ} :
      contents s = header → Reliable s → Engine.openWith P actor s = .ok e →
      Tallied P e Ledger.empty
  | faults {e : Engine σ} {l : Ledger} {s : σ} :
      Tallied P e l → contents s = contents e.storage → Reliable s →
      Tallied P { e with storage := s } l
  | wire {e : Engine σ} {l : Ledger} (log : MutationLog) :
      Tallied P e l → Tallied P (e.withMutationLog log) l
  | call {e : Engine σ} {l l' : Ledger} (c : Call) :
      Tallied P e l → TallySteps P (e, l) (finalState (c.run P e), l') →
      Tallied P (finalState (c.run P e)) l'
  | reopen {e e' : Engine σ} {l : Ledger} {k n : Nat} {actor : ActorId} {s : σ} :
      Tallied P e l → headerLen ≤ k → contents s = (contents e.storage).take k → Reliable s →
      Engine.openWith P actor s = .ok e' → LastBoundary P l.log k n → Tallied P e' (l.reopen n)

/-! ## What a ledger says -/

/-- The store holds the records of the ledger; a prefix of them is numbered exactly when none of its
records comes after a failed commit; and past a numbered log the counter has moved by the failures
that are pending. -/
structure Booked (P : Platform) (e : Engine σ) (l : Ledger) : Prop where
  core : Core P e l.log
  numbered : ∀ n, Numbered (l.log.take n) ↔ l.NoneSkipped n
  nextLocalSeq : Numbered l.log →
    e.nextLocalSeq.toNat = (l.log.length + 1 + l.pending) % 2 ^ 64

/-- Taking a sequence number. -/
theorem toNat_next {a : UInt64} {n : Nat} (h : a.toNat = n % 2 ^ 64) :
    (a + 1).toNat = (n + 1) % 2 ^ 64 := by
  rw [UInt64.toNat_add, h]
  exact Nat.mod_add_mod n (2 ^ 64) 1

namespace Booked

variable {e e' : Engine σ} {l : Ledger}

theorem of_inv (h : Inv P e []) : Booked P e Ledger.empty where
  core := h.toCore
  numbered n := by
    have hlog : Ledger.empty.log.take n = [] := List.take_nil
    have hskip : Ledger.empty.NoneSkipped n := by
      simp [Ledger.NoneSkipped, Ledger.empty]
    rw [hlog]
    exact ⟨fun _ => hskip, fun _ => numbered_nil⟩
  nextLocalSeq _ := h.nextLocalSeq

theorem quiet (h : Booked P e l) (hq : Quiet e e') : Booked P e' l where
  core := h.core.quiet hq
  numbered := h.numbered
  nextLocalSeq hn := by
    rw [hq.nextLocalSeq]
    exact h.nextLocalSeq hn

theorem failed (h : Booked P e l) {op : MutationOp} (hf : Failed P e op e') :
    Booked P e' l.fail where
  core := h.core.failed hf
  numbered := h.numbered
  nextLocalSeq hn := by
    rw [hf.rest]
    exact toNat_next (h.nextLocalSeq hn)

/-- A commit keeps a numbered log numbered exactly when no failure is pending. -/
theorem numbered_snoc_stamp (h : Booked P e l) (op : MutationOp) :
    Numbered (l.log ++ [stamp e op]) ↔ Numbered l.log ∧ l.pending % 2 ^ 64 = 0 := by
  have hlt := h.core.length_lt
  rw [numbered_snoc]
  refine and_congr_right fun hnum => ?_
  show e.nextLocalSeq.toNat = _ ↔ _
  rw [h.nextLocalSeq hnum]
  omega

theorem done (h : Booked P e l) {op : MutationOp} (hc : Committed P e l.log op e') :
    Booked P e' (l.append (stamp e op)) where
  core := by
    rw [Ledger.log_append]
    exact hc.core
  numbered n := by
    rw [Ledger.log_append]
    rcases Nat.lt_or_ge l.entries.length n with hn | hn
    · -- all records, the new one among them
      rw [Ledger.noneSkipped_append_of_lt hn, ← h.numbered n, List.take_of_length_le
        (by rw [List.length_append, List.length_singleton, Ledger.length_log]; exact hn),
        List.take_of_length_le (by rw [Ledger.length_log]; exact hn.le)]
      exact h.numbered_snoc_stamp op
    · rw [Ledger.noneSkipped_append_of_le hn, ← h.numbered n, List.take_append_of_le_length
        (by rw [Ledger.length_log]; exact hn)]
  nextLocalSeq hnum := by
    rw [Ledger.log_append] at hnum ⊢
    obtain ⟨-, hstamp⟩ := numbered_snoc.1 hnum
    have hlt := h.core.length_lt
    have hnext : e.nextLocalSeq.toNat = (l.log.length + 1) % 2 ^ 64 := by
      rw [Nat.mod_eq_of_lt hlt]
      exact hstamp
    rw [hc.nextLocalSeq, toNat_next hnext, List.length_append, List.length_singleton]
    rfl

/-- Reopening forgets the pending failures: the counter is one past the last record. -/
theorem reopened (h : Booked P e l) {actor : ActorId} {n : Nat}
    (hrec : Recovered P actor e' (l.log.take n)) : Booked P e' (l.reopen n) where
  core := by
    rw [Ledger.log_reopen]
    exact hrec.core
  numbered k := by
    have hskip : (l.reopen n).NoneSkipped k ↔ l.NoneSkipped (min k n) := by
      rw [Ledger.NoneSkipped, Ledger.NoneSkipped, Ledger.reopen, List.take_take]
    rw [hskip, Ledger.log_reopen, List.take_take]
    exact h.numbered _
  nextLocalSeq hnum := by
    rw [Ledger.log_reopen] at hnum ⊢
    rw [hrec.nextLocalSeq, toNat_replaySeq hnum hrec.core.length_lt]
    exact (Nat.mod_eq_of_lt hrec.core.length_lt).symm

theorem step (h : Booked P e l) {l' : Ledger} (hstep : TallyStep P (e, l) (e', l')) :
    Booked P e' l' := by
  cases hstep with
  | quiet hq => exact h.quiet hq
  | done hf hc => exact h.done (h.core.committed hf hc)
  | failed hf hc => exact h.failed (h.core.not_committed hf hc)

theorem steps {a b : Engine σ × Ledger} (hsteps : TallySteps P a b) (h : Booked P a.1 a.2) :
    Booked P b.1 b.2 := by
  induction hsteps with
  | refl => exact h
  | tail _ hstep ih => exact ih.step hstep

end Booked

/-- Every run keeps the books. -/
theorem Tallied.booked {e : Engine σ} {l : Ledger} (h : Tallied P e l) : Booked P e l := by
  induction h with
  | fresh hs hrel hopen => exact Booked.of_inv (inv_fresh hs hrel hopen).1
  | faults _ hs hrel ih =>
      exact ⟨⟨hs.trans ih.core.contents, ih.core.encodable, ih.core.wf, ih.core.indexes, hrel⟩,
        ih.numbered, ih.nextLocalSeq⟩
  | wire log _ ih =>
      exact ⟨⟨ih.core.contents, ih.core.encodable, ih.core.wf, ih.core.indexes, ih.core.reliable⟩,
        ih.numbered, ih.nextLocalSeq⟩
  | call c _ hsteps ih => exact Booked.steps hsteps ih
  | reopen _ hk hs hrel hopen hn ih =>
      obtain ⟨n', e', hn', hopen', hrec⟩ := ih.core.openWith_take hk hs hrel _
      rw [hopen] at hopen'
      cases hopen'
      -- there is one last boundary
      obtain rfl := Nat.le_antisymm (hn.last _ hn'.le_length hn'.le_cut)
        (hn'.last _ hn.le_length hn.le_cut)
      exact ih.reopened hrec

/-! ## Every run has a ledger -/

theorem Chain.tally {e e' : Engine σ} {hs : List (Engine σ)} (h : Chain P e hs e') (l : Ledger) :
    ∃ l', TallySteps P (e, l) (e', l') := by
  induction h generalizing l with
  | nil e => exact ⟨l, Relation.ReflTransGen.refl⟩
  | quiet hq _ ih =>
      obtain ⟨l', hsteps⟩ := ih l
      exact ⟨l', Relation.ReflTransGen.head (.quiet hq) hsteps⟩
  | @commit e e1 e' hs op hf hc _ ih =>
      obtain ⟨l', hsteps⟩ := ih (l.append (stamp e op))
      exact ⟨l', Relation.ReflTransGen.head (.done hf hc) hsteps⟩

/-- A call moves the ledger too: by its commits, and by the one that failed. -/
theorem Ended.tally {ε α : Type} {fault : ε → Fault} {e : Engine σ}
    {r : EStateM.Result ε (Engine σ) α} (h : Ended P fault e r) (l : Ledger) :
    ∃ l', TallySteps P (e, l) (finalState r, l') := by
  cases h with
  | ok hch => exact hch.tally l
  | rejected _ hch => exact hch.tally l
  | broken _ hch hf hc =>
      obtain ⟨l', hsteps⟩ := hch.tally l
      exact ⟨l'.fail, Relation.ReflTransGen.tail hsteps (.failed hf hc)⟩

theorem LossyReach.tallied {e : Engine σ} (h : LossyReach P e) : ∃ l, Tallied P e l := by
  induction h with
  | fresh hs hrel hopen => exact ⟨_, Tallied.fresh hs hrel hopen⟩
  | faults _ hs hrel ih =>
      obtain ⟨l, hl⟩ := ih
      exact ⟨l, Tallied.faults hl hs hrel⟩
  | wire log _ ih =>
      obtain ⟨l, hl⟩ := ih
      exact ⟨l, Tallied.wire log hl⟩
  | call c _ ih =>
      obtain ⟨l, hl⟩ := ih
      obtain ⟨l', hsteps⟩ := (c.chained _ _ hl.booked.core).tally l
      exact ⟨l', Tallied.call c hl hsteps⟩
  | reopen _ hk hs hrel hopen ih =>
      obtain ⟨l, hl⟩ := ih
      obtain ⟨n, -, hn, -, -⟩ := hl.booked.core.openWith_take hk hs hrel ⟨"", ""⟩
      exact ⟨l.reopen n, Tallied.reopen hl hk hs hrel hopen hn⟩

/-! ## The main result -/

/-- The records of a store carry the numbers 1, 2, 3, ... exactly when none of them was committed
after a failed commit of its session. -/
theorem numbered_iff_none_skipped {e : Engine σ} (h : LossyReach P e) :
    (∃ l, Tallied P e l) ∧ ∀ l, Tallied P e l →
      contents e.storage = header ++ encodeLog P l.log ∧
        (Numbered l.log ↔ ∀ r ∈ l.entries, r.skipped % 2 ^ 64 = 0) := by
  refine ⟨h.tallied, fun l hl => ⟨?_, ?_⟩⟩
  · simpa [storeImage] using hl.booked.core.contents
  · have hall := hl.booked.numbered l.log.length
    rw [Ledger.NoneSkipped, List.take_length, Ledger.length_log, List.take_length] at hall
    exact hall

/-- The engine after two attempts to insert a node into a new file. -/
def twoAttempts (writes : List WriteOutcome) : Engine FileStorage :=
  Call.runAll bincode
    [.op (.insertNode (Node.new "a" "N")), .op (.insertNode (Node.new "a" "N"))]
    (Engine.blank ⟨"u", "d"⟩ (FileStorage.fresh "store" ⟨writes, [], []⟩))

theorem lossyReach_twoAttempts (writes : List WriteOutcome) :
    LossyReach bincode (twoAttempts writes) :=
  Call.runAll_induction (fun c _ h => LossyReach.call c h) _
    (LossyReach.fresh (s := FileStorage.fresh "store" ⟨writes, [], []⟩) rfl ⟨rfl, rfl⟩ rfl)

/-- The record of the insert, under a sequence number. -/
def insertRecord (n : UInt64) : Mutation :=
  ⟨n, ⟨"u", "d"⟩, true, .nodeInsert (Node.new "a" "N")⟩

/-- The first attempt succeeds and the second is refused: nothing was skipped. -/
theorem refused_attempt_skips_nothing :
    ∃ l, Tallied bincode (twoAttempts []) l ∧ ∀ r ∈ l.entries, r.skipped % 2 ^ 64 = 0 := by
  obtain ⟨⟨l, hl⟩, h⟩ := numbered_iff_none_skipped (lossyReach_twoAttempts [])
  obtain ⟨hc, hiff⟩ := h l hl
  have hstore : FileStorage.contents (twoAttempts []).storage =
      header ++ encodeLog bincode [insertRecord 1] := by decide +kernel
  have hlog : l.log = [insertRecord 1] :=
    encodeLog_inj hl.booked.core.encodable
      (List.forall_mem_singleton.2 ⟨_, rfl⟩) (List.append_cancel_left (hc.symm.trans hstore))
  refine ⟨l, hl, hiff.1 ?_⟩
  rw [hlog]
  exact numbered_snoc.2 ⟨numbered_nil, rfl⟩

/-- The first append fails and writes nothing, and the insert is repeated: the file holds one
record, and its sequence number is 2. -/
theorem retried_append_leaves_gap :
    LossyReach bincode (twoAttempts [.writeFail 0]) ∧
      (twoAttempts [.writeFail 0]).storage.file.bytes =
        header ++ encodeLog bincode [insertRecord 2] ∧
      ¬ Numbered [insertRecord 2] := by
  refine ⟨lossyReach_twoAttempts _, by decide +kernel, fun h => ?_⟩
  have := h 0 (insertRecord 2) rfl
  exact absurd this (by decide)

end Morceau
