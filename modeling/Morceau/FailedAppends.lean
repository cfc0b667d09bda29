import Morceau.CrashRecovery

/-!
# Failed appends on a file

`FileStorage::append` moves its length only when both `write_all` and `sync_all` succeed, so a
failed append leaves bytes past that length, and the next append writes over them. `TracedFile` is a
`FileStorage` that records every append it is asked for: the frame, how many bytes reached the file,
how many stale bytes stood past the length before, and the answer. The engine runs over it
unchanged.

`FileRun P e` are the engines that a session reaches from a new file, with any pattern of failing
appends. Its mutation log is wired from the start, so it holds exactly the mutations whose commit
returned `Ok`: `commit` records a mutation as its last step.

When every attempt either covers the stale bytes or writes nothing (`Attempt.Covers`), the file can
be reopened and the recovered log is the acknowledged records, followed by at most the record of a
failed append. When an attempt is shorter than what an earlier one left behind, the rest of the old
frame stands after the new one, and the file may not open again.
-/

set_option autoImplicit false

namespace Morceau

open Lib LawfulStorage

/-- One call of `FileStorage::append`. -/
structure Attempt where
  frame : Bytes
  written : Nat
  stale : Nat
  acked : Bool
deriving DecidableEq, Repr

/-- The attempt wrote over all stale bytes, or wrote nothing. -/
def Attempt.Covers (a : Attempt) : Prop := a.written = 0 ∨ a.stale ≤ a.written

instance (a : Attempt) : Decidable a.Covers := inferInstanceAs (Decidable (_ ∨ _))

/-- A file backend with the record of its appends. -/
structure TracedFile where
  inner : FileStorage
  attempts : List Attempt

namespace TracedFile

/-- `FileStorage::open` on a file that does not exist yet. -/
def new (path : String) (plan : IoPlan) : TracedFile :=
  ⟨FileStorage.fresh path plan, []⟩

/-- Add a call to the record. -/
def note (t : TracedFile) (b : Bytes) (s : FileStorage) (acked : Bool) : TracedFile :=
  ⟨s, t.attempts ++ [⟨b, t.inner.written b, t.inner.stale.length, acked⟩]⟩

/-- `FileStorage::append`, recorded. -/
def append (b : Bytes) : EStateM StorageError TracedFile Nat := fun t =>
  match FileStorage.append b t.inner with
  | .ok off s => .ok off (t.note b s true)
  | .error err s => .error err (t.note b s false)

/-- Run a call of the backend that is not recorded. -/
def pass {α : Type} (x : EStateM StorageError FileStorage α) : EStateM StorageError TracedFile α :=
  fun t =>
    match x t.inner with
    | .ok a s => .ok a { t with inner := s }
    | .error err s => .error err { t with inner := s }

instance : Storage TracedFile where
  append := append
  readAt o n := pass (FileStorage.readAt o n)
  len t := t.inner.len
  truncate n := pass (FileStorage.truncate n)

theorem append_eq_ok {b : Bytes} {t t' : TracedFile} {off : Nat} (h : append b t = .ok off t') :
    ∃ s, FileStorage.append b t.inner = .ok off s ∧ t' = t.note b s true := by
  unfold append at h
  cases hs : FileStorage.append b t.inner with
  | ok off' s =>
      rw [hs] at h
      cases h
      exact ⟨s, rfl, rfl⟩
  | error err s =>
      rw [hs] at h
      cases h

theorem append_eq_error {b : Bytes} {t t' : TracedFile} {err : StorageError}
    (h : append b t = .error err t') :
    ∃ s, FileStorage.append b t.inner = .error err s ∧ t' = t.note b s false := by
  unfold append at h
  cases hs : FileStorage.append b t.inner with
  | ok off' s =>
      rw [hs] at h
      cases h
  | error err' s =>
      rw [hs] at h
      cases h
      exact ⟨s, rfl, rfl⟩

theorem pass_eq_ok {α : Type} {x : EStateM StorageError FileStorage α} {t t' : TracedFile} {a : α}
    (h : pass x t = .ok a t') : ∃ s, x t.inner = .ok a s ∧ t' = { t with inner := s } := by
  unfold pass at h
  cases hs : x t.inner with
  | ok a' s =>
      rw [hs] at h
      cases h
      exact ⟨s, rfl, rfl⟩
  | error err s =>
      rw [hs] at h
      cases h

theorem pass_eq_error {α : Type} {x : EStateM StorageError FileStorage α} {t t' : TracedFile}
    {err : StorageError} (h : pass x t = .error err t') :
    ∃ s, x t.inner = .error err s ∧ t' = { t with inner := s } := by
  unfold pass at h
  cases hs : x t.inner with
  | ok a s =>
      rw [hs] at h
      cases h
  | error err' s =>
      rw [hs] at h
      cases h
      exact ⟨s, rfl, rfl⟩

instance : LawfulStorage TracedFile where
  contents t := t.inner.contents
  Reliable t := t.inner.Reliable
  len_eq t := len_eq t.inner
  len_lt t := len_lt t.inner
  append_ok {b t off t'} h := by
    obtain ⟨s, hs, rfl⟩ := append_eq_ok h
    exact LawfulStorage.append_ok (σ := FileStorage) hs
  append_error {b t err t'} h := by
    obtain ⟨s, hs, rfl⟩ := append_eq_error h
    exact LawfulStorage.append_error (σ := FileStorage) hs
  readAt_ok {o n t bs t'} h := by
    obtain ⟨s, hs, rfl⟩ := pass_eq_ok h
    exact LawfulStorage.readAt_ok (σ := FileStorage) hs
  readAt_error {o n t err t'} h := by
    obtain ⟨s, hs, rfl⟩ := pass_eq_error h
    exact LawfulStorage.readAt_error (σ := FileStorage) hs
  readAt_reliable {o n t} hr h := by
    obtain ⟨bs, s, hs⟩ := LawfulStorage.readAt_reliable (σ := FileStorage) hr h
    exact ⟨bs, { t with inner := s }, by
      show pass (FileStorage.readAt o n) t = _
      unfold pass
      rw [show FileStorage.readAt o n t.inner = _ from hs]⟩
  truncate_ok {n t t'} h hn := by
    obtain ⟨s, hs, rfl⟩ := pass_eq_ok h
    exact LawfulStorage.truncate_ok (σ := FileStorage) hs hn
  truncate_reliable {n t} hr hh hn := by
    obtain ⟨s, hs⟩ := LawfulStorage.truncate_reliable (σ := FileStorage) hr hh hn
    exact ⟨{ t with inner := s }, by
      show pass (FileStorage.truncate n) t = _
      unfold pass
      rw [show FileStorage.truncate n t.inner = _ from hs]⟩

/-- Reads leave the file and the record of the appends alone. -/
theorem readSteps_keeps {t t' : TracedFile} (h : ReadSteps t t') :
    t'.attempts = t.attempts ∧ t'.inner.stale = t.inner.stale ∧ t'.inner.file = t.inner.file := by
  induction h with
  | refl => exact ⟨rfl, rfl, rfl⟩
  | @tail t1 t2 _ hstep ih =>
      obtain ⟨o, n, rfl⟩ := hstep
      have hst := FileStorage.readAt_state o n t1.inner
      cases hr : (Storage.readAt o n t1 : EStateM.Result StorageError TracedFile Bytes) with
      | ok bs t2 =>
          obtain ⟨s, hs, rfl⟩ := pass_eq_ok hr
          rw [hs, finalState_ok] at hst
          subst hst
          exact ih
      | error err t2 =>
          obtain ⟨s, hs, rfl⟩ := pass_eq_error hr
          rw [hs, finalState_error] at hst
          subst hst
          exact ih

end TracedFile

/-! ## Sessions with failing appends -/

variable {P : Platform}

/-- Engines that a session reaches from a new file: any calls, and any appends may fail. -/
inductive FileRun (P : Platform) : Engine TracedFile → Prop where
  | fresh {actor : ActorId} {path : String} {plan : IoPlan} {e : Engine TracedFile} :
      plan.reads = [] → plan.cuts = [] →
      Engine.openWith P actor (TracedFile.new path plan) = .ok e →
      FileRun P (e.withMutationLog MutationLog.new)
  | call {e : Engine TracedFile} (c : Call) : FileRun P e → FileRun P (finalState (c.run P e))

/-- The record was passed to an append. -/
def Attempted (P : Platform) (t : TracedFile) (m : Mutation) : Prop :=
  ∃ a ∈ t.attempts, a.frame = P.frameOf m

/-- What stands past the backend's length: nothing, or the beginning of the frame of a record that
was passed to append and would be admissible next. -/
def Leftover (P : Platform) (t : TracedFile) (log : List Mutation) : Prop :=
  t.inner.stale = [] ∨
    ∃ m n, t.inner.stale = (P.frameOf m).take n ∧ P.Encodable m ∧ Attempted P t m ∧
      (PropertyGraph.ofLog log).Admissible m.op

/-- The invariant of a session with failing appends. -/
structure FileInv (P : Platform) (e : Engine TracedFile) (log : List Mutation) : Prop where
  core : Core P e log
  acked : e.mutationLog.map MutationLog.handed = some log
  attempted : ∀ m ∈ log, Attempted P e.storage m
  leftover : (∀ a ∈ e.storage.attempts, a.Covers) → Leftover P e.storage log

namespace FileInv

variable {e e' : Engine TracedFile} {log : List Mutation}

theorem attempted_note {t : TracedFile} {m : Mutation} (h : Attempted P t m) (b : Bytes)
    (s : FileStorage) (acked : Bool) : Attempted P (t.note b s acked) m := by
  obtain ⟨a, ha, hf⟩ := h
  exact ⟨a, List.mem_append_left _ ha, hf⟩

theorem attempted_of_note (t : TracedFile) (m : Mutation) (s : FileStorage) (acked : Bool) :
    Attempted P (t.note (P.frameOf m) s acked) m :=
  ⟨_, List.mem_append_right _ (List.mem_singleton.2 rfl), rfl⟩

theorem quiet (h : FileInv P e log) (hq : Quiet e e') : FileInv P e' log := by
  obtain ⟨hatt, hstale, -⟩ := TracedFile.readSteps_keeps hq.reads
  refine ⟨h.core.quiet hq, by rw [hq.mutationLog]; exact h.acked, fun m hm => ?_, fun hcov => ?_⟩
  · obtain ⟨a, ha, hf⟩ := h.attempted m hm
    exact ⟨a, hatt ▸ ha, hf⟩
  · rw [hatt] at hcov
    unfold Leftover Attempted
    rw [hatt, hstale]
    exact h.leftover hcov

/-- A successful commit is acknowledged, and its frame covers the stale bytes. -/
theorem commit (h : FileInv P e log) {op : MutationOp} (hf : Fresh e op)
    (hc : Engine.commit P op e = .ok () e') : FileInv P e' (log ++ [stamp e op]) := by
  have hcom := h.core.committed hf hc
  obtain ⟨off, t, happ, hreads⟩ := hcom.storage
  obtain ⟨s, hs, rfl⟩ := TracedFile.append_eq_ok happ
  obtain ⟨-, -, hdrop, -, hwritten⟩ := FileStorage.append_eq_ok hs
  obtain ⟨hatt, hstale, -⟩ := TracedFile.readSteps_keeps hreads
  refine ⟨hcom.core, ?_, fun m hm => ?_, fun hcov => Or.inl ?_⟩
  · obtain ⟨l, hl, hlog⟩ := Option.map_eq_some_iff.1 h.acked
    rw [hcom.mutationLog, hl, ← hlog]
    simp [MutationLog.handed_record]
  · unfold Attempted
    rw [hatt]
    rcases List.mem_append.1 hm with hm | hm
    · exact attempted_note (h.attempted m hm) _ _ _
    · rw [List.mem_singleton.1 hm]
      exact attempted_of_note _ _ _ _
  · -- the frame is not empty, so the attempt covers all stale bytes
    rw [hatt] at hcov
    have h4 := (hcom.core.encodable (stamp e op) (by simp)).four_le
    have hcovers := hcov _ (List.mem_append_right _ (List.mem_singleton.2 rfl))
    simp only [Attempt.Covers, hwritten] at hcovers
    rw [hstale]
    show s.stale = []
    rw [hdrop]
    exact List.drop_eq_nil_of_le (by omega)

/-- A failed commit leaves what it wrote, or what was there when it wrote nothing. -/
theorem failed (h : FileInv P e log) {op : MutationOp} (hfr : Fresh e op)
    (hf : Failed P e op e') : FileInv P e' log := by
  have hacked : e'.mutationLog.map MutationLog.handed = some log := by
    rw [hf.mutationLog]
    exact h.acked
  rcases hf.storage with hs | ⟨henc, err, happ⟩
  · exact ⟨h.core.failed hf, hacked, hs ▸ h.attempted, hs ▸ h.leftover⟩
  · obtain ⟨s, hs, hnote⟩ := TracedFile.append_eq_error happ
    obtain ⟨-, -, hstale⟩ := FileStorage.append_eq_error hs
    refine ⟨h.core.failed hf, hacked, fun m hm => ?_, fun hcov => ?_⟩
    · rw [hnote]
      exact attempted_note (h.attempted m hm) _ _ _
    · rw [hnote] at hcov ⊢
      have hcovers := hcov _ (List.mem_append_right _ (List.mem_singleton.2 rfl))
      have hold := h.leftover fun a ha => hcov a (List.mem_append_left _ ha)
      unfold Leftover
      show s.stale = [] ∨ _
      rcases hcovers with hzero | hle
      · have hsame : s.stale = e.storage.inner.stale := by
          rw [hstale, show e.storage.inner.written _ = 0 from hzero]
          rfl
        show s.stale = [] ∨ ∃ m n, s.stale = _ ∧ _
        rw [hsame]
        rcases hold with hnil | ⟨m, n, hm, hmenc, hatt, hadm⟩
        · exact Or.inl hnil
        · exact Or.inr ⟨m, n, hm, hmenc, attempted_note hatt _ _ _, hadm⟩
      · refine Or.inr ⟨stamp e op, e.storage.inner.written (P.frameOf (stamp e op)), ?_, henc,
          attempted_of_note _ _ _ _, h.core.admissible hfr⟩
        show s.stale = _
        rw [hstale, List.drop_eq_nil_of_le hle, List.append_nil]

/-- Every call keeps the invariant, whichever of its appends fails. -/
theorem call (h : FileInv P e log) (c : Call) :
    ∃ log', FileInv P (finalState (c.run P e)) log' := by
  have hchain : ∀ {hs e1}, Chain P e hs e1 → ∃ ms, FileInv P e1 (log ++ ms) := by
    intro hs e1 hch
    obtain ⟨ms, hend, -, -⟩ := hch.invariant (K := FileInv P) (fun h hq => h.quiet hq)
      (fun h hf hc => h.commit hf hc) h
    exact ⟨ms, hend⟩
  have hend := c.chained e log h.core
  cases hr : c.run P e with
  | ok a e' =>
      rw [hr] at hend
      cases hend with
      | ok hch =>
          obtain ⟨ms, h'⟩ := hchain hch
          exact ⟨_, h'⟩
  | error err e' =>
      rw [hr] at hend
      cases hend with
      | rejected _ hch =>
          obtain ⟨ms, h'⟩ := hchain hch
          exact ⟨_, h'⟩
      | broken _ hch hfr hc =>
          obtain ⟨ms, h'⟩ := hchain hch
          exact ⟨_, h'.failed hfr (h'.core.not_committed hfr hc)⟩

end FileInv

/-- Opening a new file reads nothing. -/
theorem openWith_new (actor : ActorId) (path : String) (plan : IoPlan) :
    Engine.openWith P actor (TracedFile.new path plan) =
      .ok (Engine.blank actor (TracedFile.new path plan)) := rfl

/-- Every session keeps the invariant. -/
theorem FileRun.inv {e : Engine TracedFile} (h : FileRun P e) : ∃ log, FileInv P e log := by
  induction h with
  | @fresh actor path plan e hreads hcuts hopen =>
      have hinv := (inv_fresh (s := TracedFile.new path plan) rfl ⟨hreads, hcuts⟩ hopen).1
      rw [openWith_new] at hopen
      cases hopen
      exact ⟨[], (hinv.wire MutationLog.new).toCore, rfl, by simp, fun _ => Or.inl rfl⟩
  | call c _ ih =>
      obtain ⟨log, hinv⟩ := ih
      exact hinv.call c

/-- Acknowledged commits survive failed appends that cover the stale bytes. The file of such a
session opens again, and the recovered log is the mutations whose commit returned `Ok`, in commit
order, and at most one more record: that of an append which failed after its frame was written. All
of them were passed to append. -/
theorem reopen_keeps_acknowledged {e : Engine TracedFile} (h : FileRun P e)
    (hcov : ∀ a ∈ e.storage.attempts, a.Covers) (actor : ActorId) :
    ∃ acked more e', e.mutationLog.map MutationLog.handed = some acked ∧
      Engine.openPath P actor e.storage.inner.path e.storage.inner.file IoPlan.noFaults = .ok e' ∧
      contents e'.storage = header ++ encodeLog P (acked ++ more) ∧ more.length ≤ 1 ∧
      ∀ m ∈ acked ++ more, Attempted P e.storage m := by
  obtain ⟨acked, hinv⟩ := h.inv
  have hbytes : e.storage.inner.file.bytes = storeImage P acked e.storage.inner.stale := by
    rw [← e.storage.inner.contents_append_stale]
    show LawfulStorage.contents e.storage ++ _ = _
    rw [hinv.core.contents]
    simp [storeImage]
  have hopen := FileStorage.openFile_of_header e.storage.inner.path IoPlan.noFaults
    (hbytes.trans (List.append_assoc _ _ _))
  -- what follows the acknowledged records: at most one more whole record, then a torn tail
  obtain ⟨more, tail, himg, hone, htorn, henc, hwf, hatt⟩ : ∃ more tail,
      storeImage P acked e.storage.inner.stale = storeImage P (acked ++ more) tail ∧
      more.length ≤ 1 ∧ Torn tail ∧ (∀ m ∈ more, P.Encodable m) ∧ WfLog (acked ++ more) ∧
      ∀ m ∈ more, Attempted P e.storage m := by
    rcases hinv.leftover hcov with hnil | ⟨m, n, hstale, hmenc, hatt, hadm⟩
    · exact ⟨[], [], by rw [hnil, List.append_nil], by simp, torn_nil, by simp,
        by simpa using hinv.core.wf, by simp⟩
    · by_cases hn : n < (P.frameOf m).length
      · refine ⟨[], (P.frameOf m).take n, by rw [hstale, List.append_nil], by simp, ?_, by simp,
          by simpa using hinv.core.wf, by simp⟩
        exact hmenc.isFrame.torn_of_prefix (List.take_prefix _ _) (by
          rw [List.length_take]
          omega)
      · refine ⟨[m], [], ?_, by simp, torn_nil, by simpa using hmenc,
          wfLog_snoc.2 ⟨hinv.core.wf, hadm⟩, by simpa using hatt⟩
        rw [hstale, List.take_of_length_le (by omega)]
        simp [storeImage]
  obtain ⟨e', hopen', hrec⟩ := openWith_spec (P := P)
    (s := (⟨_, _, _, IoPlan.noFaults, le_refl _⟩ : FileStorage))
    ((List.take_length).trans (hbytes.trans himg))
    (fun m hm => (List.mem_append.1 hm).elim (hinv.core.encodable m) (henc m)) hwf htorn
    ⟨rfl, rfl⟩ actor
  refine ⟨acked, more, e', hinv.acked, ?_, ?_, hone,
    fun m hm => (List.mem_append.1 hm).elim (hinv.attempted m) (hatt m)⟩
  · rw [Engine.openPath, hopen]
    exact hopen'
  · simpa [storeImage] using hrec.core.contents

/-- The engine after calls on a new file whose writes end as told. -/
def onFile (writes : List WriteOutcome) (cs : List Call) : Engine TracedFile :=
  Call.runAll bincode cs
    ((Engine.blank ⟨"u", "d"⟩ (TracedFile.new "store" ⟨writes, [], []⟩)).withMutationLog
      MutationLog.new)

theorem fileRun_onFile (writes : List WriteOutcome) (cs : List Call) :
    FileRun bincode (onFile writes cs) :=
  Call.runAll_induction (fun c _ h => FileRun.call c h) cs
    (FileRun.fresh rfl rfl (openWith_new ⟨"u", "d"⟩ "store" ⟨writes, [], []⟩))

/-- A node with a property whose record ends in eight zero bytes. -/
def zeroNode : Node :=
  { Node.new "a" "N" with properties := (∅ : Properties).insert "x" (.f64 ⟨0⟩) }

/-- A frame that failed to sync and was then covered by a longer one. -/
theorem reopen_after_covering_append :
    ∃ e', Engine.openPath bincode ⟨"u", "d"⟩ "store"
      (onFile [.syncFail] [.op (.insertNode (Node.new "b" "N")), .op (.insertNode zeroNode)]
        ).storage.inner.file IoPlan.noFaults = .ok e' := by
  obtain ⟨-, -, e', -, hopen, -⟩ := reopen_keeps_acknowledged
    (fileRun_onFile [.syncFail] [.op (.insertNode (Node.new "b" "N")), .op (.insertNode zeroNode)])
    (by decide +kernel) ⟨"u", "d"⟩
  exact ⟨e', hopen⟩

/-- A frame that failed to sync, and then a shorter one that is acknowledged: the zero bytes at the
end of the old frame read as an empty record, and the store does not open again. -/
theorem shorter_append_breaks_reopen :
    let e := onFile [.syncFail]
      [.op (.insertNode zeroNode), .op (.insertNode (Node.new "bbbb" "N"))]
    FileRun bincode e ∧ e.mutationLog.map (fun l => l.handed.map fun m => m.op) =
        some [.nodeInsert (Node.new "bbbb" "N")] ∧
      (Engine.openPath bincode ⟨"u", "d"⟩ "store" e.storage.inner.file IoPlan.noFaults).isOk =
        false := by
  refine ⟨fileRun_onFile _ _, ?_, ?_⟩
  · decide +kernel
  · decide +kernel

end Morceau
