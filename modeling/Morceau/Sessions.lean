import Morceau.GraphRefinement

/-!
# Sessions, and what reaches the mutation log

A session opens an engine on the store, may wire a mutation log, and makes calls; it ends by
closing, or by a crash inside an append (`Over`). `Sessions P ss` are the runs of sessions on one
store, where the next session finds the contents the last one left and a proper prefix of the frame
that was being appended. Each session is kept as the engine right after it was opened and the engine
it ended with.

`commit` hands a mutation to the wired log as its last step, so in every session the log was handed
exactly the records that session appended; these stay in the store at their places; and the sequence
numbers increase over all sessions (`sessions_record_what_is_durable`). A fresh log that is wired
after a reopen and fed by one `replay_unconfirmed` receives the whole log of the store, and what is
committed afterwards (`replay_brings_up_to_date`).
-/

set_option autoImplicit false

namespace Morceau

open Lib LawfulStorage

variable {σ : Type} [LawfulStorage σ] {P : Platform}

/-! ## One session -/

/-- The engines of a running session that was opened as `e0`. A log is wired right after the open;
a worker may install its forwarder at any time. -/
inductive Live (P : Platform) (e0 : Engine σ) : Engine σ → Prop where
  | opened : Live P e0 e0
  | wired : Live P e0 (e0.withMutationLog MutationLog.new)
  | forwarder {e : Engine σ} :
      Live P e0 e → Live P e0 { e with mutationLog := e.mutationLog.map MutationLog.setForwarder }
  | call {e : Engine σ} (c : Call) :
      Live P e0 e → AppendsSucceed CallError.fault (c.run P e) →
      Live P e0 (finalState (c.run P e))

/-- The engines a session can end with: it was closed, or it died in an append of a last call. -/
inductive Over (P : Platform) (e0 : Engine σ) : Engine σ → Prop where
  | closed {e : Engine σ} : Live P e0 e → Over P e0 e
  | crashed {e e' : Engine σ} {err : CallError} (c : Call) :
      Live P e0 e → c.run P e = .error err e' → err.fault = .io → Over P e0 e'

/-- A proper prefix of the frame of a record: what a crash leaves of an append. -/
def InFlight (P : Platform) (tail : Bytes) : Prop :=
  ∃ m, P.Encodable m ∧ tail <+: P.frameOf m ∧ tail.length < (P.frameOf m).length

/-- A session: the engine as it was opened, and the engine it ended with. -/
structure Span (σ : Type) where
  opened : Engine σ
  ended : Engine σ

/-- Runs of sessions on one store, oldest first. -/
inductive Sessions (P : Platform) : List (Span σ) → Prop where
  | first {actor : ActorId} {s : σ} {e0 e : Engine σ} :
      contents s = header → Reliable s → Engine.openWith P actor s = .ok e0 → Over P e0 e →
      Sessions P [⟨e0, e⟩]
  | next {ss : List (Span σ)} {last : Span σ} {tail : Bytes} {actor : ActorId} {s : σ}
      {e0 e : Engine σ} :
      Sessions P (ss ++ [last]) → InFlight P tail →
      contents s = contents last.ended.storage ++ tail → Reliable s →
      Engine.openWith P actor s = .ok e0 → Over P e0 e →
      Sessions P (ss ++ [last] ++ [⟨e0, e⟩])

/-- What the session's mutation log was handed; nothing when none was wired. -/
def Span.recorded (s : Span σ) : List Mutation :=
  (s.ended.mutationLog.map MutationLog.handed).getD []

/-! ## What a session records -/

/-- A chain hands the wired log exactly the records it commits. -/
theorem Inv.chain_records {e e' : Engine σ} {log : List Mutation} (h : Inv P e log)
    {hs : List (Engine σ)} (hch : Chain P e hs e') :
    ∃ ms, Inv P e' (log ++ ms) ∧
      e'.mutationLog.map MutationLog.handed = e.mutationLog.map fun l => l.handed ++ ms := by
  let K : Engine σ → List Mutation → Prop := fun e1 log1 => Inv P e1 log1 ∧ ∃ ms, log1 = log ++ ms ∧
    e1.mutationLog.map MutationLog.handed = e.mutationLog.map fun l => l.handed ++ ms
  have hquiet : ∀ {e1 e2 log1}, K e1 log1 → Quiet e1 e2 → K e2 log1 := by
    rintro e1 e2 log1 ⟨hinv, ms, heq, hrec⟩ hq
    exact ⟨hinv.quiet hq, ms, heq, by rw [hq.mutationLog]; exact hrec⟩
  have hcommit : ∀ {e1 e2 log1 op}, K e1 log1 → Fresh e1 op → Engine.commit P op e1 = .ok () e2 →
      K e2 (log1 ++ [stamp e1 op]) := by
    rintro e1 e2 log1 op ⟨hinv, ms, rfl, hrec⟩ hf hc
    refine ⟨hinv.commit hf hc, ms ++ [stamp e1 op], by simp, ?_⟩
    -- the commit teed its mutation, after all those before it
    rw [(hinv.toCore.committed hf hc).mutationLog, Option.map_map]
    have hstep : (MutationLog.handed ∘ fun l : MutationLog => l.record (stamp e1 op)) =
        (fun hd => hd ++ [stamp e1 op]) ∘ MutationLog.handed :=
      funext fun l => MutationLog.handed_record l _
    rw [hstep, ← Option.map_map, hrec, Option.map_map]
    simp [Function.comp_def]
  have hstart : K e log := ⟨h, [], by simp, by simp⟩
  obtain ⟨ms, ⟨hinv, ms', heq, hrec⟩, -, -⟩ := hch.invariant (K := K) hquiet hcommit hstart
  rw [heq] at hinv
  exact ⟨ms', hinv, hrec⟩

/-- What a session that was opened on `log0` has appended so far, and handed to its log. -/
structure Session (P : Platform) (log0 ms : List Mutation) (e : Engine σ) : Prop where
  core : Core P e (log0 ++ ms)
  numbered : Numbered (log0 ++ ms)
  foreshadow : ∀ m ∈ log0 ++ ms, m.foreshadow = true
  recorded : ∀ l, e.mutationLog = some l → l.handed = ms

theorem Live.session {e0 e : Engine σ} {log0 : List Mutation} (h : Live P e0 e)
    (h0 : Inv P e0 log0) (hnone : e0.mutationLog = none) :
    ∃ ms, Inv P e (log0 ++ ms) ∧ ∀ l, e.mutationLog = some l → l.handed = ms := by
  induction h with
  | opened => exact ⟨[], by simpa using h0, by simp [hnone]⟩
  | wired =>
      refine ⟨[], by simpa using h0.wire MutationLog.new, ?_⟩
      rintro l hl
      cases hl
      rfl
  | @forwarder e _ ih =>
      obtain ⟨ms, hinv, hrec⟩ := ih
      refine ⟨ms, hinv.setLog _, fun l hl => ?_⟩
      obtain ⟨l', hl', rfl⟩ := Option.map_eq_some_iff.1 hl
      exact (MutationLog.handed_setForwarder l').trans (hrec l' hl')
  | @call e c _ hok ih =>
      obtain ⟨ms, hinv, hrec⟩ := ih
      obtain ⟨hs, hch⟩ := c.chained.chain hinv.toCore hok
      obtain ⟨ms', hinv', hrec'⟩ := hinv.chain_records hch
      refine ⟨ms ++ ms', by rwa [← List.append_assoc], fun l hl => ?_⟩
      rw [hl] at hrec'
      obtain ⟨l', hl', heq⟩ := Option.map_eq_some_iff.1 hrec'.symm
      rw [← heq, hrec l' hl']

/-- However a session ends, its log was handed what it appended. -/
theorem Over.session {e0 e : Engine σ} {log0 : List Mutation} (h : Over P e0 e)
    (h0 : Inv P e0 log0) (hnone : e0.mutationLog = none) : ∃ ms, Session P log0 ms e := by
  cases h with
  | closed hlive =>
      obtain ⟨ms, hinv, hrec⟩ := hlive.session h0 hnone
      exact ⟨ms, hinv.toCore, hinv.numbered, hinv.foreshadow, hrec⟩
  | @crashed e1 _ err c hlive hr hio =>
      obtain ⟨ms, hinv, hrec⟩ := hlive.session h0 hnone
      have hend := c.chained e1 _ hinv.toCore
      rw [hr] at hend
      cases hend with
      | rejected herr _ =>
          rw [hio] at herr
          cases herr
      | broken _ hch hfr hc =>
          -- the commits before the failed one were teed; the failed one was not
          obtain ⟨ms', hinv', hrec'⟩ := hinv.chain_records hch
          have hfail := hinv'.toCore.not_committed hfr hc
          rw [List.append_assoc] at hinv'
          refine ⟨ms ++ ms', hinv'.toCore.failed hfail, hinv'.numbered, hinv'.foreshadow,
            fun l hl => ?_⟩
          rw [hfail.mutationLog] at hl
          rw [hl] at hrec'
          obtain ⟨l', hl', heq⟩ := Option.map_eq_some_iff.1 hrec'.symm
          rw [← heq, hrec l' hl']

/-! ## All sessions -/

/-- Opening what a session left, with a torn append after it, gives back its log. -/
theorem Session.reopen {log0 ms : List Mutation} {e e0 : Engine σ} (h : Session P log0 ms e)
    {tail : Bytes} (htail : InFlight P tail) {s : σ} (hs : contents s = contents e.storage ++ tail)
    (hrel : Reliable s) {actor : ActorId} (hopen : Engine.openWith P actor s = .ok e0) :
    Inv P e0 (log0 ++ ms) ∧ e0.mutationLog = none := by
  obtain ⟨m, hm, hprefix, hlt⟩ := htail
  have himg : contents s = storeImage P (log0 ++ ms) tail := by
    rw [hs, h.core.contents]
    simp [storeImage]
  obtain ⟨e', hopen', hrec⟩ := openWith_spec himg h.core.encodable h.core.wf
    (hm.isFrame.torn_of_prefix hprefix hlt) hrel actor
  rw [hopen] at hopen'
  cases hopen'
  exact ⟨Inv.of_recovered hrec h.numbered h.foreshadow, hrec.mutationLog⟩

/-- The log a session was opened on, and the records it appended. -/
structure Stretch (P : Platform) (s : Span σ) (l : List Mutation × List Mutation) : Prop where
  opened : contents s.opened.storage = header ++ encodeLog P l.1
  ended : contents s.ended.storage = header ++ encodeLog P (l.1 ++ l.2)
  recorded : ∀ log, s.ended.mutationLog = some log → log.handed = l.2

theorem Session.stretch {log0 ms : List Mutation} {e0 e : Engine σ} (h : Session P log0 ms e)
    (h0 : Core P e0 log0) : Stretch P ⟨e0, e⟩ (log0, ms) where
  opened := by simpa [storeImage] using h0.contents
  ended := by simpa [storeImage] using h.core.contents
  recorded := h.recorded

theorem Session.recorded_sublist {log0 ms : List Mutation} {e : Engine σ}
    (h : Session P log0 ms e) (e0 : Engine σ) : (Span.recorded ⟨e0, e⟩).Sublist ms := by
  unfold Span.recorded
  cases hl : e.mutationLog with
  | none => exact List.nil_sublist ms
  | some l =>
      rw [← h.recorded l hl]
      exact List.Sublist.refl _

/-- What holds after every run of sessions, with the log of the last one. -/
theorem Sessions.stretches {ss : List (Span σ)} (h : Sessions P ss) :
    ∃ pre last ls log0 ms, ss = pre ++ [last] ∧ Session P log0 ms last.ended ∧
      List.Forall₂ (Stretch P) ss (ls ++ [(log0, ms)]) ∧
      (ls ++ [(log0, ms)]).Pairwise (fun a b => a.1 ++ a.2 <+: b.1) ∧
      (∀ a ∈ ls, a.1 ++ a.2 <+: log0) ∧
      (ss.flatMap Span.recorded).Sublist (log0 ++ ms) := by
  induction h with
  | @first actor s e0 e hs hrel hopen hover =>
      obtain ⟨h0, -, hnone⟩ := inv_fresh hs hrel hopen
      obtain ⟨ms, hsess⟩ := hover.session h0 hnone
      refine ⟨[], ⟨e0, e⟩, [], [], ms, rfl, hsess, ?_, by simp, by simp, ?_⟩
      · exact .cons (hsess.stretch h0.toCore) .nil
      · simpa using hsess.recorded_sublist e0
  | @next ss last tail actor s e0 e _ htail hs hrel hopen hover ih =>
      obtain ⟨pre, last', ls, log0, ms, heq, hsess, hst, hpw, hpre, hsub⟩ := ih
      obtain ⟨-, hlast⟩ := List.append_inj' heq rfl
      cases hlast
      obtain ⟨h0, hnone⟩ := hsess.reopen htail hs hrel hopen
      obtain ⟨ms', hsess'⟩ := hover.session h0 hnone
      -- every earlier log is a prefix of the one this session was opened on
      have hall : ∀ a ∈ ls ++ [(log0, ms)], a.1 ++ a.2 <+: log0 ++ ms := by
        intro a ha
        rcases List.mem_append.1 ha with ha | ha
        · exact (hpre a ha).trans (List.prefix_append _ _)
        · rw [List.mem_singleton.1 ha]
      refine ⟨ss ++ [last], ⟨e0, e⟩, ls ++ [(log0, ms)], log0 ++ ms, ms', rfl, hsess', ?_, ?_,
        hall, ?_⟩
      · exact List.rel_append hst (.cons (hsess'.stretch h0.toCore) .nil)
      · rw [List.pairwise_append]
        refine ⟨hpw, by simp, fun a ha b hb => ?_⟩
        rw [List.mem_singleton.1 hb]
        exact hall a ha
      · rw [List.flatMap_append, List.flatMap_singleton]
        exact hsub.append (hsess'.recorded_sublist e0)

/-- What the controller is told is what is durable, in order. In every session the log was handed
exactly the records the session appended; every later session is opened on a log that starts with
all records of the earlier one; and the sequence numbers handed over strictly increase over all
sessions. -/
theorem sessions_record_what_is_durable {ss : List (Span σ)} (h : Sessions P ss) :
    ∃ ls : List (List Mutation × List Mutation),
      List.Forall₂ (Stretch P) ss ls ∧
      ls.Pairwise (fun a b => a.1 ++ a.2 <+: b.1) ∧
      (ss.flatMap Span.recorded).Pairwise fun a b => a.localSeq < b.localSeq := by
  obtain ⟨_, last, ls, log0, ms, -, hsess, hst, hpw, -, hsub⟩ := h.stretches
  exact ⟨_, hst, hpw, List.Pairwise.sublist hsub hsess.numbered.pairwise⟩

/-- The engine that opening a memory store gives, on stores that open. -/
def openedOn (s : MemoryStorage) : Engine MemoryStorage :=
  (Engine.openWith bincode ⟨"u", "d"⟩ s).toOption.getD (Engine.blank ⟨"u", "d"⟩ s)

theorem openWith_openedOn {s : MemoryStorage}
    (h : (Engine.openWith bincode ⟨"u", "d"⟩ s).isOk = true) :
    Engine.openWith bincode ⟨"u", "d"⟩ s = .ok (openedOn s) := by
  unfold openedOn
  cases hopen : Engine.openWith bincode ⟨"u", "d"⟩ s with
  | ok e => rfl
  | error err =>
      rw [hopen] at h
      cases h

/-- A session on a memory store that wires a log and inserts one node. -/
def insertSession (s : MemoryStorage) (id : String) : Span MemoryStorage :=
  ⟨openedOn s, finalState ((Call.op (.insertNode (Node.new id "N"))).run bincode
    ((openedOn s).withMutationLog MutationLog.new))⟩

/-- The store of the first session with the beginning of another frame after it. -/
def tornStore : MemoryStorage :=
  ⟨(insertSession MemoryStorage.new "a").ended.storage.bytes ++ [12, 0, 0, 0, 2], by
    decide +kernel⟩

/-- The record whose frame begins with the bytes that the crash left. -/
def tornRecord : Mutation :=
  stamp (insertSession MemoryStorage.new "a").ended (.nodeInsert (Node.new "b" "N"))

/-- Two sessions with a crash between them hand over the numbers 1 and 2. -/
theorem two_sessions_record_in_order :
    [insertSession MemoryStorage.new "a", insertSession tornStore "b"].flatMap
        (fun s => s.recorded.map fun m => m.localSeq) = [1, 2] ∧
      ([insertSession MemoryStorage.new "a", insertSession tornStore "b"].flatMap
        Span.recorded).Pairwise fun a b => a.localSeq < b.localSeq := by
  have hfirst : Sessions bincode ([] ++ [insertSession MemoryStorage.new "a"]) :=
    Sessions.first (s := MemoryStorage.new) rfl trivial (openWith_openedOn (by decide +kernel))
      (.closed (.call _ .wired (by decide +kernel)))
  have htail : InFlight bincode [12, 0, 0, 0, 2] :=
    ⟨tornRecord, ⟨bincode.frameOf tornRecord, by decide +kernel⟩, by decide +kernel,
      by decide +kernel⟩
  have hboth := Sessions.next hfirst htail (s := tornStore) rfl trivial
    (openWith_openedOn (by decide +kernel)) (.closed (.call (.op (.insertNode (Node.new "b" "N")))
      .wired (by decide +kernel)))
  obtain ⟨-, -, -, hpw⟩ := sessions_record_what_is_durable hboth
  exact ⟨by decide +kernel, hpw⟩

/-! ## Replaying to a fresh controller -/

/-- Calls whose appends succeed hand the wired log exactly the records they append. -/
theorem Inv.runAll_records (cs : List Call) : ∀ {e : Engine σ} {log : List Mutation}, Inv P e log →
    Call.AllSucceed P cs e →
    ∃ ms, Inv P (Call.runAll P cs e) (log ++ ms) ∧
      (Call.runAll P cs e).mutationLog.map MutationLog.handed =
        e.mutationLog.map fun l => l.handed ++ ms := by
  induction cs with
  | nil =>
      intro e log h _
      exact ⟨[], (List.append_nil log).symm ▸ h, by simp [Call.runAll]⟩
  | cons c cs ih =>
      intro e log h hok
      obtain ⟨hs, hch⟩ := c.chained.chain h.toCore hok.1
      obtain ⟨ms, h1, hrec1⟩ := h.chain_records hch
      obtain ⟨ms', h2, hrec2⟩ := ih h1 hok.2
      refine ⟨ms ++ ms', by rwa [← List.append_assoc], hrec2.trans ?_⟩
      cases hl : e.mutationLog with
      | none =>
          rw [hl, Option.map_none, Option.map_eq_none_iff] at hrec1
          rw [hrec1]
          rfl
      | some l =>
          rw [hl] at hrec1
          obtain ⟨l', hl', heq⟩ := Option.map_eq_some_iff.1 hrec1
          rw [hl', Option.map_some, Option.map_some, heq, List.append_assoc]

/-- Replay brings a fresh controller fully up to date. Whatever happened on the store before, after
a reopen at any byte, a fresh log and one `replay_unconfirmed`, the log has been handed the records
of the store up to the last frame boundary there, and then every later commit; its operations
describe the engine's own graph and schema. -/
theorem replay_brings_up_to_date {e : Engine σ} (h : Reach P e) {k : Nat} (hk : headerLen ≤ k)
    {s : σ} (hs : contents s = (contents e.storage).take k) (hrel : Reliable s) (actor : ActorId)
    {f : MutationLog} (hfresh : f.handed = []) :
    ∃ log n e0 e1, contents e.storage = header ++ encodeLog P log ∧ LastBoundary P log k n ∧
      Engine.openWith P actor s = .ok e0 ∧
      contents e0.storage = header ++ encodeLog P (log.take n) ∧
      Engine.replayUnconfirmed P (e0.withMutationLog f) = .ok n e1 ∧
      ∀ cs, Call.AllSucceed P cs e1 →
        ∃ log' l, contents (Call.runAll P cs e1).storage = header ++ encodeLog P log' ∧
          (Call.runAll P cs e1).mutationLog = some l ∧ l.handed = log' ∧ log.take n <+: log' ∧
          (l.handed.Pairwise fun a b => a.localSeq < b.localSeq) ∧
          Agrees P (Call.runAll P cs e1) (PropertyGraph.ofLog l.handed) := by
  obtain ⟨log, hinv⟩ := h.inv
  obtain ⟨n, e0, hn, hopen, h0, -, -⟩ := hinv.openWith_take hk hs hrel actor
  have hcount : (log.take n).length = n := List.length_take_of_le hn.le_length
  set log0 := log.take n
  obtain ⟨e1, hreplay, hq⟩ := replayUnconfirmed_spec (h0.wire f).toCore rfl
  have hall : log0.filter Mutation.foreshadow = log0 :=
    List.filter_eq_self.2 fun m hm => h0.foreshadow m hm
  rw [hall] at hreplay hq
  rw [hcount] at hreplay
  have h1 : Inv P e1 log0 := ((h0.wire f).setLog _).quiet hq
  refine ⟨log, n, e0, e1, by simpa [storeImage] using hinv.contents, hn, hopen,
    by simpa [storeImage] using h0.contents, hreplay, fun cs hok => ?_⟩
  obtain ⟨ms, h2, hrec⟩ := h1.runAll_records cs hok
  -- the log was handed the replayed records first
  have hrec1 : e1.mutationLog = some (log0.foldl MutationLog.record f) := hq.mutationLog
  rw [hrec1, Option.map_some, MutationLog.handed_foldl_record, hfresh, List.nil_append] at hrec
  obtain ⟨l, hl, hhanded⟩ := Option.map_eq_some_iff.1 hrec
  refine ⟨log0 ++ ms, l, by simpa [storeImage] using h2.contents, hl, hhanded,
    List.prefix_append _ _, ?_, ?_⟩
  · rw [hhanded]
    exact h2.numbered.pairwise
  · rw [hhanded]
    exact h2.toCore.agrees

/-- The engine after the store of one node was reopened and replayed to a fresh log. -/
def replayedNode : Engine MemoryStorage :=
  finalState (Engine.replayUnconfirmed bincode
    ((openedOn oneNode.storage).withMutationLog MutationLog.new))

/-- One record is replayed, and after a query that deletes the node the fresh log has been handed
its insert and its deletion. -/
theorem replay_of_one_node :
    Engine.replayUnconfirmed bincode ((openedOn oneNode.storage).withMutationLog MutationLog.new) =
        .ok 1 replayedNode ∧
      Call.AllSucceed bincode [.query "MATCH (n) DELETE n" ∅] replayedNode ∧
      ∃ l, (Call.runAll bincode [.query "MATCH (n) DELETE n" ∅] replayedNode).mutationLog = some l ∧
        l.handed.map (fun m => (m.localSeq, m.op)) =
          [(1, .nodeInsert (Node.new "a" "N")), (2, .nodeDelete "a")] ∧
        (l.handed.Pairwise fun a b => a.localSeq < b.localSeq) ∧
        Agrees bincode (Call.runAll bincode [.query "MATCH (n) DELETE n" ∅] replayedNode)
          (PropertyGraph.ofLog l.handed) := by
  have hok : Call.AllSucceed bincode [.query "MATCH (n) DELETE n" ∅] replayedNode := by
    decide +kernel
  -- the count and what the log was handed, computed
  have hcount : (match Engine.replayUnconfirmed bincode
      ((openedOn oneNode.storage).withMutationLog MutationLog.new) with
    | .ok n _ => n
    | .error _ _ => 0) = 1 := by decide +kernel
  have hhanded : ((Call.runAll bincode [.query "MATCH (n) DELETE n" ∅] replayedNode).mutationLog.map
      fun l => l.handed.map fun m => (m.localSeq, m.op)) =
        some [(1, .nodeInsert (Node.new "a" "N")), (2, .nodeDelete "a")] := by decide +kernel
  obtain ⟨log, n, e0, e1, -, -, hopen, -, hreplay, hcalls⟩ := replay_brings_up_to_date
    reach_oneNode (k := 32) (by decide) (s := oneNode.storage)
    (by rw [List.take_of_length_le (by decide +kernel)]) trivial ⟨"u", "d"⟩
    (f := MutationLog.new) rfl
  rw [openWith_openedOn (by decide +kernel)] at hopen
  cases hopen
  have he1 : e1 = replayedNode := by rw [replayedNode, hreplay, finalState_ok]
  rw [he1] at hcalls hreplay
  rw [hreplay] at hcount
  obtain ⟨log', l, -, hl, -, -, hpw, hagree⟩ := hcalls _ hok
  rw [hl, Option.map_some, Option.some.injEq] at hhanded
  exact ⟨hcount ▸ hreplay, hok, l, hl, hhanded, hpw, hagree⟩

end Morceau
