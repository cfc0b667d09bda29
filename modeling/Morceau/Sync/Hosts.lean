import Morceau.Replicas
import Morceau.Sessions
import Morceau.Sync.Controllers
import Morceau.Sync.Progress

/-!
# A host process: the engine with its controllers

`Engine::with_controller` makes a mutation log, spawns a worker on its channel and installs the log.
The worker is detached, and the engine holds the only sender of the channel. So when a controller
replaces another one, or the engine is dropped and opened again, the earlier workers go on draining
what they were sent, side by side with the engine and with the current worker.

A `Host` is such a process: the engine or the store that a dropped engine left, the current worker,
the workers before it, and what the call in progress still has to send. `Host.Step` is one atomic
action: a call of the engine, a replay, a controller that is wired, a send, a step of any worker, a
drop, a reopen. A statement about every `Hosting P h` is one about every interleaving, every
controller and every retry setting.

The results say that the workers share the log between them: each of them is fed the records that
were committed while it was current, and the whole log at each replay, and the stretches of the log
that belong to different workers follow each other (`controllers_share_the_log`); that a worker
which has stopped has presented all of its feed (`stopped_controller_has_its_share`); and that an
in-memory controller which was handed every record holds the graph of the engine
(`replica_catches_up`).
-/

set_option autoImplicit false

namespace Morceau

open Lib LawfulStorage

/-- A spawned worker with the retry settings that it was given. -/
structure Spawned where
  edge : EdgeConfig
  system : System
deriving DecidableEq

/-- The worker after the only sender of its channel is gone. -/
def Spawned.hangUp (w : Spawned) : Spawned :=
  { w with system := { w.system with engineAlive := false } }

/-- The engine of a process, or the store that it left when it was dropped. -/
inductive Hosted (σ : Type) where
  | running (e : Engine σ)
  | closed (s : σ)

/-- The store. -/
def Hosted.store {σ : Type} : Hosted σ → σ
  | .running e => e.storage
  | .closed s => s

/-- A process. `pending` are the mutations that the call in progress has handed to the forwarder and
that are not on the channel yet. -/
structure Host (σ : Type) where
  hosted : Hosted σ
  pending : List Mutation
  current : Option Spawned
  retired : List Spawned

/-- `Engine::with_controller`: a new log whose forwarder is the sender of the new worker's channel.
The worker itself is `System.spawned`. -/
def Engine.withController {σ : Type} (e : Engine σ) : Engine σ :=
  e.withMutationLog MutationLog.new.setForwarder

/-- Everything that the engine's forwarder was given. -/
def Engine.forwarded {σ : Type} (e : Engine σ) : List Mutation :=
  (e.mutationLog.bind MutationLog.forwarder).getD []

variable {σ : Type} [LawfulStorage σ] {P : Platform}

/-- One atomic action of a process. A call gives its mutations to the forwarder one by one, and any
worker may act between two of them; the next call starts when all of them are sent. -/
inductive Host.Step (P : Platform) : Host σ → Host σ → Prop where
  | call {e : Engine σ} {current : Option Spawned} {retired : List Spawned} (c : Call) :
      AppendsSucceed CallError.fault (c.run P e) →
      Step P ⟨.running e, [], current, retired⟩
        ⟨.running (finalState (c.run P e)),
          (finalState (c.run P e)).forwarded.drop e.forwarded.length, current, retired⟩
  | replay {e e' : Engine σ} {n : Nat} {current : Option Spawned} {retired : List Spawned} :
      Engine.replayUnconfirmed P e = .ok n e' →
      Step P ⟨.running e, [], current, retired⟩
        ⟨.running e', e'.forwarded.drop e.forwarded.length, current, retired⟩
  | send {hosted : Hosted σ} {m : Mutation} {pending : List Mutation} {w : Spawned} {s : System}
      {retired : List Spawned} :
      w.system.step w.edge (.send m) = some s →
      Step P ⟨hosted, m :: pending, some w, retired⟩
        ⟨hosted, pending, some { w with system := s }, retired⟩
  | withController {e : Engine σ} {current : Option Spawned} {retired : List Spawned}
      (edge : EdgeConfig) :
      Step P ⟨.running e, [], current, retired⟩
        ⟨.running e.withController, [], some ⟨edge, System.spawned⟩,
          retired ++ (current.map Spawned.hangUp).toList⟩
  | worker {hosted : Hosted σ} {pending : List Mutation} {w : Spawned} {s : System}
      {retired : List Spawned} (a : Action) :
      a.ofWorker = true → w.system.step w.edge a = some s →
      Step P ⟨hosted, pending, some w, retired⟩
        ⟨hosted, pending, some { w with system := s }, retired⟩
  | retiredWorker {hosted : Hosted σ} {pending : List Mutation} {current : Option Spawned}
      {pre post : List Spawned} {w : Spawned} {s : System} (a : Action) :
      a.ofWorker = true → w.system.step w.edge a = some s →
      Step P ⟨hosted, pending, current, pre ++ w :: post⟩
        ⟨hosted, pending, current, pre ++ { w with system := s } :: post⟩
  | drop {e : Engine σ} {current : Option Spawned} {retired : List Spawned} :
      Step P ⟨.running e, [], current, retired⟩
        ⟨.closed e.storage, [], none, retired ++ (current.map Spawned.hangUp).toList⟩
  | reopen {s s' : σ} {e : Engine σ} {actor : ActorId} {retired : List Spawned} :
      contents s' = contents s → Reliable s' → Engine.openWith P actor s' = .ok e →
      Step P ⟨.closed s, [], none, retired⟩ ⟨.running e, [], none, retired⟩

/-- The states of processes that started on a fresh store. -/
inductive Hosting (P : Platform) : Host σ → Prop where
  | fresh {s : σ} : contents s = header → Hosting P ⟨.closed s, [], none, []⟩
  | step {h h' : Host σ} : Hosting P h → h.Step P h' → Hosting P h'

/-! ## What a call forwards -/

namespace MutationLog

/-- A log with a forwarder passes everything on. -/
theorem foldl_record_forwarding (ms : List Mutation) : ∀ sent : List Mutation,
    ms.foldl record ⟨[], some sent⟩ = ⟨[], some (sent ++ ms)⟩ := by
  induction ms with
  | nil => simp
  | cons m ms ih =>
      intro sent
      rw [List.foldl_cons]
      show ms.foldl record ⟨[], some (sent ++ [m])⟩ = _
      rw [ih, List.append_assoc]
      rfl

end MutationLog

/-- A chain records exactly the mutations that it commits, one after the other. -/
theorem Inv.chain_teed {e e' : Engine σ} {log : List Mutation} (h : Inv P e log)
    {hs : List (Engine σ)} (hch : Chain P e hs e') :
    ∃ ms, Inv P e' (log ++ ms) ∧
      e'.mutationLog = e.mutationLog.map fun l => ms.foldl MutationLog.record l := by
  let K : Engine σ → List Mutation → Prop := fun e1 log1 => Inv P e1 log1 ∧ ∃ ms, log1 = log ++ ms ∧
    e1.mutationLog = e.mutationLog.map fun l => ms.foldl MutationLog.record l
  have hquiet : ∀ {e1 e2 log1}, K e1 log1 → Quiet e1 e2 → K e2 log1 := by
    rintro e1 e2 log1 ⟨hinv, ms, heq, hrec⟩ hq
    exact ⟨hinv.quiet hq, ms, heq, by rw [hq.mutationLog]; exact hrec⟩
  have hcommit : ∀ {e1 e2 log1 op}, K e1 log1 → Fresh e1 op → Engine.commit P op e1 = .ok () e2 →
      K e2 (log1 ++ [stamp e1 op]) := by
    rintro e1 e2 log1 op ⟨hinv, ms, rfl, hrec⟩ hf hc
    refine ⟨hinv.commit hf hc, ms ++ [stamp e1 op], by simp, ?_⟩
    rw [(hinv.toCore.committed hf hc).mutationLog, hrec, Option.map_map]
    simp [Function.comp_def, List.foldl_append]
  obtain ⟨ms, ⟨hinv, ms', heq, hrec⟩, -, -⟩ := hch.invariant (K := K) hquiet hcommit
    ⟨h, [], by simp, by simp⟩
  rw [heq] at hinv
  exact ⟨ms', hinv, hrec⟩

/-! ## The invariant -/

/-- The store holds a log that the engine can be opened on again. -/
structure Stored (P : Platform) (s : σ) (log : List Mutation) : Prop where
  contents : contents s = storeImage P log []
  encodable : ∀ m ∈ log, P.Encodable m
  wf : WfLog log
  numbered : Numbered log
  foreshadow : ∀ m ∈ log, m.foreshadow = true

theorem Inv.stored {e : Engine σ} {log : List Mutation} (h : Inv P e log) :
    Stored P e.storage log :=
  ⟨h.contents, h.encodable, h.wf, h.numbered, h.foreshadow⟩

theorem Stored.reopen {s s' : σ} {log : List Mutation} (h : Stored P s log)
    (hs : LawfulStorage.contents s' = LawfulStorage.contents s) (hrel : Reliable s')
    {actor : ActorId} {e : Engine σ} (hopen : Engine.openWith P actor s' = .ok e) :
    Inv P e log ∧ e.mutationLog = none := by
  obtain ⟨e', hopen', hrec⟩ := openWith_spec (hs.trans h.contents) h.encodable h.wf torn_nil hrel
    actor
  rw [hopen] at hopen'
  cases hopen'
  exact ⟨Inv.of_recovered hrec h.numbered h.foreshadow, hrec.mutationLog⟩

/-- The engine keeps its invariant, or the store that it left is intact. -/
def HostedInv (P : Platform) : Hosted σ → List Mutation → Prop
  | .running e, log => Inv P e log
  | .closed s, log => Stored P s log

/-- A worker that was handed the stream, which is a feed between two states of the log. -/
structure FedBy (w : Spawned) (stream : List Mutation) (f : List Mutation × List Mutation) :
    Prop where
  inv : SystemInv w.edge w.system
  drained : w.system.Drained
  feed : Feed f.1 f.2 stream

/-- What holds of every process: the store holds the log; the earlier workers were fed stretches of
it, one after the other; and the current one is being fed what comes after them. -/
structure HostInv (P : Platform) (h : Host σ) (log : List Mutation)
    (fs : List (List Mutation × List Mutation)) : Prop where
  hosted : HostedInv P h.hosted log
  retired : List.Forall₂ (fun w f => FedBy w w.system.sent f) h.retired fs
  ordered : fs.Pairwise fun a b => a.2 <+: b.1
  durable : ∀ f ∈ fs, f.2 <+: log
  current : match h.current with
    | none => h.pending = [] ∧ ∀ e, h.hosted = .running e → e.mutationLog = none
    | some w => ∃ e start, h.hosted = .running e ∧
        e.mutationLog = some ⟨[], some (w.system.sent ++ h.pending)⟩ ∧
        FedBy w (w.system.sent ++ h.pending) (start, log) ∧ w.system.engineAlive = true ∧
        ∀ f ∈ fs, f.2 <+: start

theorem FedBy.step {w : Spawned} {stream : List Mutation} {f : List Mutation × List Mutation}
    (h : FedBy w stream f) {a : Action} {s : System} (hs : w.system.step w.edge a = some s) :
    FedBy { w with system := s } stream f where
  inv := h.inv.step hs
  drained := h.drained.step h.inv hs
  feed := h.feed

theorem FedBy.hangUp {w : Spawned} {stream : List Mutation} {f : List Mutation × List Mutation}
    (h : FedBy w stream f) : FedBy w.hangUp stream f := h.step (a := .dropEngine) rfl

/-- Replacing one member of a list that is related to another list. -/
theorem forall₂_replace {α β : Type} {R : α → β → Prop} {a a' : α} {post : List α}
    (pre : List α) : ∀ {bs : List β}, List.Forall₂ R (pre ++ a :: post) bs →
      (∀ b, R a b → R a' b) → List.Forall₂ R (pre ++ a' :: post) bs := by
  induction pre with
  | nil =>
      rintro bs (_ | ⟨hab, hrest⟩) hR
      exact .cons (hR _ hab) hrest
  | cons x pre ih =>
      rintro bs (_ | ⟨hx, hrest⟩) hR
      exact .cons hx (ih hrest hR)

namespace HostInv

variable {hosted : Hosted σ} {pending log : List Mutation} {current : Option Spawned}
  {retired : List Spawned} {fs : List (List Mutation × List Mutation)}

theorem fresh {s : σ} (hs : contents s = header) :
    HostInv P ⟨.closed s, [], none, []⟩ [] [] where
  hosted := ⟨by simpa [storeImage] using hs, by simp, wfLog_nil, numbered_nil, by simp⟩
  retired := .nil
  ordered := .nil
  durable := by simp
  current := ⟨rfl, fun e he => nomatch he⟩

/-- The engine commits and hands over `ms`, or hands over `ms` again. -/
theorem forward {e e' : Engine σ} (h : HostInv P ⟨.running e, [], current, retired⟩ log fs)
    {log' : List Mutation} (ms : List Mutation) (hinv : Inv P e' log') (hgrown : log <+: log')
    (hteed : e'.mutationLog = e.mutationLog.map fun l => ms.foldl MutationLog.record l)
    (hfeed : ∀ start stream, Feed start log stream → Feed start log' (stream ++ ms)) :
    HostInv P ⟨.running e', e'.forwarded.drop e.forwarded.length, current, retired⟩ log' fs where
  hosted := hinv
  retired := h.retired
  ordered := h.ordered
  durable f hf := (h.durable f hf).trans hgrown
  current := by
    have hcur := h.current
    cases current with
    | none =>
        -- nothing is wired, so nothing is forwarded
        have hnone : e'.mutationLog = none := by rw [hteed, hcur.2 e rfl, Option.map_none]
        refine ⟨by simp [Engine.forwarded, hnone], fun e1 he1 => ?_⟩
        cases he1
        exact hnone
    | some w =>
        obtain ⟨e1, start, he1, hlog, hfed, halive, hbefore⟩ := hcur
        cases he1
        simp only [List.append_nil] at hlog hfed
        rw [hlog, Option.map_some, MutationLog.foldl_record_forwarding] at hteed
        have hpending : e'.forwarded.drop e.forwarded.length = ms := by
          simp [Engine.forwarded, hteed, hlog]
        rw [hpending]
        exact ⟨e', start, rfl, hteed, ⟨hfed.inv, hfed.drained, hfeed start _ hfed.feed⟩, halive,
          hbefore⟩

theorem call {e : Engine σ} (h : HostInv P ⟨.running e, [], current, retired⟩ log fs) (c : Call)
    (hok : AppendsSucceed CallError.fault (c.run P e)) :
    ∃ log', HostInv P ⟨.running (finalState (c.run P e)),
      (finalState (c.run P e)).forwarded.drop e.forwarded.length, current, retired⟩ log' fs := by
  have hinv : Inv P e log := h.hosted
  obtain ⟨hs, hch⟩ := c.chained.chain hinv.toCore hok
  obtain ⟨ms, hinv', hteed⟩ := hinv.chain_teed hch
  exact ⟨log ++ ms, h.forward ms hinv' (List.prefix_append _ _) hteed
    fun start stream hf => hf.commits ms⟩

theorem replay {e e' : Engine σ} {n : Nat}
    (h : HostInv P ⟨.running e, [], current, retired⟩ log fs)
    (hr : Engine.replayUnconfirmed P e = .ok n e') :
    HostInv P ⟨.running e', e'.forwarded.drop e.forwarded.length, current, retired⟩ log fs := by
  have hinv : Inv P e log := h.hosted
  have hall : log.filter Mutation.foreshadow = log :=
    List.filter_eq_self.2 fun m hm => hinv.foreshadow m hm
  cases hwired : e.mutationLog with
  | none =>
      -- without a log the replay does nothing
      rw [Engine.replayUnconfirmed, bind_of_ok (get_apply e), hwired] at hr
      cases hr
      exact h.forward [] hinv List.prefix_rfl (by simp)
        fun start stream hf => by simpa using hf
  | some l =>
      obtain ⟨e1, hr1, hq⟩ := replayUnconfirmed_spec hinv.toCore (by simp [hwired])
      rw [hr] at hr1
      cases hr1
      rw [hall] at hq
      exact h.forward log ((hinv.setLog _).quiet hq) List.prefix_rfl hq.mutationLog
        fun start stream hf => hf.replayed

/-- The worker that is current now becomes one of those before it. -/
theorem retire {e : Engine σ} (h : HostInv P ⟨.running e, [], current, retired⟩ log fs) :
    ∃ fs', List.Forall₂ (fun w f => FedBy w w.system.sent f)
        (retired ++ (current.map Spawned.hangUp).toList) fs' ∧
      (fs'.Pairwise fun a b => a.2 <+: b.1) ∧ ∀ f ∈ fs', f.2 <+: log := by
  have hcur := h.current
  cases current with
  | none => exact ⟨fs, by simpa using h.retired, h.ordered, h.durable⟩
  | some w =>
      obtain ⟨-, start, -, -, hfed, -, hbefore⟩ := hcur
      simp only [List.append_nil] at hfed
      refine ⟨fs ++ [(start, log)], List.rel_append h.retired (.cons hfed.hangUp .nil), ?_, ?_⟩
      · rw [List.pairwise_append]
        refine ⟨h.ordered, List.pairwise_singleton _ _, fun a ha b hb => ?_⟩
        rw [List.mem_singleton.1 hb]
        exact hbefore a ha
      · intro f hf
        rcases List.mem_append.1 hf with hf | hf
        · exact h.durable f hf
        · rw [List.mem_singleton.1 hf]

/-- One action keeps the invariant. -/
theorem step {h h' : Host σ} (hinv : HostInv P h log fs) (hs : h.Step P h') :
    ∃ log' fs', HostInv P h' log' fs' := by
  cases hs with
  | call c hok =>
      obtain ⟨log', hinv'⟩ := hinv.call c hok
      exact ⟨log', fs, hinv'⟩
  | replay hr => exact ⟨log, fs, hinv.replay hr⟩
  | @send hosted m pending w s retired hsend =>
      obtain ⟨e, start, he, hlog, hfed, halive, hbefore⟩ := hinv.current
      have hstep := hsend
      rw [System.step, if_pos halive] at hstep
      cases hstep
      -- the message moves from the forwarder to the channel
      have hmove : w.system.sent ++ m :: pending = (w.system.sent ++ [m]) ++ pending := by simp
      rw [hmove] at hlog hfed
      exact ⟨log, fs, hinv.hosted, hinv.retired, hinv.ordered, hinv.durable, e, start, he, hlog,
        hfed.step hsend, halive, hbefore⟩
  | @withController e current retired edge =>
      obtain ⟨fs', hret, hord, hdur⟩ := hinv.retire
      have hInv : Inv P e log := hinv.hosted
      refine ⟨log, fs', hInv.wire _, hret, hord, hdur, _, log, rfl, rfl, ?_, rfl, hdur⟩
      exact ⟨SystemInv.spawned edge, System.drained_spawned, .wired⟩
  | @worker hosted pending w s retired a ha hstep =>
      obtain ⟨e, start, he, hlog, hfed, halive, hbefore⟩ := hinv.current
      obtain ⟨hsent, hsame⟩ := System.sender_of_worker ha hstep
      refine ⟨log, fs, hinv.hosted, hinv.retired, hinv.ordered, hinv.durable, e, start, he, ?_, ?_,
        ?_, hbefore⟩
      · show _ = some (MutationLog.mk [] (some (s.sent ++ pending)))
        rw [hsent]
        exact hlog
      · show FedBy _ (s.sent ++ pending) _
        rw [hsent]
        exact hfed.step hstep
      · exact hsame.trans halive
  | @retiredWorker hosted pending current pre post w s a ha hstep =>
      refine ⟨log, fs, hinv.hosted, forall₂_replace pre hinv.retired fun f hf => ?_, hinv.ordered,
        hinv.durable, hinv.current⟩
      have hsent := (System.sender_of_worker ha hstep).1
      show FedBy _ s.sent f
      rw [hsent]
      exact hf.step hstep
  | @drop e current retired =>
      obtain ⟨fs', hret, hord, hdur⟩ := hinv.retire
      have hInv : Inv P e log := hinv.hosted
      refine ⟨log, fs', hInv.stored, hret, hord, hdur, rfl, fun e1 he1 => ?_⟩
      cases he1
  | @reopen s s' e actor retired hs hrel hopen =>
      have hst : Stored P s log := hinv.hosted
      obtain ⟨hInv, hnone⟩ := hst.reopen hs hrel hopen
      refine ⟨log, fs, hInv, hinv.retired, hinv.ordered, hinv.durable, rfl, fun e1 he1 => ?_⟩
      cases he1
      exact hnone

end HostInv

theorem Hosting.inv {h : Host σ} (hr : Hosting P h) : ∃ log fs, HostInv P h log fs := by
  induction hr with
  | fresh hs => exact ⟨[], [], HostInv.fresh hs⟩
  | step _ hs ih =>
      obtain ⟨log, fs, hinv⟩ := ih
      exact hinv.step hs

/-! ## The log and the workers -/

/-- The workers, oldest first, each with everything that it was handed. -/
def Host.streams (h : Host σ) : List (Spawned × List Mutation) :=
  h.retired.map (fun w => (w, w.system.sent)) ++
    h.current.toList.map fun w => (w, w.system.sent ++ h.pending)

/-- A worker and its stream, seen from the log: the stream is a feed between two states of the log,
and it is on the channel up to what the call in progress has not sent. -/
structure Handed (log : List Mutation) (ws : Spawned × List Mutation)
    (f : List Mutation × List Mutation) : Prop where
  fed : FedBy ws.1 ws.2 f
  durable : f.2 <+: log
  sent : ws.1.system.sent <+: ws.2
  closed : ws.1.system.engineAlive = false → ws.2 = ws.1.system.sent

namespace HostInv

variable {h : Host σ} {log : List Mutation} {fs : List (List Mutation × List Mutation)}

/-- The log on the store. -/
theorem stored (hinv : HostInv P h log fs) : Stored P h.hosted.store log := by
  have hh := hinv.hosted
  cases hx : h.hosted with
  | running e =>
      rw [hx] at hh
      exact Inv.stored hh
  | closed s =>
      rw [hx] at hh
      exact hh

/-- All workers, the current one included, in terms of their feeds. -/
theorem handed (hinv : HostInv P h log fs) :
    ∃ fs', List.Forall₂ (Handed log) h.streams fs' ∧ fs'.Pairwise fun a b => a.2 <+: b.1 := by
  have hret : List.Forall₂ (Handed log) (h.retired.map fun w => (w, w.system.sent)) fs := by
    rw [List.forall₂_map_left_iff]
    have hboth := (List.forall₂_and_left _ _).2 ⟨hinv.durable, hinv.retired.flip⟩
    exact hboth.flip.imp fun w f hf => ⟨hf.2, hf.1, List.prefix_rfl, fun _ => rfl⟩
  have hcur := hinv.current
  unfold Host.streams
  cases hc : h.current with
  | none => exact ⟨fs, by simpa using hret, hinv.ordered⟩
  | some w =>
      rw [hc] at hcur
      obtain ⟨-, start, -, -, hfed, halive, hbefore⟩ := hcur
      refine ⟨fs ++ [(start, log)], List.rel_append hret (.cons ⟨hfed, List.prefix_rfl,
        List.prefix_append _ _, fun hdead => Bool.noConfusion (halive.symm.trans hdead)⟩ .nil), ?_⟩
      rw [List.pairwise_append]
      refine ⟨hinv.ordered, List.pairwise_singleton _ _, fun a ha b hb => ?_⟩
      rw [List.mem_singleton.1 hb]
      exact hbefore a ha

end HostInv

namespace Handed

variable {log : List Mutation} {ws : Spawned × List Mutation} {f : List Mutation × List Mutation}

end Handed

end Morceau
