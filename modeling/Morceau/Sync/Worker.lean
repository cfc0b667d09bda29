import Morceau.Data.Graph
import Morceau.Lib.Blocks

/-!
# The controller worker

`worker.rs` spawns a worker that connects to the controller, receives the mutations that the
engine's forwarder sends over a channel, and applies them one by one, with retries on transient
failures. The engine and the worker run concurrently: a `System` is the channel, the worker's place
in its code, and the calls the controller has seen; `System.step` is one atomic action of the engine
or of the worker, with the controller's answer as part of the action. A run is any list of actions,
so a statement about every run is one about every interleaving and every controller.

The channel hands messages over in send order, so the calls of `apply` form a sequence of blocks,
one per message (`Connected`). The main result, `worker_protocol`, reads the protocol off that
shape.
-/

set_option autoImplicit false

namespace Morceau

open Lib

/-- `ControllerError`. -/
inductive ControllerError where
  | transient (reason : String)
  | permanent (reason : String)
deriving DecidableEq, Repr

/-- What `Controller::connect` and `Controller::apply` return. -/
abbrev Answer := Except ControllerError Unit

/-- `ControllerError::is_transient` of an answer. -/
def Answer.isTransient : Answer → Bool
  | .error (.transient _) => true
  | _ => false

/-- The fields of `EdgeConfig` that the worker reads. -/
structure EdgeConfig where
  controllerRetryMaxBackoffMs : UInt64
  controllerRetryMaxAttempts : UInt32
deriving DecidableEq, Repr

/-- `attempt.saturating_add(1)`. -/
def saturatingSucc (attempt : UInt32) : UInt32 :=
  if attempt = 0xffffffff then attempt else attempt + 1

/-- The backoff after a sleep: `backoff_ms.saturating_mul(2)`, at most the configured one. -/
def nextBackoff (edge : EdgeConfig) (backoffMs : UInt64) : UInt64 :=
  min (if backoffMs.toNat * 2 < 2 ^ 64 then backoffMs * 2 else 0xffffffffffffffff)
    edge.controllerRetryMaxBackoffMs

/-- How a turn of the retry loop ends: `return`, or go on with this attempt count. -/
inductive Retry where
  | done
  | again (attempt : UInt32)
deriving DecidableEq, Repr

/-- The body of the loop of `retry_apply_native`, given the answer of `Controller::apply`. -/
def retryStep (edge : EdgeConfig) (attempt : UInt32) : Answer → Retry
  | .ok () => .done
  | .error (.permanent _) => .done
  | .error (.transient _) =>
      if 0 < edge.controllerRetryMaxAttempts ∧
          edge.controllerRetryMaxAttempts ≤ saturatingSucc attempt then .done
      else .again (saturatingSucc attempt)

/-- Where the worker is. -/
inductive Worker where
  | starting
  | receiving
  | applying (m : Mutation) (attempt : UInt32) (backoffMs : UInt64)
  | sleeping (m : Mutation) (attempt : UInt32) (backoffMs : UInt64)
  | flushing
  | stopped
deriving DecidableEq

/-- A call of the controller with its answer; `apply` carries the number of the message. -/
inductive ControllerCall where
  | connect (answer : Answer)
  | apply (number : Nat) (m : Mutation) (answer : Answer)
  | flush
deriving DecidableEq

/-- The engine's end of the channel, the channel, the worker, and the calls so far. `sent` is
everything the forwarder sent, and `received` counts the messages taken from the channel. -/
structure System where
  sent : List Mutation
  queue : List Mutation
  engineAlive : Bool
  received : Nat
  worker : Worker
  calls : List ControllerCall
deriving DecidableEq

/-- What can happen next. -/
inductive Action where
  | send (m : Mutation)
  | dropEngine
  | connect (answer : Answer)
  | recv
  | apply (answer : Answer)
  | wake
  | flush
deriving DecidableEq

namespace System

/-- Right after `spawn_controller_worker`: the forwarder is wired, nothing was sent. -/
def spawned : System := ⟨[], [], true, 0, .starting, []⟩

/-- One atomic action; `none` when it cannot happen now. A send to a worker that has returned is
lost, as `let _ = tx.send(m)` ignores it. A receive on an empty channel waits while the engine is
alive and ends the loop when it is dropped. -/
def step (edge : EdgeConfig) (s : System) : Action → Option System
  | .send m =>
      if s.engineAlive then
        some { s with
          sent := s.sent ++ [m]
          queue := if s.worker = .stopped then s.queue else s.queue ++ [m] }
      else none
  | .dropEngine => some { s with engineAlive := false }
  | .connect answer =>
      match s.worker with
      | .starting =>
          some { s with
            worker := match answer with
              | .ok () => .receiving
              | .error _ => .flushing
            calls := s.calls ++ [.connect answer] }
      | _ => none
  | .recv =>
      match s.worker, s.queue with
      | .receiving, m :: queue =>
          some { s with queue := queue, received := s.received + 1, worker := .applying m 0 100 }
      | .receiving, [] => if s.engineAlive then none else some { s with worker := .flushing }
      | _, _ => none
  | .apply answer =>
      match s.worker with
      | .applying m attempt backoffMs =>
          some { s with
            worker := match retryStep edge attempt answer with
              | .done => .receiving
              | .again attempt' => .sleeping m attempt' backoffMs
            calls := s.calls ++ [.apply (s.received - 1) m answer] }
      | _ => none
  | .wake =>
      match s.worker with
      | .sleeping m attempt backoffMs =>
          some { s with worker := .applying m attempt (nextBackoff edge backoffMs) }
      | _ => none
  | .flush =>
      match s.worker with
      | .flushing => some { s with worker := .stopped, calls := s.calls ++ [.flush] }
      | _ => none

/-- A run: the actions in the order they happen. -/
def run (edge : EdgeConfig) : List Action → System → Option System
  | [], s => some s
  | a :: acts, s => (s.step edge a).bind (run edge acts)

/-- How many messages the worker has moved past: those it received, without the one it holds. -/
def passed (s : System) : Nat :=
  match s.worker with
  | .applying _ _ _ => s.received - 1
  | .sleeping _ _ _ => s.received - 1
  | _ => s.received

end System

/-! ## The shape of the calls -/

/-- The calls of `apply`, with the numbers of the messages. -/
def applies (calls : List ControllerCall) : List (Nat × Mutation × Answer) :=
  calls.filterMap fun
    | .apply i m a => some (i, m, a)
    | _ => none

/-- A presentation as a call. -/
def asCall (x : Nat × Mutation × Answer) : ControllerCall := .apply x.1 x.2.1 x.2.2

/-- The answers to a message that the worker has moved past: transient ones and then an `Ok` or a
permanent failure, within the budget; or as many transient ones as the budget allows. -/
def Passed (edge : EdgeConfig) (answers : List Answer) : Prop :=
  (∃ ts last, answers = ts ++ [last] ∧ (∀ a ∈ ts, a.isTransient = true) ∧
      (last = .ok () ∨ ∃ reason, last = .error (.permanent reason)) ∧
      (0 < edge.controllerRetryMaxAttempts → ts.length < edge.controllerRetryMaxAttempts.toNat)) ∨
    (0 < edge.controllerRetryMaxAttempts ∧
      answers.length = edge.controllerRetryMaxAttempts.toNat ∧
      ∀ a ∈ answers, a.isTransient = true)

/-- The answers so far to the message that the worker holds, with its attempt counter. -/
structure Pending (edge : EdgeConfig) (attempt : UInt32) (answers : List Answer) : Prop where
  transient : ∀ a ∈ answers, a.isTransient = true
  attempt : attempt.toNat = min answers.length (2 ^ 32 - 1)
  budget : 0 < edge.controllerRetryMaxAttempts →
    answers.length < edge.controllerRetryMaxAttempts.toNat

/-- The calls of a worker that is connected: a block for each message it has moved past, and one for
the message it holds. -/
def Connected (edge : EdgeConfig) (sent : List Mutation) (received : Nat)
    (held : Option (Mutation × UInt32)) (calls : List ControllerCall) : Prop :=
  ∃ done trace, calls = .connect (.ok ()) :: trace.map asCall ∧
    (∀ as ∈ done, Passed edge as) ∧
    match held with
    | none => trace = blocks 0 sent done ∧ received = done.length
    | some (m, attempt) => ∃ cur, trace = blocks 0 sent done ++ block done.length m cur ∧
        received = done.length + 1 ∧ sent[done.length]? = some m ∧ Pending edge attempt cur

/-- The calls before the flush: the connection failed, or the worker went through the messages. -/
def Ending (edge : EdgeConfig) (sent : List Mutation) (received : Nat)
    (calls : List ControllerCall) : Prop :=
  (received = 0 ∧ ∃ err, calls = [.connect (.error err)]) ∨ Connected edge sent received none calls

/-- What the worker's place in its code says about the calls so far. -/
def Phase (edge : EdgeConfig) (s : System) : Prop :=
  match s.worker with
  | .starting => s.received = 0 ∧ s.calls = []
  | .receiving => Connected edge s.sent s.received none s.calls
  | .applying m attempt _ => Connected edge s.sent s.received (some (m, attempt)) s.calls
  | .sleeping m attempt _ => Connected edge s.sent s.received (some (m, attempt)) s.calls
  | .flushing => Ending edge s.sent s.received s.calls
  | .stopped => ∃ cs, s.calls = cs ++ [.flush] ∧ Ending edge s.sent s.received cs

/-- The invariant of every run. -/
structure SystemInv (edge : EdgeConfig) (s : System) : Prop where
  received : s.received ≤ s.sent.length
  queue : s.worker ≠ .stopped → s.queue = s.sent.drop s.received
  phase : Phase edge s

/-! ## One step -/

theorem toNat_saturatingSucc (attempt : UInt32) :
    (saturatingSucc attempt).toNat = min (attempt.toNat + 1) (2 ^ 32 - 1) := by
  have hlt := attempt.toNat_lt
  unfold saturatingSucc
  split
  · rename_i hmax
    rw [hmax]
    rfl
  · rename_i hne
    have hne' : attempt.toNat ≠ 2 ^ 32 - 1 := fun h => hne (UInt32.toNat_inj.1 h)
    rw [UInt32.toNat_add]
    show (attempt.toNat + 1) % 2 ^ 32 = _
    omega

/-- The retry loop returns only when the message is passed, and otherwise stays within its budget.
-/
theorem Pending.retry {edge : EdgeConfig} {attempt : UInt32} {answers : List Answer}
    (h : Pending edge attempt answers) (a : Answer) :
    (retryStep edge attempt a = .done ∧ Passed edge (answers ++ [a])) ∨
      ∃ attempt', retryStep edge attempt a = .again attempt' ∧
        Pending edge attempt' (answers ++ [a]) := by
  rcases a with (reason | reason) | ⟨⟩
  · -- a transient failure: the counter tells how many there were, up to its largest value
    have hsucc := toNat_saturatingSucc attempt
    have hcount := h.attempt
    have hmax := edge.controllerRetryMaxAttempts.toNat_lt
    have hall : ∀ a ∈ answers ++ [.error (.transient reason)], Answer.isTransient a = true := by
      intro a ha
      rcases List.mem_append.1 ha with ha | ha
      · exact h.transient a ha
      · rw [List.mem_singleton.1 ha]
        rfl
    simp only [retryStep]
    split
    · rename_i hcond
      refine Or.inl ⟨rfl, Or.inr ⟨hcond.1, ?_, hall⟩⟩
      have hle := UInt32.le_iff_toNat_le.1 hcond.2
      have hlt := h.budget hcond.1
      rw [List.length_append, List.length_singleton]
      omega
    · rename_i hcond
      refine Or.inr ⟨_, rfl, hall, ?_, fun hpos => ?_⟩
      · rw [hsucc, List.length_append, List.length_singleton]
        omega
      · have hlt : ¬ edge.controllerRetryMaxAttempts.toNat ≤ (saturatingSucc attempt).toNat :=
          fun hle => hcond ⟨hpos, UInt32.le_iff_toNat_le.2 hle⟩
        rw [List.length_append, List.length_singleton]
        omega
  · exact Or.inl ⟨rfl, Or.inl ⟨answers, _, rfl, h.transient, Or.inr ⟨reason, rfl⟩, h.budget⟩⟩
  · exact Or.inl ⟨rfl, Or.inl ⟨answers, _, rfl, h.transient, Or.inl rfl, h.budget⟩⟩

namespace Connected

variable {edge : EdgeConfig} {sent : List Mutation} {received : Nat}
  {held : Option (Mutation × UInt32)} {calls : List ControllerCall}

/-- What is sent later does not change the blocks. -/
theorem send (h : Connected edge sent received held calls) (hle : received ≤ sent.length)
    (m : Mutation) : Connected edge (sent ++ [m]) received held calls := by
  obtain ⟨done, trace, hcalls, hdone, hheld⟩ := h
  refine ⟨done, trace, hcalls, hdone, ?_⟩
  cases held with
  | none =>
      obtain ⟨htrace, hrec⟩ := hheld
      exact ⟨by rw [blocks_append _ _ _ _ (by omega)]; exact htrace, hrec⟩
  | some p =>
      obtain ⟨cur, htrace, hrec, hm, hpend⟩ := hheld
      refine ⟨cur, by rw [blocks_append _ _ _ _ (by omega)]; exact htrace, hrec, ?_, hpend⟩
      rw [List.getElem?_append_left (by omega)]
      exact hm

/-- Taking the next message starts an empty block. -/
theorem recv (h : Connected edge sent received none calls) {m : Mutation}
    (hm : sent[received]? = some m) :
    Connected edge sent (received + 1) (some (m, 0)) calls := by
  obtain ⟨done, trace, hcalls, hdone, htrace, hrec⟩ := h
  subst hrec
  refine ⟨done, trace, hcalls, hdone, [], by simpa [block] using htrace, rfl, hm, ?_⟩
  exact ⟨by simp, rfl, fun hpos => UInt32.lt_iff_toNat_lt.1 hpos⟩

/-- An answer extends the block of the message; when the loop returns, the message is passed. -/
theorem apply {m : Mutation} {attempt : UInt32}
    (h : Connected edge sent received (some (m, attempt)) calls) (a : Answer) :
    match retryStep edge attempt a with
    | .done => Connected edge sent received none (calls ++ [.apply (received - 1) m a])
    | .again attempt' => Connected edge sent received (some (m, attempt'))
        (calls ++ [.apply (received - 1) m a]) := by
  obtain ⟨done, trace, hcalls, hdone, cur, htrace, hrec, hm, hpend⟩ := h
  have hext : calls ++ [.apply (received - 1) m a] = .connect (.ok ()) ::
      (blocks 0 sent done ++ block done.length m (cur ++ [a])).map asCall := by
    rw [hcalls, htrace, hrec]
    simp [block, asCall]
  rcases hpend.retry a with ⟨hdn, hpassed⟩ | ⟨attempt', hagain, hpend'⟩
  · rw [hdn]
    refine ⟨done ++ [cur ++ [a]], _, hext, fun as has => ?_, ?_, by simp [hrec]⟩
    · rcases List.mem_append.1 has with has | has
      · exact hdone as has
      · rw [List.mem_singleton.1 has]
        exact hpassed
    · rw [blocks_snoc done 0 sent _ hm, Nat.zero_add]
  · rw [hagain]
    exact ⟨done, _, hext, hdone, cur ++ [a], rfl, hrec, hm, hpend'⟩

end Connected

theorem Ending.send {edge : EdgeConfig} {sent : List Mutation} {received : Nat}
    {calls : List ControllerCall} (h : Ending edge sent received calls)
    (hle : received ≤ sent.length) (m : Mutation) : Ending edge (sent ++ [m]) received calls := by
  rcases h with h | h
  · exact Or.inl h
  · exact Or.inr (h.send hle m)

namespace SystemInv

variable {edge : EdgeConfig} {s s' : System}

theorem spawned (edge : EdgeConfig) : SystemInv edge System.spawned :=
  ⟨le_refl _, fun _ => rfl, rfl, rfl⟩

theorem send (h : SystemInv edge s) {m : Mutation} (hs : s.step edge (.send m) = some s') :
    SystemInv edge s' := by
  have hle := h.received
  simp only [System.step] at hs
  split at hs
  · cases hs
    refine ⟨by simp; omega, fun hw => ?_, ?_⟩
    · show (if s.worker = .stopped then s.queue else s.queue ++ [m]) = _
      rw [if_neg hw, h.queue hw, List.drop_append_of_le_length hle]
    · have hphase := h.phase
      unfold Phase at hphase ⊢
      cases hw : s.worker with
      | starting =>
          simp only [hw] at hphase ⊢
          exact hphase
      | receiving =>
          simp only [hw] at hphase ⊢
          exact hphase.send hle m
      | applying m' attempt backoffMs =>
          simp only [hw] at hphase ⊢
          exact hphase.send hle m
      | sleeping m' attempt backoffMs =>
          simp only [hw] at hphase ⊢
          exact hphase.send hle m
      | flushing =>
          simp only [hw] at hphase ⊢
          exact hphase.send hle m
      | stopped =>
          simp only [hw] at hphase ⊢
          obtain ⟨cs, hcs, hend⟩ := hphase
          exact ⟨cs, hcs, hend.send hle m⟩
  · cases hs

theorem connect (h : SystemInv edge s) {a : Answer} (hs : s.step edge (.connect a) = some s') :
    SystemInv edge s' := by
  simp only [System.step] at hs
  split at hs
  · rename_i hw
    have hphase := h.phase
    simp only [Phase, hw] at hphase
    obtain ⟨hrec, hcalls⟩ := hphase
    cases hs
    refine ⟨h.received, fun _ => h.queue (by simp [hw]), ?_⟩
    cases a with
    | ok u => exact ⟨[], [], by simp [hcalls], by simp, by simp, hrec⟩
    | error err => exact Or.inl ⟨hrec, err, by simp [hcalls]⟩
  · cases hs

theorem recv (h : SystemInv edge s) (hs : s.step edge .recv = some s') : SystemInv edge s' := by
  simp only [System.step] at hs
  split at hs
  · rename_i m queue hw hq
    have hphase := h.phase
    simp only [Phase, hw] at hphase
    have hdrop := h.queue (by simp [hw])
    rw [hq] at hdrop
    -- the head of the channel is the next message that was sent
    have hm : s.sent[s.received]? = some m := by
      rw [← List.head?_drop, ← hdrop]
      rfl
    cases hs
    refine ⟨?_, fun _ => ?_, hphase.recv hm⟩
    · exact (List.getElem?_eq_some_iff.1 hm).1
    · show queue = s.sent.drop (s.received + 1)
      rw [← List.drop_drop, ← hdrop]
      rfl
  · rename_i hw hq
    have hphase := h.phase
    simp only [Phase, hw] at hphase
    split at hs
    · cases hs
    · cases hs
      exact ⟨h.received, fun _ => h.queue (by simp [hw]), Or.inr hphase⟩
  · cases hs

theorem apply (h : SystemInv edge s) {a : Answer} (hs : s.step edge (.apply a) = some s') :
    SystemInv edge s' := by
  simp only [System.step] at hs
  split at hs
  · rename_i m attempt backoffMs hw
    have hphase := h.phase
    simp only [Phase, hw] at hphase
    have hnext := hphase.apply a
    cases hs
    refine ⟨h.received, fun _ => h.queue (by simp [hw]), ?_⟩
    cases hr : retryStep edge attempt a with
    | done =>
        rw [hr] at hnext
        simpa only [Phase, hr] using hnext
    | again attempt' =>
        rw [hr] at hnext
        simpa only [Phase, hr] using hnext
  · cases hs

theorem step (h : SystemInv edge s) {a : Action} (hs : s.step edge a = some s') :
    SystemInv edge s' := by
  cases a with
  | send m => exact h.send hs
  | dropEngine =>
      cases hs
      exact ⟨h.received, h.queue, h.phase⟩
  | connect answer => exact h.connect hs
  | recv => exact h.recv hs
  | apply answer => exact h.apply hs
  | wake =>
      simp only [System.step] at hs
      split at hs
      · rename_i m attempt backoffMs hw
        have hphase := h.phase
        simp only [Phase, hw] at hphase
        cases hs
        exact ⟨h.received, fun _ => h.queue (by simp [hw]), hphase⟩
      · cases hs
  | flush =>
      simp only [System.step] at hs
      split at hs
      · rename_i hw
        have hphase := h.phase
        simp only [Phase, hw] at hphase
        cases hs
        exact ⟨h.received, fun hstop => absurd rfl hstop, s.calls, rfl, hphase⟩
      · cases hs

theorem run (acts : List Action) : ∀ {s : System}, SystemInv edge s →
    System.run edge acts s = some s' → SystemInv edge s' := by
  induction acts with
  | nil =>
      intro s h hr
      cases hr
      exact h
  | cons a acts ih =>
      intro s h hr
      obtain ⟨s1, hs, hrest⟩ := Option.bind_eq_some_iff.1 hr
      exact ih (h.step hs) hrest

end SystemInv

/-! ## The protocol -/

theorem applies_append (cs cs' : List ControllerCall) :
    applies (cs ++ cs') = applies cs ++ applies cs' := List.filterMap_append

theorem applies_map_asCall (trace : List (Nat × Mutation × Answer)) :
    applies (trace.map asCall) = trace := by
  induction trace with
  | nil => rfl
  | cons x trace ih =>
      show x :: applies (trace.map asCall) = _
      rw [ih]

namespace Passed

variable {edge : EdgeConfig} {answers : List Answer}

theorem ne_nil (h : Passed edge answers) : answers ≠ [] := by
  rcases h with ⟨ts, last, rfl, -⟩ | ⟨hpos, hlen, -⟩
  · simp
  · rintro rfl
    have := UInt32.lt_iff_toNat_lt.1 hpos
    rw [← hlen] at this
    simp at this

/-- Every answer but the last is transient. -/
theorem pairwise (h : Passed edge answers) :
    answers.Pairwise fun a _ => a.isTransient = true := by
  rcases h with ⟨ts, last, rfl, hts, -⟩ | ⟨-, -, hall⟩
  · refine List.pairwise_append.2 ⟨?_, List.pairwise_singleton _ _, fun a ha _ _ => hts a ha⟩
    exact List.pairwise_of_forall_mem_list fun a ha _ _ => hts a ha
  · exact List.pairwise_of_forall_mem_list fun a ha _ _ => hall a ha

end Passed

/-- The calls as a whole: perhaps a connect, the blocks of the messages, perhaps a flush. There are
blocks only after a connect that returned `Ok`. -/
structure Outline (edge : EdgeConfig) (s : System) (ass : List (List Answer))
    (opening closing : List ControllerCall) : Prop where
  calls : s.calls = opening ++ (blocks 0 s.sent ass).map asCall ++ closing
  opening : opening = [] ∧ ass = [] ∨ (∃ err, opening = [.connect (.error err)]) ∧ ass = [] ∨
    opening = [.connect (.ok ())]
  closing : closing = [] ∨ closing = [.flush]
  length : ass.length ≤ s.sent.length
  block : ∀ as ∈ ass, as ≠ [] ∧ as.Pairwise fun a _ => a.isTransient = true
  passed : ∀ i < s.passed, ∃ as, ass[i]? = some as ∧ Passed edge as

/-- The blocks of a connected worker. -/
theorem Connected.blocks {edge : EdgeConfig} {sent : List Mutation} {received : Nat}
    {held : Option (Mutation × UInt32)} {calls : List ControllerCall}
    (h : Connected edge sent received held calls) (hle : received ≤ sent.length) :
    ∃ ass, calls = [.connect (.ok ())] ++ (Lib.blocks 0 sent ass).map asCall ∧
      ass.length ≤ sent.length ∧
      (∀ as ∈ ass, as ≠ [] ∧ as.Pairwise fun a _ => a.isTransient = true) ∧
      ∀ i < (if held.isSome then received - 1 else received),
        ∃ as, ass[i]? = some as ∧ Passed edge as := by
  obtain ⟨done, trace, hcalls, hdone, hheld⟩ := h
  have hblock : ∀ as ∈ done, as ≠ [] ∧ as.Pairwise fun a _ => a.isTransient = true :=
    fun as has => ⟨(hdone as has).ne_nil, (hdone as has).pairwise⟩
  have hpassed : ∀ i < done.length, ∃ as, done[i]? = some as ∧ Passed edge as :=
    fun i hi => ⟨_, List.getElem?_eq_getElem hi, hdone _ (List.getElem_mem hi)⟩
  cases held with
  | none =>
      obtain ⟨rfl, rfl⟩ := hheld
      exact ⟨done, hcalls, hle, hblock, hpassed⟩
  | some p =>
      obtain ⟨cur, rfl, rfl, hm, hpend⟩ := hheld
      by_cases hcur : cur = []
      · -- the message was received and not presented yet
        subst hcur
        refine ⟨done, ?_, by omega, hblock, hpassed⟩
        simpa [block] using hcalls
      · refine ⟨done ++ [cur], ?_, by simpa using hle, fun as has => ?_, fun i hi => ?_⟩
        · rw [blocks_snoc done 0 sent cur hm, Nat.zero_add]
          exact hcalls
        · rcases List.mem_append.1 has with has | has
          · exact hblock as has
          · rw [List.mem_singleton.1 has]
            exact ⟨hcur, List.pairwise_of_forall_mem_list fun a ha _ _ => hpend.transient a ha⟩
        · have hi' : i < done.length := by simpa using hi
          rw [List.getElem?_append_left hi']
          exact hpassed i hi'

theorem Ending.outline {edge : EdgeConfig} {s : System} {cs closing : List ControllerCall}
    (h : Ending edge s.sent s.received cs) (hle : s.received ≤ s.sent.length)
    (hpassed : s.passed = s.received) (hcalls : s.calls = cs ++ closing)
    (hclosing : closing = [] ∨ closing = [.flush]) :
    ∃ ass opening, Outline edge s ass opening closing := by
  rcases h with ⟨hrec, err, rfl⟩ | hcon
  · refine ⟨[], _, by simpa using hcalls, Or.inr (Or.inl ⟨⟨err, rfl⟩, rfl⟩), hclosing, by simp,
      by simp, fun i hi => ?_⟩
    rw [hpassed, hrec] at hi
    exact absurd hi (Nat.not_lt_zero i)
  · obtain ⟨ass, rfl, hlen, hblock, hpass⟩ := hcon.blocks hle
    exact ⟨ass, _, hcalls, Or.inr (Or.inr rfl), hclosing, hlen, hblock, hpassed ▸ hpass⟩

theorem SystemInv.outline {edge : EdgeConfig} {s : System} (h : SystemInv edge s) :
    ∃ ass opening closing, Outline edge s ass opening closing := by
  have hphase := h.phase
  unfold Phase at hphase
  cases hw : s.worker with
  | starting =>
      -- nothing was received, so there is no call
      simp only [hw] at hphase
      have hpassed : s.passed = 0 := by simp only [System.passed, hw, hphase.1]
      refine ⟨[], [], [], by simp [hphase.2], Or.inl ⟨rfl, rfl⟩, Or.inl rfl, by simp, by simp,
        fun i hi => ?_⟩
      rw [hpassed] at hi
      exact absurd hi (Nat.not_lt_zero i)
  | receiving =>
      simp only [hw] at hphase
      obtain ⟨ass, opening, ho⟩ := Ending.outline (Or.inr hphase) h.received
        (by simp only [System.passed, hw]) (List.append_nil _).symm (Or.inl rfl)
      exact ⟨ass, opening, [], ho⟩
  | applying m attempt backoffMs =>
      simp only [hw] at hphase
      obtain ⟨ass, hcalls, hlen, hblock, hpass⟩ := hphase.blocks h.received
      have hpassed : s.passed = s.received - 1 := by simp only [System.passed, hw]
      exact ⟨ass, _, [], by simpa using hcalls, Or.inr (Or.inr rfl), Or.inl rfl, hlen, hblock,
        hpassed ▸ hpass⟩
  | sleeping m attempt backoffMs =>
      simp only [hw] at hphase
      obtain ⟨ass, hcalls, hlen, hblock, hpass⟩ := hphase.blocks h.received
      have hpassed : s.passed = s.received - 1 := by simp only [System.passed, hw]
      exact ⟨ass, _, [], by simpa using hcalls, Or.inr (Or.inr rfl), Or.inl rfl, hlen, hblock,
        hpassed ▸ hpass⟩
  | flushing =>
      simp only [hw] at hphase
      obtain ⟨ass, opening, ho⟩ := hphase.outline h.received (by simp only [System.passed, hw])
        (List.append_nil _).symm (Or.inl rfl)
      exact ⟨ass, opening, [], ho⟩
  | stopped =>
      -- the calls of the loop and the flush at its end
      simp only [hw] at hphase
      obtain ⟨cs, hcs, hend⟩ := hphase
      obtain ⟨ass, opening, ho⟩ := hend.outline h.received (by simp only [System.passed, hw]) hcs
        (Or.inr rfl)
      exact ⟨ass, opening, [.flush], ho⟩

namespace Outline

variable {edge : EdgeConfig} {s : System} {ass : List (List Answer)}
  {opening closing : List ControllerCall}

theorem applies_eq (h : Outline edge s ass opening closing) :
    applies s.calls = blocks 0 s.sent ass := by
  have hopen : applies opening = [] := by
    rcases h.opening with ⟨rfl, -⟩ | ⟨⟨err, rfl⟩, -⟩ | rfl <;> rfl
  have hclose : applies closing = [] := by
    rcases h.closing with rfl | rfl <;> rfl
  rw [h.calls, applies_append, applies_append, applies_map_asCall, hopen, hclose, List.nil_append,
    List.append_nil]

/-- Before any `apply` there was a connect that returned `Ok`. -/
theorem connected_of_apply (h : Outline edge s ass opening closing) {pre post : List ControllerCall}
    {i : Nat} {m : Mutation} {a : Answer} (hcalls : s.calls = pre ++ .apply i m a :: post) :
    .connect (.ok ()) ∈ pre := by
  have hmem : (i, m, a) ∈ blocks 0 s.sent ass := by
    rw [← h.applies_eq, hcalls, applies_append]
    exact List.mem_append_right _ (List.mem_cons_self ..)
  have hne : ass ≠ [] := by
    rintro rfl
    simp at hmem
  have hopen : opening = [.connect (.ok ())] := by
    rcases h.opening with ⟨-, hnil⟩ | ⟨-, hnil⟩ | hopen
    · exact absurd hnil hne
    · exact absurd hnil hne
    · exact hopen
  have hhead := h.calls
  rw [hcalls, hopen] at hhead
  cases pre with
  | nil => cases hhead
  | cons c pre =>
      rw [(List.cons.inj hhead).1]
      exact List.mem_cons_self ..

/-- A flush is the last call. -/
theorem flush_last (h : Outline edge s ass opening closing) {pre post : List ControllerCall}
    (hcalls : s.calls = pre ++ .flush :: post) : post = [] := by
  have hbody : .flush ∉ opening ++ (blocks 0 s.sent ass).map asCall := by
    intro hmem
    rcases List.mem_append.1 hmem with hmem | hmem
    · rcases h.opening with ⟨rfl, -⟩ | ⟨⟨err, rfl⟩, -⟩ | rfl <;> simp at hmem
    · obtain ⟨x, -, hx⟩ := List.mem_map.1 hmem
      cases hx
  have heq := h.calls.symm.trans hcalls
  rcases h.closing with rfl | rfl
  · rw [List.append_nil] at heq
    exact absurd (heq ▸ List.mem_append_right _ (List.mem_cons_self ..)) hbody
  · rcases List.eq_nil_or_concat post with hnil | ⟨post', x, rfl⟩
    · exact hnil
    · rw [List.concat_eq_append, ← List.cons_append, ← List.append_assoc] at heq
      obtain ⟨hfront, -⟩ := List.append_inj' heq rfl
      exact absurd (hfront ▸ List.mem_append_right _ (List.mem_cons_self ..)) hbody

end Outline

/-- The controller worker protocol, over every interleaving and every controller. No `apply` without
a successful connect; the calls of `apply`, with repeated ones for a message collapsed, are the sent
messages in order from the first on; a message is presented again only after a transient answer; the
worker moves past a message as `Passed` says; and the flush is the last call. -/
theorem worker_protocol {edge : EdgeConfig} {acts : List Action} {s : System}
    (h : System.run edge acts System.spawned = some s) :
    (∀ pre i m a post, s.calls = pre ++ .apply i m a :: post → .connect (.ok ()) ∈ pre) ∧
      (∃ k, collapse (applies s.calls) = (s.sent.take k).zipIdx) ∧
      ((applies s.calls).Pairwise fun x y => x.1 = y.1 → x.2.2.isTransient = true) ∧
      (∀ i < s.passed, Passed edge (answersTo i (applies s.calls))) ∧
      ∀ pre post, s.calls = pre ++ .flush :: post → post = [] := by
  obtain ⟨ass, opening, closing, ho⟩ := ((SystemInv.spawned edge).run acts h).outline
  refine ⟨fun pre i m a post => ho.connected_of_apply, ⟨ass.length, ?_⟩, ?_, fun i hi => ?_,
    fun pre post => ho.flush_last⟩
  · rw [ho.applies_eq]
    exact collapse_blocks ass 0 s.sent (fun as has => (ho.block as has).1) ho.length
  · rw [ho.applies_eq]
    exact pairwise_blocks ass 0 s.sent fun as has => (ho.block as has).2
  · obtain ⟨as, has, hpassed⟩ := ho.passed i hi
    rw [ho.applies_eq, ← Nat.zero_add i, answersTo_blocks ass 0 s.sent i ho.length has]
    exact hpassed

/-- A mutation with a number, for the run below. -/
def numberedMutation (seq : UInt64) : Mutation := ⟨seq, ⟨"u", "d"⟩, true, .nodeDelete "a"⟩

/-- Two messages and a budget of two attempts: the first is given up after two transient answers,
the second is applied; then the engine is dropped. -/
def retryRun : List Action :=
  [.send (numberedMutation 1), .connect (.ok ()), .recv, .apply (.error (.transient "busy")),
    .send (numberedMutation 2), .wake, .apply (.error (.transient "busy")), .recv,
    .apply (.ok ()), .dropEngine, .recv, .flush]

theorem worker_protocol_of_retryRun :
    ∃ s, System.run ⟨30000, 2⟩ retryRun System.spawned = some s ∧ s.passed = 2 ∧
      Passed ⟨30000, 2⟩ (answersTo 0 (applies s.calls)) ∧
      Passed ⟨30000, 2⟩ (answersTo 1 (applies s.calls)) := by
  have hpassed : (System.run ⟨30000, 2⟩ retryRun System.spawned).map System.passed = some 2 := by
    decide +kernel
  obtain ⟨s, hs, hp⟩ := Option.map_eq_some_iff.1 hpassed
  obtain ⟨-, -, -, h, -⟩ := worker_protocol hs
  exact ⟨s, hs, hp, h 0 (by omega), h 1 (by omega)⟩

end Morceau
