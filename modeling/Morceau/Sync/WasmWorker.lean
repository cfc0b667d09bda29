import Morceau.Sync.Backoff
import Morceau.Sync.Controllers
import Morceau.Sync.Progress

/-!
# The worker on wasm

On wasm the worker is not a thread. `spawn_impl_wasm` queues a task, and the task and the engine
share one thread: the task runs from one `await` to the next, and the engine runs in between. A
`Page` is the channel, the place at which the task waits, the controller, and the timers that were
set. `poll` runs the task until it waits again: it drains the channel, and stops early only to sleep
before a retry. `wasm_sleep` cuts its delay at `u32::MAX` milliseconds.

Forgetting the controller and the timers, a page is a `System` of the native worker, and every run
of pages is a run of the native system under some schedule (`wasm_worker_refines_native`). So what
holds of every native run holds on wasm.
-/

set_option autoImplicit false

namespace Morceau

open Lib

/-- Where the task of `spawn_impl_wasm` waits. -/
inductive Task where
  | unpolled
  | awaitingMessage
  | awaitingTimer (m : Mutation) (attempt : UInt32) (backoffMs : UInt64)
  | finished
deriving DecidableEq

/-- The worker's end of a page. `sent` is everything the forwarder sent, and `timers` the arguments
of the timers that were set. -/
structure Page (κ : Type) where
  sent : List Mutation
  queue : List Mutation
  senderAlive : Bool
  received : Nat
  task : Task
  controller : κ
  calls : List ControllerCall
  timers : List UInt32

/-- `wasm_sleep`: what the timer is set to. -/
def wasmSleep (ms : UInt64) : UInt32 := if ms ≤ 0xffffffff then ms.toUInt32 else 0xffffffff

namespace Page

variable {κ : Type} [Controller κ]

/-- Right after `spawn_impl_wasm`: the forwarder is wired, and the task waits to be run. -/
def spawned (c : κ) : Page κ := ⟨[], [], true, 0, .unpolled, c, [], []⟩

/-- One turn of the loop of `retry_apply_wasm`, and whether the function returns after it. -/
def retryApplyWasm (edge : EdgeConfig) (m : Mutation) (attempt : UInt32) (backoffMs : UInt64)
    (p : Page κ) : Page κ × Bool :=
  let (answer, c) := Controller.apply p.controller m
  let p := { p with controller := c, calls := p.calls ++ [.apply (p.received - 1) m answer] }
  match retryStep edge attempt answer with
  | .done => (p, true)
  | .again attempt' =>
      ({ p with
          task := .awaitingTimer m attempt' backoffMs
          timers := p.timers ++ [wasmSleep backoffMs] }, false)

/-- The end of the task: `controller.flush()`. -/
def finish (p : Page κ) : Page κ :=
  { p with
    task := .finished
    controller := Controller.flush p.controller
    calls := p.calls ++ [.flush] }

/-- The receive loop of `spawn_impl_wasm` over the messages in the channel. -/
def applyLoop (edge : EdgeConfig) : List Mutation → Page κ → Page κ
  | [], p =>
      if p.senderAlive then { p with queue := [], task := .awaitingMessage }
      else finish { p with queue := [] }
  | m :: queue, p =>
      match retryApplyWasm edge m 0 100 { p with queue := queue, received := p.received + 1 } with
      | (p, true) => applyLoop edge queue p
      | (p, false) => p

/-- The start of the task: `controller.connect(&capability)`. -/
def connect (p : Page κ) : Answer × Page κ :=
  let (answer, c) := Controller.connect p.controller
  (answer, { p with controller := c, calls := p.calls ++ [.connect answer] })

/-- The event loop runs the task, which was just spawned or waits for a message. -/
def poll (edge : EdgeConfig) (p : Page κ) : Page κ :=
  match p.task with
  | .unpolled =>
      match p.connect with
      | (.ok (), p) => applyLoop edge p.queue p
      | (.error _, p) => finish p
  | .awaitingMessage => applyLoop edge p.queue p
  | _ => p

/-- The timer of the task fires. -/
def fire (edge : EdgeConfig) (p : Page κ) : Page κ :=
  match p.task with
  | .awaitingTimer m attempt backoffMs =>
      match retryApplyWasm edge m attempt (nextBackoff edge backoffMs) p with
      | (p, true) => applyLoop edge p.queue p
      | (p, false) => p
  | _ => p

end Page

/-- What can happen on a page: the engine sends or is dropped, or the event loop runs the task. -/
inductive PageEvent where
  | send (m : Mutation)
  | dropEngine
  | poll
  | fire

namespace Page

variable {κ : Type} [Controller κ]

/-- The forwarder: `let _ = tx.unbounded_send(m)`. A send to a task that has finished is lost. -/
def send (p : Page κ) (m : Mutation) : Page κ :=
  { p with
    sent := p.sent ++ [m]
    queue := if p.task = .finished then p.queue else p.queue ++ [m] }

/-- One event; `none` when it cannot happen now. -/
def event (edge : EdgeConfig) (p : Page κ) : PageEvent → Option (Page κ)
  | .send m => if p.senderAlive then some (p.send m) else none
  | .dropEngine => some { p with senderAlive := false }
  | .poll => some (p.poll edge)
  | .fire => some (p.fire edge)

/-- The events in order. -/
def events (edge : EdgeConfig) : List PageEvent → Page κ → Option (Page κ)
  | [], p => some p
  | ev :: evs, p => (p.event edge ev).bind (events edge evs)

end Page

/-! ## Pages as systems -/

/-- Where the native worker is when the task waits. -/
def Task.worker : Task → Worker
  | .unpolled => .starting
  | .awaitingMessage => .receiving
  | .awaitingTimer m attempt backoffMs => .sleeping m attempt backoffMs
  | .finished => .stopped

namespace Page

variable {κ : Type} {edge : EdgeConfig} {p : Page κ}

/-- The page with the worker at the given place. -/
def systemAt (p : Page κ) (w : Worker) : System :=
  ⟨p.sent, p.queue, p.senderAlive, p.received, w, p.calls⟩

/-- The page as a system. -/
def system (p : Page κ) : System := p.systemAt p.task.worker

end Page

/-- The timer that the task waits for. -/
def Task.timer : Task → List UInt32
  | .awaitingTimer _ _ backoffMs => [wasmSleep backoffMs]
  | _ => []

/-- The actions move the system from `s` to the page, and their sleeps and the one that the page is
in are the timers beyond `timers`. The controller has given the recorded answers. -/
structure Simulated {κ : Type} [Controller κ] (edge : EdgeConfig) (c : κ) (acts : List Action)
    (s : System) (timers : List UInt32) (p : Page κ) : Prop where
  run : System.run edge acts s = some p.system
  timers : p.timers =
    timers ++ (System.sleeps edge acts s).map (fun x => wasmSleep x.2) ++ p.task.timer
  served : Controller.serveAll c p.calls = some p.controller

/-- A run after a run, with the sleeps of both. -/
theorem System.run_append {edge : EdgeConfig} (acts : List Action) : ∀ {acts' : List Action}
    {s s' : System}, System.run edge acts s = some s' →
      System.run edge (acts ++ acts') s = System.run edge acts' s' ∧
      System.sleeps edge (acts ++ acts') s =
        System.sleeps edge acts s ++ System.sleeps edge acts' s' := by
  induction acts with
  | nil =>
      intro acts' s s' h
      cases h
      exact ⟨rfl, rfl⟩
  | cons a acts ih =>
      intro acts' s s' h
      obtain ⟨s1, hs1, hrest⟩ := Option.bind_eq_some_iff.1 h
      obtain ⟨hrun, hsleeps⟩ := ih  hrest
      refine ⟨by rw [List.cons_append, System.run, hs1]; exact hrun, ?_⟩
      simp [System.sleeps, hs1, hsleeps]

namespace Simulated

variable {κ : Type} [Controller κ] {edge : EdgeConfig} {c : κ} {timers : List UInt32}
  {s s' : System} {acts : List Action} {p : Page κ}

/-- Nothing happens. -/
theorem refl (ht : p.timers = timers ++ p.task.timer)
    (hc : Controller.serveAll c p.calls = some p.controller) :
    Simulated edge c [] p.system timers p :=
  ⟨rfl, by simpa [System.sleeps] using ht, hc⟩

/-- An action before a simulated run. -/
theorem cons {a : Action} (hs : s.step edge a = some s')
    (h : Simulated edge c acts s' (timers ++ (s.slept a).map fun x => wasmSleep x.2) p) :
    Simulated edge c (a :: acts) s timers p where
  run := by
    rw [System.run, hs]
    exact h.run
  timers := by
    rw [h.timers, System.sleeps, hs, Option.map_some, Option.getD_some, List.map_append]
    simp only [List.append_assoc]
  served := h.served

/-- A simulated run after a simulated run. -/
theorem trans {acts' : List Action} {p' : Page κ} (h : Simulated edge c acts s timers p)
    (h' : Simulated edge c acts' p.system
      (timers ++ (System.sleeps edge acts s).map fun x => wasmSleep x.2) p') :
    Simulated edge c (acts ++ acts') s timers p' where
  run := (System.run_append acts h.run).1.trans h'.run
  timers := by
    rw [h'.timers, (System.run_append acts h.run).2, List.map_append]
    simp only [List.append_assoc]
  served := h'.served

end Simulated

namespace Page

variable {κ : Type} [Controller κ] {edge : EdgeConfig} {c : κ}

theorem served_apply {p : Page κ} (h : Controller.serveAll c p.calls = some p.controller)
    (m : Mutation) :
    Controller.serveAll c (p.calls ++ [.apply (p.received - 1) m
      (Controller.apply p.controller m).1]) = some (Controller.apply p.controller m).2 :=
  Controller.serveAll_snoc _ h (if_pos rfl)

/-- One turn of the retry loop: the native worker makes the same call, and goes on or sleeps. -/
theorem retryApplyWasm_cases (edge : EdgeConfig) (m : Mutation) (attempt : UInt32)
    (backoffMs : UInt64) (p : Page κ) :
    ∃ p' done, retryApplyWasm edge m attempt backoffMs p = (p', done) ∧
      (p.systemAt (.applying m attempt backoffMs)).step edge
          (.apply (Controller.apply p.controller m).1) =
        some (if done then p'.systemAt .receiving else p'.system) ∧
      p'.timers = p.timers ++ (if done then [] else p'.task.timer) ∧
      (Controller.serveAll c p.calls = some p.controller →
        Controller.serveAll c p'.calls = some p'.controller) ∧
      p'.queue = p.queue := by
  simp only [retryApplyWasm]
  cases hr : retryStep edge attempt (Controller.apply p.controller m).1 with
  | done =>
      refine ⟨_, _, rfl, ?_, by simp, fun h => served_apply h m, rfl⟩
      simp [System.step, systemAt, hr]
  | again attempt' =>
      refine ⟨_, _, rfl, ?_, by simp [Task.timer], fun h => served_apply h m, rfl⟩
      simp [System.step, systemAt, system, Task.worker, hr]

variable (edge) in
/-- The receive loop is a run of the native worker that does not sleep. -/
theorem applyLoop_simulated (queue : List Mutation) : ∀ {p : Page κ}, p.queue = queue →
    Controller.serveAll c p.calls = some p.controller →
    ∃ acts, Simulated edge c acts (p.systemAt .receiving) p.timers (applyLoop edge queue p) := by
  induction queue with
  | nil =>
      intro p hq hc
      obtain ⟨sent, _, alive, received, task, controller, calls, timers⟩ := p
      cases hq
      cases alive with
      | true => exact ⟨[], rfl, by simp [applyLoop, System.sleeps, Task.timer], hc⟩
      | false =>
          refine ⟨[.recv, .flush], rfl, ?_, Controller.serveAll_snoc _ hc rfl⟩
          simp [applyLoop, finish, System.sleeps, System.slept, System.step, systemAt, Task.timer]
  | cons m queue ih =>
      intro p hq hc
      obtain ⟨sent, _, alive, received, task, controller, calls, timers⟩ := p
      cases hq
      -- the message is received, and its first turn made
      obtain ⟨p', done, hret, hstep, htimers, hserved, hqueue⟩ := retryApplyWasm_cases (c := c) edge
        m 0 100 (⟨sent, queue, alive, received + 1, task, controller, calls, timers⟩ : Page κ)
      rw [applyLoop, hret]
      cases done with
      | true =>
          obtain ⟨acts, hacts⟩ := ih hqueue (hserved hc)
          refine ⟨.recv :: .apply _ :: acts, .cons rfl (.cons hstep ?_)⟩
          simpa [htimers, System.slept] using hacts
      | false =>
          refine ⟨[.recv, .apply _], .cons rfl (.cons hstep ⟨rfl, ?_, hserved hc⟩)⟩
          simp [htimers, System.slept, System.sleeps]

theorem served_connect {p : Page κ} (h : Controller.serveAll c p.calls = some p.controller) :
    Controller.serveAll c p.connect.2.calls = some p.connect.2.controller :=
  Controller.serveAll_snoc _ h (if_pos rfl)

theorem poll_unpolled_ok {p : Page κ} (hp : p.task = .unpolled) {u : Unit}
    (h : p.connect.1 = .ok u) : p.poll edge = applyLoop edge p.connect.2.queue p.connect.2 := by
  have hpair : p.connect = (.ok u, p.connect.2) := Prod.ext h rfl
  rw [poll, hp]
  dsimp only
  rewrite [hpair]
  rfl

theorem poll_unpolled_error {p : Page κ} (hp : p.task = .unpolled) {err : ControllerError}
    (h : p.connect.1 = .error err) : p.poll edge = finish p.connect.2 := by
  have hpair : p.connect = (.error err, p.connect.2) := Prod.ext h rfl
  rw [poll, hp]
  dsimp only
  rewrite [hpair]
  rfl

/-- The first run of the task: it connects, and then drains the channel or gives up. -/
theorem start_simulated {p : Page κ} (hp : p.task = .unpolled)
    (hc : Controller.serveAll c p.calls = some p.controller) :
    ∃ acts, Simulated edge c acts p.system p.timers (p.poll edge) := by
  have hserved := served_connect hc
  have htimers : p.connect.2.timers = p.timers := rfl
  -- the worker receives after a connect that succeeded, and flushes otherwise
  obtain ⟨w, hstep, hok, herror⟩ : ∃ w,
      p.system.step edge (.connect p.connect.1) = some (p.connect.2.systemAt w) ∧
        (p.connect.1 = .ok () → w = .receiving) ∧
        ∀ err, p.connect.1 = .error err → w = .flushing := by
    refine ⟨_, by rw [system, hp]; rfl, fun h => ?_, fun err h => ?_⟩
    · rw [h]
    · rw [h]
  cases hanswer : p.connect.1 with
  | ok u =>
      have hpoll : p.poll edge = _ := poll_unpolled_ok hp hanswer
      obtain ⟨acts, hacts⟩ := applyLoop_simulated edge p.connect.2.queue rfl hserved
      rw [hok hanswer] at hstep
      exact ⟨_ :: acts, .cons hstep (by simpa [hpoll, htimers, System.slept] using hacts)⟩
  | error err =>
      rw [herror err hanswer] at hstep
      refine ⟨[_, .flush], .cons hstep (.cons rfl ?_)⟩
      have hflushed := Controller.serveAll_snoc _ hserved
        (show Controller.serve p.connect.2.controller .flush = some _ from rfl)
      rw [poll_unpolled_error hp hanswer]
      refine ⟨rfl, ?_, hflushed⟩
      simpa [finish, System.slept, System.sleeps, Task.timer] using htimers

/-- Running the task is a run of the native worker. -/
theorem poll_simulated {p : Page κ} {timers : List UInt32} (ht : p.timers = timers ++ p.task.timer)
    (hc : Controller.serveAll c p.calls = some p.controller) :
    ∃ acts, Simulated edge c acts p.system timers (p.poll edge) := by
  cases htask : p.task with
  | unpolled =>
      have hbase : p.timers = timers := by rw [ht, htask]; exact List.append_nil _
      rw [← hbase]
      exact start_simulated htask hc
  | awaitingMessage =>
      have hbase : p.timers = timers := by rw [ht, htask]; exact List.append_nil _
      rw [← hbase, poll, system, htask]
      exact applyLoop_simulated edge p.queue rfl hc
  | awaitingTimer m attempt backoffMs =>
      refine ⟨[], ?_⟩
      rw [poll, htask]
      exact .refl ht hc
  | finished =>
      refine ⟨[], ?_⟩
      rw [poll, htask]
      exact .refl ht hc

/-- So is a timer that fires: the sleep ends, and the next turn of the loop is made. -/
theorem fire_simulated {p : Page κ} {timers : List UInt32} (ht : p.timers = timers ++ p.task.timer)
    (hc : Controller.serveAll c p.calls = some p.controller) :
    ∃ acts, Simulated edge c acts p.system timers (p.fire edge) := by
  cases htask : p.task with
  | awaitingTimer m attempt backoffMs =>
      rw [htask] at ht
      have hwake : p.system.step edge .wake =
          some (p.systemAt (.applying m attempt (nextBackoff edge backoffMs))) := by
        rw [system, htask]
        rfl
      have hslept : timers ++ (p.system.slept .wake).map (fun x => wasmSleep x.2) = p.timers := by
        rw [ht, system, htask]
        rfl
      obtain ⟨p', done, hret, hstep, htimers, hserved, -⟩ :=
        retryApplyWasm_cases (c := c) edge m attempt (nextBackoff edge backoffMs) p
      have hfire : p.fire edge = if done then applyLoop edge p'.queue p' else p' := by
        rw [fire, htask]
        dsimp only
        rw [hret]
        cases done <;> rfl
      rw [hfire]
      cases done with
      | true =>
          obtain ⟨acts, hacts⟩ := applyLoop_simulated edge p'.queue rfl (hserved hc)
          refine ⟨.wake :: .apply _ :: acts, .cons hwake (.cons hstep ?_)⟩
          rw [hslept]
          simpa [htimers, System.slept] using hacts
      | false =>
          refine ⟨[.wake, .apply _], .cons hwake (.cons hstep ?_)⟩
          rw [hslept]
          exact .refl (by simpa [System.slept] using htimers) (hserved hc)
  | unpolled =>
      refine ⟨[], ?_⟩
      rw [fire, htask]
      exact .refl ht hc
  | awaitingMessage =>
      refine ⟨[], ?_⟩
      rw [fire, htask]
      exact .refl ht hc
  | finished =>
      refine ⟨[], ?_⟩
      rw [fire, htask]
      exact .refl ht hc

/-- One event of a page is a run of the native system. -/
theorem event_simulated {p p' : Page κ} {ev : PageEvent} {timers : List UInt32}
    (h : p.event edge ev = some p') (ht : p.timers = timers ++ p.task.timer)
    (hc : Controller.serveAll c p.calls = some p.controller) :
    ∃ acts, Simulated edge c acts p.system timers p' := by
  cases ev with
  | send m =>
      rw [event] at h
      split at h
      · rename_i halive
        cases h
        have hstopped : p.task.worker = .stopped ↔ p.task = .finished := by
          cases p.task <;> simp [Task.worker]
        have hstep : p.system.step edge (.send m) = some (p.send m).system := by
          simp [System.step, system, systemAt, send, halive, hstopped]
        exact ⟨[.send m], .cons hstep (.refl (by simpa [System.slept, send] using ht) hc)⟩
      · cases h
  | dropEngine =>
      cases h
      have hstep : p.system.step edge .dropEngine =
          some (systemAt { p with senderAlive := false } p.task.worker) := rfl
      exact ⟨[.dropEngine], .cons hstep (.refl (by simpa [System.slept] using ht) hc)⟩
  | poll =>
      cases h
      exact poll_simulated ht hc
  | fire =>
      cases h
      exact fire_simulated ht hc

/-- So is every run of events. -/
theorem events_simulated (evs : List PageEvent) :
    ∀ {p p' : Page κ} {acts : List Action} {s : System}, events edge evs p = some p' →
      Simulated edge c acts s [] p → ∃ acts', Simulated edge c acts' s [] p' := by
  induction evs with
  | nil =>
      intro p p' acts s h hsim
      cases h
      exact ⟨acts, hsim⟩
  | cons ev evs ih =>
      intro p p' acts s h hsim
      obtain ⟨p1, hev, hrest⟩ := Option.bind_eq_some_iff.1 h
      obtain ⟨acts1, hsim1⟩ := event_simulated hev hsim.timers hsim.served
      exact ih hrest (hsim.trans hsim1)

end Page

/-! ## The delays -/

theorem toNat_wasmSleep (ms : UInt64) : (wasmSleep ms).toNat = min ms.toNat (2 ^ 32 - 1) := by
  unfold wasmSleep
  split
  · rename_i hle
    have hle' : ms.toNat ≤ 2 ^ 32 - 1 := UInt64.le_iff_toNat_le.1 hle
    rw [UInt64.toNat_toUInt32]
    omega
  · rename_i hle
    have hgt : 2 ^ 32 - 1 < ms.toNat :=
      Nat.lt_of_not_le fun h => hle (UInt64.le_iff_toNat_le.2 h)
    show 2 ^ 32 - 1 = _
    omega

/-- The delay that the task waits for. -/
def Task.delay : Task → List UInt64
  | .awaitingTimer _ _ backoffMs => [backoffMs]
  | _ => []

theorem Task.timer_eq (t : Task) : t.timer = t.delay.map wasmSleep := by
  cases t <;> rfl

/-- The backoff that the worker has is the first one or at most the cap. -/
def System.Paced (edge : EdgeConfig) (s : System) : Prop :=
  match s.worker with
  | .applying _ _ backoffMs | .sleeping _ _ backoffMs =>
      backoffMs.toNat ≤ max 100 edge.controllerRetryMaxBackoffMs.toNat
  | _ => True

section Paced

variable {edge : EdgeConfig} {s s' : System}

theorem System.Paced.step (h : s.Paced edge) {a : Action} (hs : s.step edge a = some s') :
    s'.Paced edge := by
  unfold System.Paced at h
  cases a with
  | send m =>
      simp only [System.step] at hs
      split at hs
      · cases hs
        exact h
      · cases hs
  | dropEngine =>
      cases hs
      exact h
  | connect answer =>
      simp only [System.step] at hs
      split at hs
      · cases hs
        cases answer <;> trivial
      · cases hs
  | recv =>
      simp only [System.step] at hs
      split at hs
      · cases hs
        exact Nat.le_max_left _ _
      · split at hs
        · cases hs
        · cases hs
          trivial
      · cases hs
  | apply answer =>
      simp only [System.step] at hs
      split at hs
      · rename_i m attempt backoffMs hw
        cases hs
        rw [hw] at h
        unfold System.Paced
        cases retryStep edge attempt answer with
        | done => trivial
        | again attempt' => exact h
      · cases hs
  | wake =>
      simp only [System.step] at hs
      split at hs
      · cases hs
        show (nextBackoff edge _).toNat ≤ _
        rw [toNat_nextBackoff]
        omega
      · cases hs
  | flush =>
      simp only [System.step] at hs
      split at hs
      · cases hs
        trivial
      · cases hs

theorem System.Paced.slept (h : s.Paced edge) (a : Action) :
    ∀ x ∈ s.slept a, x.2.toNat ≤ max 100 edge.controllerRetryMaxBackoffMs.toNat := by
  intro x hx
  unfold System.Paced at h
  cases a with
  | wake =>
      simp only [System.slept] at hx
      split at hx
      · rename_i hw
        rw [hw] at h
        rw [List.mem_singleton.1 hx]
        exact h
      · cases hx
  | _ => cases hx

variable (edge) in
/-- A run from a paced worker sleeps at most the first delay or the cap, and leaves it paced. -/
theorem System.Paced.run (acts : List Action) : ∀ {s : System}, s.Paced edge →
    System.run edge acts s = some s' → s'.Paced edge ∧
      ∀ x ∈ System.sleeps edge acts s,
        x.2.toNat ≤ max 100 edge.controllerRetryMaxBackoffMs.toNat := by
  induction acts with
  | nil =>
      intro s h hr
      cases hr
      exact ⟨h, by simp [System.sleeps]⟩
  | cons a acts ih =>
      intro s h hr
      obtain ⟨s1, hs, hrest⟩ := Option.bind_eq_some_iff.1 hr
      obtain ⟨hpaced, hsleeps⟩ := ih (h.step hs) hrest
      refine ⟨hpaced, fun x hx => ?_⟩
      rw [System.sleeps, hs, Option.map_some, Option.getD_some] at hx
      rcases List.mem_append.1 hx with hx | hx
      · exact h.slept a x hx
      · exact hsleeps x hx

end Paced

/-- Every run of the worker on wasm is a run of the native worker, under the schedule that the event
loop gives it: the channel, the messages taken, the place in the code and the calls with their
answers are the native ones, and the controller has given these answers. The timers are set to the
native delays, cut at the largest that a timer takes; when the configured cap is below that, they
are the native delays. -/
theorem wasm_worker_refines_native {κ : Type} [Controller κ] (edge : EdgeConfig) (c : κ)
    {evs : List PageEvent} {p : Page κ} (h : Page.events edge evs (Page.spawned c) = some p) :
    ∃ acts, System.run edge acts System.spawned = some p.system ∧
      Controller.serveAll c p.calls = some p.controller ∧
      p.timers = ((System.sleeps edge acts System.spawned).map Prod.snd ++ p.task.delay).map
        wasmSleep ∧
      (edge.controllerRetryMaxBackoffMs.toNat < 2 ^ 32 → p.timers.map UInt32.toNat =
        ((System.sleeps edge acts System.spawned).map Prod.snd ++ p.task.delay).map
          UInt64.toNat) := by
  have hstart : Simulated edge c [] System.spawned [] (Page.spawned c) := ⟨rfl, rfl, rfl⟩
  obtain ⟨acts, hsim⟩ := Page.events_simulated evs h hstart
  have htimers : p.timers =
      ((System.sleeps edge acts System.spawned).map Prod.snd ++ p.task.delay).map wasmSleep := by
    rw [hsim.timers, Task.timer_eq, List.map_append, List.map_map]
    rfl
  refine ⟨acts, hsim.run, hsim.served, htimers, fun hcap => ?_⟩
  obtain ⟨hpaced, hsleeps⟩ :=
    System.Paced.run edge (s := System.spawned) acts trivial hsim.run
  rw [htimers, List.map_map]
  refine List.map_congr_left fun d hd => ?_
  rw [Function.comp_apply, toNat_wasmSleep]
  -- every delay is below the cut: the slept ones by the run, and the pending one by its end
  have hle : d.toNat ≤ max 100 edge.controllerRetryMaxBackoffMs.toNat := by
    rcases List.mem_append.1 hd with hd | hd
    · obtain ⟨x, hx, rfl⟩ := List.mem_map.1 hd
      exact hsleeps x hx
    · unfold System.Paced at hpaced
      cases htask : p.task with
      | awaitingTimer m attempt backoffMs =>
          rw [htask] at hd
          rw [Page.system, htask] at hpaced
          rw [List.mem_singleton.1 hd]
          exact hpaced
      | _ =>
          rw [htask] at hd
          cases hd
  omega

/-- A controller that fails on its first call. -/
inductive FailsOnce where
  | down
  | up
deriving DecidableEq

instance : Controller FailsOnce where
  apply
    | .down, _ => (.error (.transient "down"), .up)
    | .up, _ => (.ok (), .up)

/-- The page that waited for one timer, and applied its message when it fired. -/
theorem wasm_retry_refines_native :
    ∃ p acts, Page.events ⟨30000, 2⟩ [.send (numberedMutation 1), .poll, .fire]
        (Page.spawned FailsOnce.down) = some p ∧
      System.run ⟨30000, 2⟩ acts System.spawned = some p.system ∧
      p.timers.map UInt32.toNat =
        ((System.sleeps ⟨30000, 2⟩ acts System.spawned).map Prod.snd ++ p.task.delay).map
          UInt64.toNat := by
  have hevents : (Page.events ⟨30000, 2⟩ [.send (numberedMutation 1), .poll, .fire]
      (Page.spawned FailsOnce.down)).isSome = true := by decide +kernel
  obtain ⟨p, hp⟩ := Option.isSome_iff_exists.1 hevents
  obtain ⟨acts, hrun, -, -, htimers⟩ := wasm_worker_refines_native ⟨30000, 2⟩ FailsOnce.down hp
  exact ⟨p, acts, hp, hrun, htimers (by decide)⟩

end Morceau
