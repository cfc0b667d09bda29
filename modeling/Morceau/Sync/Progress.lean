import Morceau.Sync.Worker

/-!
# The worker drains and stops

The worker is detached: nobody joins it, and the only thing that ends it is the end of its channel.
This file bounds how long it runs after that. With a finite retry budget a message costs at most
`2 * budget` actions, a receive and then an `apply` and a sleep for each attempt but the last, so
once the engine is dropped the worker has only `System.fuel` actions left (`step_fuel`). It is never
stuck before it stops (`exists_step`), so it does stop; and when it stops after a connect that
succeeded, it has moved past every message that was sent (`System.Drained`).
-/

set_option autoImplicit false

namespace Morceau

open Lib

/-- The actions of the worker, as opposed to those of the engine. -/
def Action.ofWorker : Action → Bool
  | .send _ => false
  | .dropEngine => false
  | _ => true

namespace System

/-- What the message that the worker holds may still cost: two actions for each attempt that is
left, but none for the sleep before the one that comes now. -/
def held (budget : Nat) (s : System) : Nat :=
  match s.worker with
  | .applying _ attempt _ => 2 * (budget - attempt.toNat) - 1
  | .sleeping _ attempt _ => 2 * (budget - attempt.toNat)
  | _ => 0

/-- How many actions the worker may still take after the engine was dropped. -/
def fuel (edge : EdgeConfig) (s : System) : Nat :=
  match s.worker with
  | .stopped => 0
  | .flushing => 1
  | .starting => 2 * edge.controllerRetryMaxAttempts.toNat * s.queue.length + 3
  | _ => s.held edge.controllerRetryMaxAttempts.toNat +
      2 * edge.controllerRetryMaxAttempts.toNat * s.queue.length + 2

end System

section Progress

variable {edge : EdgeConfig} {s s' : System}

/-- While the worker holds a message, its attempt counter is below the budget. -/
theorem SystemInv.attempt_lt (h : SystemInv edge s) (hb : 0 < edge.controllerRetryMaxAttempts)
    {m : Mutation} {attempt : UInt32} {backoffMs : UInt64}
    (hw : s.worker = .applying m attempt backoffMs ∨ s.worker = .sleeping m attempt backoffMs) :
    attempt.toNat < edge.controllerRetryMaxAttempts.toNat := by
  have hphase := h.phase
  have hcon : Connected edge s.sent s.received (some (m, attempt)) s.calls := by
    rcases hw with hw | hw
    · simpa only [Phase, hw] using hphase
    · simpa only [Phase, hw] using hphase
  obtain ⟨-, -, -, -, cur, -, -, -, hpend⟩ := hcon
  have hlen := hpend.budget hb
  have hcount := hpend.attempt
  omega

/-- A turn of the retry loop that goes on has an attempt left. -/
theorem retryStep_again_lt {attempt attempt' : UInt32} {a : Answer}
    (hb : 0 < edge.controllerRetryMaxAttempts)
    (hlt : attempt.toNat < edge.controllerRetryMaxAttempts.toNat)
    (h : retryStep edge attempt a = .again attempt') :
    attempt'.toNat = attempt.toNat + 1 ∧
      attempt'.toNat < edge.controllerRetryMaxAttempts.toNat := by
  have hsucc := toNat_saturatingSucc attempt
  have hmax := edge.controllerRetryMaxAttempts.toNat_lt
  rcases a with (reason | reason) | ⟨⟩
  · simp only [retryStep] at h
    split at h
    · cases h
    · rename_i hcond
      cases h
      have hle : ¬ edge.controllerRetryMaxAttempts.toNat ≤ (saturatingSucc attempt).toNat :=
        fun hle => hcond ⟨hb, UInt32.le_iff_toNat_le.2 hle⟩
      omega
  · cases h
  · cases h

/-- Once the engine is dropped, every action of the worker uses up some of its fuel. -/
theorem SystemInv.step_fuel (h : SystemInv edge s) (hb : 0 < edge.controllerRetryMaxAttempts)
    (hdead : s.engineAlive = false) {a : Action} (ha : a.ofWorker = true)
    (hs : s.step edge a = some s') :
    s'.fuel edge < s.fuel edge ∧ s'.engineAlive = false := by
  have hpos : 0 < edge.controllerRetryMaxAttempts.toNat := UInt32.lt_iff_toNat_lt.1 hb
  cases a with
  | send m => cases ha
  | dropEngine => cases ha
  | connect answer =>
      simp only [System.step] at hs
      split at hs
      · rename_i hw
        cases hs
        refine ⟨?_, hdead⟩
        cases answer with
        | ok u =>
            simp only [System.fuel, System.held, hw]
            omega
        | error err =>
            simp only [System.fuel, hw]
            omega
      · cases hs
  | recv =>
      simp only [System.step] at hs
      split at hs
      · -- one message less in the channel pays for all that this one can cost
        rename_i m queue hw hq
        cases hs
        refine ⟨?_, hdead⟩
        simp only [System.fuel, System.held, hw, hq, List.length_cons, Nat.mul_succ]
        rw [show (0 : UInt32).toNat = 0 from rfl]
        omega
      · rename_i hw hq
        rw [hdead] at hs
        cases hs
        refine ⟨?_, rfl⟩
        simp only [System.fuel, System.held, hw]
        omega
      · cases hs
  | apply answer =>
      simp only [System.step] at hs
      split at hs
      · rename_i m attempt backoffMs hw
        have hlt := h.attempt_lt hb (.inl hw)
        cases hs
        refine ⟨?_, hdead⟩
        cases hr : retryStep edge attempt answer with
        | done =>
            simp only [System.fuel, System.held, hw]
            omega
        | again attempt' =>
            obtain ⟨hnext, hleft⟩ := retryStep_again_lt hb hlt hr
            simp only [System.fuel, System.held, hw]
            omega
      · cases hs
  | wake =>
      simp only [System.step] at hs
      split at hs
      · rename_i m attempt backoffMs hw
        have hlt := h.attempt_lt hb (.inr hw)
        cases hs
        refine ⟨?_, hdead⟩
        simp only [System.fuel, System.held, hw]
        omega
      · cases hs
  | flush =>
      simp only [System.step] at hs
      split at hs
      · rename_i hw
        cases hs
        refine ⟨?_, hdead⟩
        simp only [System.fuel, hw]
        omega
      · cases hs

/-- The worker does not send and does not hang up. -/
theorem System.sender_of_worker {a : Action} (ha : a.ofWorker = true)
    (hs : s.step edge a = some s') : s'.sent = s.sent ∧ s'.engineAlive = s.engineAlive := by
  cases a with
  | send m => cases ha
  | dropEngine => cases ha
  | recv =>
      simp only [System.step] at hs
      split at hs
      · cases hs
        exact ⟨rfl, rfl⟩
      · split at hs
        · cases hs
        · cases hs
          exact ⟨rfl, rfl⟩
      · cases hs
  | connect answer | apply answer | wake | flush =>
      simp only [System.step] at hs
      split at hs
      · cases hs
        exact ⟨rfl, rfl⟩
      · cases hs

/-- The actions that the worker takes after the drop are bounded by the fuel at the drop. -/
theorem SystemInv.length_le_fuel (hb : 0 < edge.controllerRetryMaxAttempts) (acts : List Action) :
    ∀ {s : System}, SystemInv edge s → s.engineAlive = false →
      (∀ a ∈ acts, a.ofWorker = true) → System.run edge acts s = some s' →
      acts.length ≤ s.fuel edge ∧ s'.engineAlive = false ∧ s'.sent = s.sent := by
  induction acts with
  | nil =>
      intro s _ hdead _ hr
      cases hr
      exact ⟨Nat.zero_le _, hdead, rfl⟩
  | cons a acts ih =>
      intro s h hdead hacts hr
      obtain ⟨s1, hs, hrest⟩ := Option.bind_eq_some_iff.1 hr
      obtain ⟨ha, hacts⟩ := List.forall_mem_cons.1 hacts
      obtain ⟨hlt, hdead1⟩ := h.step_fuel hb hdead ha hs
      obtain ⟨hle, hdead', hsent⟩ := ih (h.step hs) hdead1 hacts hrest
      rw [List.length_cons]
      exact ⟨by omega, hdead', hsent.trans (System.sender_of_worker ha hs).1⟩

/-- The fuel in terms of the messages that the worker has not moved past yet. -/
theorem SystemInv.fuel_le (h : SystemInv edge s) :
    s.fuel edge ≤
      2 * edge.controllerRetryMaxAttempts.toNat * (s.sent.length - s.passed) + 3 := by
  have hphase := h.phase
  have hlen : s.worker ≠ .stopped → s.queue.length = s.sent.length - s.received := by
    intro hw
    rw [h.queue hw, List.length_drop]
  -- a message that is held was received, and is not passed yet
  have hheld : ∀ {m attempt}, Connected edge s.sent s.received (some (m, attempt)) s.calls →
      s.queue.length = s.sent.length - s.received →
      s.sent.length - (s.received - 1) = s.queue.length + 1 := by
    rintro m attempt ⟨done, -, -, -, cur, -, hrec, -, -⟩ hq
    have hle := h.received
    omega
  cases hw : s.worker with
  | stopped => simp [System.fuel, hw]
  | flushing => simp [System.fuel, hw]
  | starting =>
      simp only [Phase, hw] at hphase
      simp only [System.fuel, System.passed, hw, hlen (by simp [hw])]
      omega
  | receiving =>
      simp only [System.fuel, System.held, System.passed, hw, hlen (by simp [hw])]
      omega
  | applying m attempt backoffMs =>
      simp only [Phase, hw] at hphase
      have hone := hheld hphase (hlen (by simp [hw]))
      simp only [System.fuel, System.held, System.passed, hw, hone, Nat.mul_succ]
      omega
  | sleeping m attempt backoffMs =>
      simp only [Phase, hw] at hphase
      have hone := hheld hphase (hlen (by simp [hw]))
      simp only [System.fuel, System.held, System.passed, hw, hone, Nat.mul_succ]
      omega

/-- Once the engine is dropped, the worker waits for nobody: until it stops it can take an action,
and where the action is a call of the controller, it can take it with every answer. -/
theorem System.exists_step (edge : EdgeConfig) (hdead : s.engineAlive = false)
    (hw : s.worker ≠ .stopped) (answer : Answer) :
    ∃ a, a.ofWorker = true ∧ (∀ x, a = .connect x ∨ a = .apply x → x = answer) ∧
      (s.step edge a).isSome = true := by
  cases hwk : s.worker with
  | starting => exact ⟨.connect answer, rfl, by simp, by simp [step, hwk]⟩
  | receiving =>
      refine ⟨.recv, rfl, by simp, ?_⟩
      cases hq : s.queue with
      | nil => simp [step, hwk, hq, hdead]
      | cons m queue => simp [step, hwk, hq]
  | applying m attempt backoffMs => exact ⟨.apply answer, rfl, by simp, by simp [step, hwk]⟩
  | sleeping m attempt backoffMs => exact ⟨.wake, rfl, by simp, by simp [step, hwk]⟩
  | flushing => exact ⟨.flush, rfl, by simp, by simp [step, hwk]⟩
  | stopped => exact absurd hwk hw

/-! ## What a stopped worker has done -/

/-- A worker that connected and left its loop has moved past everything that was or will be sent.
-/
def System.Drained (s : System) : Prop :=
  (s.worker = .flushing ∨ s.worker = .stopped) → .connect (.ok ()) ∈ s.calls →
    s.engineAlive = false ∧ s.received = s.sent.length

theorem System.Drained.step (h : s.Drained) (hinv : SystemInv edge s) {a : Action}
    (hs : s.step edge a = some s') : s'.Drained := by
  intro hw' hmem
  cases a with
  | send m =>
      -- a sender that is alive is a loop that is not left
      simp only [System.step] at hs
      split at hs
      · rename_i halive
        cases hs
        exact absurd (h hw' hmem).1 (by simp [halive])
      · cases hs
  | dropEngine =>
      cases hs
      exact ⟨rfl, (h hw' hmem).2⟩
  | connect answer =>
      simp only [System.step] at hs
      split at hs
      · rename_i hw
        have hphase := hinv.phase
        simp only [Phase, hw] at hphase
        cases hs
        cases answer with
        | ok u => simp at hw'
        | error err => simp [hphase.2] at hmem
      · cases hs
  | recv =>
      simp only [System.step] at hs
      split at hs
      · cases hs
        simp at hw'
      · -- the loop is left with an empty channel that nobody can send to
        rename_i hw hq
        split at hs
        · cases hs
        · rename_i hdead
          cases hs
          refine ⟨by simpa using hdead, ?_⟩
          have hdrop := hinv.queue (by simp [hw])
          rw [hq] at hdrop
          have hle := List.drop_eq_nil_iff.1 hdrop.symm
          have hrec := hinv.received
          show s.received = s.sent.length
          omega
      · cases hs
  | apply answer =>
      simp only [System.step] at hs
      split at hs
      · rename_i m attempt backoffMs hw
        cases hs
        cases hr : retryStep edge attempt answer <;> simp [hr] at hw'
      · cases hs
  | wake =>
      simp only [System.step] at hs
      split at hs
      · cases hs
        simp at hw'
      · cases hs
  | flush =>
      simp only [System.step] at hs
      split at hs
      · rename_i hw
        cases hs
        simp only [List.mem_append, List.mem_singleton, reduceCtorEq, or_false] at hmem
        exact h (.inl hw) hmem
      · cases hs

theorem System.Drained.run (acts : List Action) : ∀ {s : System}, s.Drained → SystemInv edge s →
    System.run edge acts s = some s' → s'.Drained := by
  induction acts with
  | nil =>
      intro s h _ hr
      cases hr
      exact h
  | cons a acts ih =>
      intro s h hinv hr
      obtain ⟨s1, hs, hrest⟩ := Option.bind_eq_some_iff.1 hr
      exact ih (h.step hinv hs) (hinv.step hs) hrest

theorem System.drained_spawned : System.spawned.Drained := by
  intro hw
  simp [System.spawned] at hw

/-- A worker that stopped after a connect that succeeded has presented every message that was sent,
in order, and has moved past each of them. -/
theorem SystemInv.delivered (hinv : SystemInv edge s) (hd : s.Drained) (hw : s.worker = .stopped)
    (hcon : .connect (.ok ()) ∈ s.calls) :
    collapse (applies s.calls) = s.sent.zipIdx ∧
      ∀ i < s.sent.length, Passed edge (answersTo i (applies s.calls)) := by
  obtain ⟨-, hrec⟩ := hd (.inr hw) hcon
  obtain ⟨ass, opening, closing, ho⟩ := hinv.outline
  have hpassed : s.passed = s.sent.length := by simp only [System.passed, hw, hrec]
  -- there is a block for every message
  have hlen : ass.length = s.sent.length := by
    refine le_antisymm ho.length ?_
    by_contra hlt
    obtain ⟨as, has, -⟩ := ho.passed ass.length (by omega)
    simp at has
  refine ⟨?_, fun i hi => ?_⟩
  · rw [ho.applies_eq, collapse_blocks ass 0 s.sent (fun as has => (ho.block as has).1) ho.length,
      hlen, List.take_length]
  · obtain ⟨as, has, hp⟩ := ho.passed i (by omega)
    rw [ho.applies_eq, ← Nat.zero_add i, answersTo_blocks ass 0 s.sent i ho.length has]
    exact hp

end Progress

/-- Dropping the engine ends the worker, whatever the controller answers. With a finite retry budget
the worker takes at most two actions for each attempt of each message that it has not moved past,
and three more; until it stops it is never stuck; and when it stops after a connect that succeeded,
every message that was ever sent has been presented in order and answered to the end. -/
theorem worker_drains {edge : EdgeConfig} (hb : 0 < edge.controllerRetryMaxAttempts)
    {acts : List Action} {s : System} (h : System.run edge acts System.spawned = some s)
    (hdead : s.engineAlive = false) {acts' : List Action} {s' : System}
    (hacts : ∀ a ∈ acts', a.ofWorker = true) (hr : System.run edge acts' s = some s') :
    acts'.length ≤
        2 * edge.controllerRetryMaxAttempts.toNat * (s.sent.length - s.passed) + 3 ∧
      (s'.worker ≠ .stopped → ∀ answer, ∃ a, a.ofWorker = true ∧
        (∀ x, a = .connect x ∨ a = .apply x → x = answer) ∧ (s'.step edge a).isSome = true) ∧
      (s'.worker = .stopped → .connect (.ok ()) ∈ s'.calls →
        collapse (applies s'.calls) = s.sent.zipIdx ∧
          ∀ i < s.sent.length, Passed edge (answersTo i (applies s'.calls))) := by
  have hinv := (SystemInv.spawned edge).run acts h
  have hdrained := System.drained_spawned.run acts (SystemInv.spawned edge) h
  obtain ⟨hle, hdead', hsent⟩ := SystemInv.length_le_fuel hb acts' hinv hdead hacts hr
  refine ⟨hle.trans hinv.fuel_le, System.exists_step edge hdead', fun hw hcon => ?_⟩
  rw [← hsent]
  exact (hinv.run acts' hr).delivered (hdrained.run acts' hinv hr) hw hcon

/-- The run of two messages, up to the drop of the engine and after it. -/
theorem worker_drains_of_retryRun :
    ∃ s s', System.run ⟨30000, 2⟩ (retryRun.take 10) System.spawned = some s ∧
      System.run ⟨30000, 2⟩ (retryRun.drop 10) s = some s' ∧ s'.worker = .stopped ∧
      collapse (applies s'.calls) = s.sent.zipIdx := by
  have hfirst : (System.run ⟨30000, 2⟩ (retryRun.take 10) System.spawned).map
      System.engineAlive = some false := by decide +kernel
  obtain ⟨s, hs, hdead⟩ := Option.map_eq_some_iff.1 hfirst
  have hrest : ((System.run ⟨30000, 2⟩ (retryRun.take 10) System.spawned).bind
      (System.run ⟨30000, 2⟩ (retryRun.drop 10))).map
        (fun s' => (s'.worker, s'.calls.contains (.connect (.ok ())))) =
      some (.stopped, true) := by decide +kernel
  rw [hs] at hrest
  obtain ⟨s', hs', hend⟩ := Option.map_eq_some_iff.1 hrest
  obtain ⟨hw, hcon⟩ := Prod.mk.inj hend
  obtain ⟨-, -, hdone⟩ := worker_drains (by decide) hs hdead (by decide) hs'
  exact ⟨s, s', hs, hs', hw, (hdone hw (List.contains_iff_mem.1 hcon)).1⟩

end Morceau
