import Morceau.Sync.Worker

/-!
# Backoff

The delays that the retry loop of `worker.rs` sleeps between two calls of `Controller::apply` for
one mutation. The loop sleeps once for each transient answer before another one, as far as the
budget of attempts goes (`length_retryDelays`). It starts at 100 ms and takes the minimum with the
configured cap only after a sleep, so the cap holds from the second delay on
(`retryDelays_getElem`), and for the first one exactly when it is not below 100 ms.

The delays of a run of the whole worker are those of the loop, message by message (`run_sleeps`).
-/

set_option autoImplicit false

namespace Morceau

open Lib

/-- The delays slept by the loop of `retry_apply_native` from its counters on, when the controller
gives these answers. -/
def retryDelays (edge : EdgeConfig) : UInt32 → UInt64 → List Answer → List UInt64
  | _, _, [] => []
  | attempt, backoffMs, answer :: answers =>
      match retryStep edge attempt answer with
      | .done => []
      | .again attempt' =>
          backoffMs :: retryDelays edge attempt' (nextBackoff edge backoffMs) answers

/-- `retry_apply_native`: the delays slept for one mutation. -/
def retryApplyNative (edge : EdgeConfig) (answers : List Answer) : List UInt64 :=
  retryDelays edge 0 100 answers

section Delays

variable {edge : EdgeConfig}

theorem toNat_min (x y : UInt64) : (min x y).toNat = min x.toNat y.toNat := by
  rw [show min x y = if x ≤ y then x else y from rfl]
  split
  · rename_i hle
    have := UInt64.le_iff_toNat_le.1 hle
    omega
  · rename_i hle
    rw [UInt64.le_iff_toNat_le] at hle
    omega

/-- Doubling saturates above every cap. -/
theorem toNat_nextBackoff (edge : EdgeConfig) (backoffMs : UInt64) :
    (nextBackoff edge backoffMs).toNat =
      min (backoffMs.toNat * 2) edge.controllerRetryMaxBackoffMs.toNat := by
  have hcap := edge.controllerRetryMaxBackoffMs.toNat_lt
  rw [nextBackoff, toNat_min]
  split
  · rename_i hlt
    rw [UInt64.toNat_mul]
    show min (backoffMs.toNat * 2 % 2 ^ 64) _ = _
    rw [Nat.mod_eq_of_lt hlt]
  · -- the product is saturated at the largest number, which no cap exceeds
    show min (2 ^ 64 - 1) _ = _
    omega

/-- Doubling a backoff that is at the cap stays at the cap. -/
theorem min_doubled (backoff cap i : Nat) :
    (if i = 0 then min (backoff * 2) cap else min (min (backoff * 2) cap * 2 ^ i) cap) =
      min (backoff * 2 ^ (i + 1)) cap := by
  have hpow : 2 ^ (i + 1) = 2 * 2 ^ i := Nat.pow_succ'
  rw [hpow, ← Nat.mul_assoc]
  split
  · rename_i hzero
    rw [hzero, Nat.pow_zero, Nat.mul_one]
  · rcases Nat.le_total (backoff * 2) cap with hle | hle
    · rw [Nat.min_eq_left hle]
    · have hone := Nat.one_le_two_pow (n := i)
      rw [Nat.min_eq_right hle, Nat.min_eq_right (Nat.le_mul_of_pos_right _ hone),
        Nat.min_eq_right (hle.trans (Nat.le_mul_of_pos_right _ hone))]

/-- The first delay is the backoff that the loop has; from then on the delays double up to the cap.
-/
theorem retryDelays_getElem (answers : List Answer) :
    ∀ {attempt : UInt32} {backoffMs d : UInt64} {i : Nat},
      (retryDelays edge attempt backoffMs answers)[i]? = some d →
      d.toNat = if i = 0 then backoffMs.toNat
        else min (backoffMs.toNat * 2 ^ i) edge.controllerRetryMaxBackoffMs.toNat := by
  induction answers with
  | nil =>
      intro attempt backoffMs d i h
      cases h
  | cons answer answers ih =>
      intro attempt backoffMs d i h
      rw [retryDelays] at h
      cases hr : retryStep edge attempt answer with
      | done =>
          rw [hr] at h
          cases h
      | again attempt' =>
          rw [hr] at h
          cases i with
          | zero =>
              cases h
              rfl
          | succ i =>
              -- the rest of the loop starts from the doubled backoff, cut at the cap
              have hd := ih (List.getElem?_cons_succ.symm.trans h)
              rw [toNat_nextBackoff, min_doubled] at hd
              rw [hd, if_neg (Nat.succ_ne_zero i)]

/-- The sleeps that `left` further attempts allow: one for each transient answer before another one.
-/
def transientWithin (left : Option Nat) (answers : List Answer) : Nat :=
  match left with
  | none => (answers.takeWhile Answer.isTransient).length
  | some n => min (answers.takeWhile Answer.isTransient).length n

/-- The sleeps that the configuration allows from an attempt on: no bound for a budget of zero, and
otherwise the last attempt of the budget is not slept after. -/
def EdgeConfig.sleepsLeft (edge : EdgeConfig) (attempt : Nat) : Option Nat :=
  if edge.controllerRetryMaxAttempts = 0 then none
  else some (edge.controllerRetryMaxAttempts.toNat - 1 - attempt)

theorem transientWithin_cons_of_not {answer : Answer} (h : answer.isTransient = false)
    (left : Option Nat) (answers : List Answer) : transientWithin left (answer :: answers) = 0 := by
  have hnil : (answer :: answers).takeWhile Answer.isTransient = [] :=
    List.takeWhile_cons_of_neg (by simp [h])
  cases left with
  | none => rw [transientWithin, hnil, List.length_nil]
  | some n => rw [transientWithin, hnil, List.length_nil, Nat.zero_min]

/-- The attempts after a transient answer: the budget is used up, or there is one sleep more. -/
theorem retryStep_transient (edge : EdgeConfig) (attempt : UInt32) (reason : String) :
    (retryStep edge attempt (.error (.transient reason)) = .done ∧
        edge.sleepsLeft attempt.toNat = some 0) ∨
      ∃ attempt', retryStep edge attempt (.error (.transient reason)) = .again attempt' ∧
        edge.sleepsLeft attempt.toNat = (edge.sleepsLeft attempt'.toNat).map Nat.succ := by
  have hmax := edge.controllerRetryMaxAttempts.toNat_lt
  have hpos : 0 < edge.controllerRetryMaxAttempts ↔ edge.controllerRetryMaxAttempts ≠ 0 := by
    rw [UInt32.lt_iff_toNat_lt, Ne, ← UInt32.toNat_inj]
    exact Nat.pos_iff_ne_zero
  -- the counter of attempts, as a number, up to where it saturates
  have hsucc : (saturatingSucc attempt).toNat = min (attempt.toNat + 1) (2 ^ 32 - 1) := by
    have hlt := attempt.toNat_lt
    unfold saturatingSucc
    split
    · rename_i heq
      rw [heq]
      rfl
    · rename_i hne
      have hne : attempt.toNat ≠ 2 ^ 32 - 1 := fun heq => hne (UInt32.toNat_inj.1 heq)
      rw [UInt32.toNat_add, UInt32.toNat_one, Nat.mod_eq_of_lt (by omega)]
      omega
  have hlast : edge.controllerRetryMaxAttempts ≤ saturatingSucc attempt ↔
      edge.controllerRetryMaxAttempts.toNat ≤ min (attempt.toNat + 1) (2 ^ 32 - 1) := by
    rw [UInt32.le_iff_toNat_le, hsucc]
  rw [retryStep]
  by_cases hzero : edge.controllerRetryMaxAttempts = 0
  · -- a budget of zero is no budget
    refine .inr ⟨_, if_neg fun h => hpos.1 h.1 hzero, ?_⟩
    rw [EdgeConfig.sleepsLeft, EdgeConfig.sleepsLeft, if_pos hzero, if_pos hzero, Option.map_none]
  · rw [EdgeConfig.sleepsLeft, if_neg hzero]
    by_cases hle : edge.controllerRetryMaxAttempts.toNat ≤ min (attempt.toNat + 1) (2 ^ 32 - 1)
    · exact .inl ⟨if_pos ⟨hpos.2 hzero, hlast.2 hle⟩, congrArg some (by omega)⟩
    · refine .inr ⟨_, if_neg fun h => hle (hlast.1 h.2), ?_⟩
      rw [EdgeConfig.sleepsLeft, if_neg hzero, hsucc, Option.map_some]
      exact congrArg some (by omega)

/-- How often the loop sleeps. -/
theorem length_retryDelays (answers : List Answer) :
    ∀ (attempt : UInt32) (backoffMs : UInt64),
      (retryDelays edge attempt backoffMs answers).length =
        transientWithin (edge.sleepsLeft attempt.toNat) answers := by
  induction answers with
  | nil =>
      intro attempt backoffMs
      cases edge.sleepsLeft attempt.toNat with
      | none => rfl
      | some n => exact (Nat.zero_min n).symm
  | cons answer answers ih =>
      intro attempt backoffMs
      rw [retryDelays]
      rcases answer with (reason | reason) | u
      -- only a transient answer keeps the loop going
      · have htransient : (Except.error (.transient reason) :: answers).takeWhile
            Answer.isTransient = .error (.transient reason) ::
              answers.takeWhile Answer.isTransient := rfl
        rcases retryStep_transient edge attempt reason with ⟨hstep, hleft⟩ | ⟨next, hstep, hleft⟩
        · rw [hstep, hleft, transientWithin, Nat.min_zero]
          rfl
        · rw [hstep, hleft]
          simp only [List.length_cons]
          rw [ih next (nextBackoff edge backoffMs)]
          cases edge.sleepsLeft next.toNat with
          | none => rw [Option.map_none, transientWithin, transientWithin, htransient,
              List.length_cons]
          | some n =>
              rw [Option.map_some, transientWithin, transientWithin, htransient, List.length_cons]
              exact (Nat.succ_min_succ _ _).symm
      · rw [transientWithin_cons_of_not rfl]
        rfl
      · rw [transientWithin_cons_of_not rfl]
        rfl

/-- The delays, as numbers, keep to the cap: each is at most the cap, they do not decrease, and the
`i`-th, counted from zero, is the minimum of `100 * 2 ^ i` and the cap. -/
structure Capped (edge : EdgeConfig) (delays : List Nat) : Prop where
  le : ∀ d ∈ delays, d ≤ edge.controllerRetryMaxBackoffMs.toNat
  sorted : delays.Pairwise fun d d' => d ≤ d'
  exact : ∀ i d, delays[i]? = some d → d = min (100 * 2 ^ i) edge.controllerRetryMaxBackoffMs.toNat

/-- Delays that are given by the formula keep to the cap. -/
theorem Capped.of_exact {delays : List Nat} (h : ∀ i d, delays[i]? = some d →
    d = min (100 * 2 ^ i) edge.controllerRetryMaxBackoffMs.toNat) : Capped edge delays := by
  refine ⟨fun d hd => ?_, ?_, h⟩
  · obtain ⟨i, hi⟩ := List.mem_iff_getElem?.1 hd
    rw [h i d hi]
    exact Nat.min_le_right _ _
  · rw [List.pairwise_iff_getElem]
    intro i j hi hj hij
    rw [h i _ (List.getElem?_eq_getElem hi), h j _ (List.getElem?_eq_getElem hj)]
    have hpow : 2 ^ i ≤ 2 ^ j := Nat.pow_le_pow_right (by decide) hij.le
    omega

/-- The loop sleeps at all: the first answer is transient, and the budget is not one attempt. -/
theorem transientWithin_eq_zero_iff (edge : EdgeConfig) (answers : List Answer) :
    transientWithin (edge.sleepsLeft 0) answers = 0 ↔
      (∀ answer, answers.head? = some answer → answer.isTransient = false) ∨
        edge.controllerRetryMaxAttempts = 1 := by
  have hone : edge.controllerRetryMaxAttempts = 1 ↔
      edge.controllerRetryMaxAttempts.toNat = 1 := UInt32.toNat_inj.symm
  have hzero : edge.controllerRetryMaxAttempts = 0 ↔
      edge.controllerRetryMaxAttempts.toNat = 0 := UInt32.toNat_inj.symm
  have hhead : (answers.takeWhile Answer.isTransient).length = 0 ↔
      ∀ answer, answers.head? = some answer → answer.isTransient = false := by
    cases answers with
    | nil => simp
    | cons answer answers => cases h : answer.isTransient <;> simp [h]
  rw [← hhead, hone, EdgeConfig.sleepsLeft]
  split
  · rename_i hmax
    rw [hzero] at hmax
    simp only [transientWithin]
    omega
  · rename_i hmax
    rw [hzero] at hmax
    simp only [transientWithin]
    omega

/-- What the loop sleeps, and when it keeps to the cap. It sleeps once for each transient answer
that comes before another one, but not after the last attempt of the budget; first for 100 ms, and
then for the doubled delay up to the cap. So the delays keep to the cap exactly if it is at least
100 ms, or the first answer is not transient, or the budget is one attempt. -/
theorem retry_delays_capped_iff (edge : EdgeConfig) (answers : List Answer) :
    (retryApplyNative edge answers).length =
        transientWithin (edge.sleepsLeft 0) answers ∧
      (∀ i d, (retryApplyNative edge answers)[i]? = some d →
        d.toNat = if i = 0 then 100
          else min (100 * 2 ^ i) edge.controllerRetryMaxBackoffMs.toNat) ∧
      (Capped edge ((retryApplyNative edge answers).map UInt64.toNat) ↔
        100 ≤ edge.controllerRetryMaxBackoffMs.toNat ∨
          (∀ answer, answers.head? = some answer → answer.isTransient = false) ∨
          edge.controllerRetryMaxAttempts = 1) := by
  have hlength : (retryApplyNative edge answers).length =
      transientWithin (edge.sleepsLeft 0) answers := length_retryDelays answers 0 100
  have hformula : ∀ i d, (retryApplyNative edge answers)[i]? = some d →
      d.toNat = if i = 0 then 100
        else min (100 * 2 ^ i) edge.controllerRetryMaxBackoffMs.toNat :=
    fun i d h => retryDelays_getElem answers h
  refine ⟨hlength, hformula, ?_⟩
  rw [← transientWithin_eq_zero_iff, ← hlength, List.length_eq_zero_iff]
  refine ⟨fun hcapped => ?_, fun hcap => ?_⟩
  · cases hdelays : retryApplyNative edge answers with
    | nil => exact .inr rfl
    | cons d ds =>
        -- there is a first delay, and it does not look at the cap
        left
        have hfirst := hformula 0 d (by rw [hdelays]; rfl)
        rw [if_pos rfl] at hfirst
        have hle := hcapped.le d.toNat (by rw [hdelays]; exact List.mem_cons_self)
        omega
  · refine Capped.of_exact fun i d hd => ?_
    rw [List.getElem?_map, Option.map_eq_some_iff] at hd
    obtain ⟨d, hd, rfl⟩ := hd
    rw [hformula i d hd]
    rcases hcap with hcap | hnil
    · split
      · rename_i hzero
        rw [hzero]
        omega
      · rfl
    · rw [hnil] at hd
      cases hd

/-- The cap of the retry test, 50 ms: the first delay is 100 ms, and the second one is less. -/
theorem retry_delays_cap_50 :
    retryApplyNative ⟨50, 3⟩ [.error (.transient "down"), .error (.transient "down"), .ok ()] =
        [100, 50] ∧
      ¬Capped ⟨50, 3⟩ ((retryApplyNative ⟨50, 3⟩
        [.error (.transient "down"), .error (.transient "down"), .ok ()]).map UInt64.toNat) := by
  have hdelays : retryApplyNative ⟨50, 3⟩
      [.error (.transient "down"), .error (.transient "down"), .ok ()] = [100, 50] := by decide
  refine ⟨hdelays, fun hcapped => ?_⟩
  rw [hdelays] at hcapped
  exact absurd (hcapped.le 100 (by decide)) (by decide)

end Delays

/-! ## The delays of a run -/

/-- The sleep that an action ends, with the number of its message. -/
def System.slept (s : System) : Action → List (Nat × UInt64)
  | .wake =>
      match s.worker with
      | .sleeping _ _ backoffMs => [(s.received - 1, backoffMs)]
      | _ => []
  | _ => []

/-- The sleeps of a run. -/
def System.sleeps (edge : EdgeConfig) : List Action → System → List (Nat × UInt64)
  | [], _ => []
  | a :: acts, s => s.slept a ++ ((s.step edge a).map (sleeps edge acts)).getD []

/-- The delays slept for one message. -/
def delaysFor (i : Nat) (sleeps : List (Nat × UInt64)) : List UInt64 :=
  sleeps.filterMap fun x => if x.1 = i then some x.2 else none

/-- What the loop sleeps for a message from here on, when the controller gives these answers. A
message that was not received has all of its loop ahead, and one that was passed has nothing. -/
def System.ahead (edge : EdgeConfig) (s : System) (i : Nat) (more : List Answer) : List UInt64 :=
  if s.received ≤ i then retryDelays edge 0 100 more
  else if i + 1 < s.received then []
  else match s.worker with
    | .applying _ attempt backoffMs => retryDelays edge attempt backoffMs more
    | .sleeping _ attempt backoffMs =>
        backoffMs :: retryDelays edge attempt (nextBackoff edge backoffMs) more
    | _ => []

/-- The sleeps so far and those ahead are the ones of the loop. -/
def OnSchedule (edge : EdgeConfig) (s : System) (slept : List (Nat × UInt64)) : Prop :=
  ∀ i more, retryDelays edge 0 100 (answersTo i (applies s.calls) ++ more) =
    delaysFor i slept ++ s.ahead edge i more

section Runs

variable {edge : EdgeConfig} {s s' : System} {slept : List (Nat × UInt64)}

theorem OnSchedule.spawned (edge : EdgeConfig) : OnSchedule edge System.spawned [] :=
  fun _ _ => rfl

/-- An action that does not touch the current message. -/
theorem OnSchedule.of_eq (h : OnSchedule edge s slept) (hcalls : applies s'.calls = applies s.calls)
    (hahead : ∀ i more, s'.ahead edge i more = s.ahead edge i more) : OnSchedule edge s' slept := by
  intro i more
  rw [hcalls, hahead]
  exact h i more

/-- A worker that holds no message. -/
theorem ahead_of_idle (hw : s.worker = .starting ∨ s.worker = .receiving ∨ s.worker = .flushing ∨
    s.worker = .stopped) (i : Nat) (more : List Answer) :
    s.ahead edge i more = if s.received ≤ i then retryDelays edge 0 100 more else [] := by
  rw [System.ahead]
  rcases hw with hw | hw | hw | hw <;> simp only [hw, ite_self]

theorem OnSchedule.connect (h : OnSchedule edge s slept) {answer : Answer}
    (hs : s.step edge (.connect answer) = some s') : OnSchedule edge s' slept := by
  simp only [System.step] at hs
  split at hs
  · rename_i hw
    cases hs
    refine h.of_eq ?_ fun i more => ?_
    · rw [applies_append]
      exact List.append_nil _
    · rw [ahead_of_idle (.inl hw)]
      cases answer with
      | ok u => exact ahead_of_idle (.inr (.inl rfl)) i more
      | error err => exact ahead_of_idle (.inr (.inr (.inl rfl))) i more
  · cases hs

/-- The next message has its whole loop ahead, and the one before it was passed. -/
theorem OnSchedule.recv (h : OnSchedule edge s slept) (hs : s.step edge .recv = some s') :
    OnSchedule edge s' slept := by
  simp only [System.step] at hs
  split at hs
  · rename_i m queue hw hq
    cases hs
    refine h.of_eq rfl fun i more => ?_
    rw [ahead_of_idle (.inr (.inl hw))]
    simp only [System.ahead]
    by_cases hlt : s.received ≤ i
    · rw [if_pos hlt]
      split
      · rfl
      · rw [if_neg (by omega)]
    · rw [if_neg hlt, if_neg (by omega), if_pos (by omega)]
  · -- the queue is empty: the worker waits, or flushes if the engine is gone
    rename_i hw hq
    split at hs
    · cases hs
    · cases hs
      refine h.of_eq rfl fun i more => ?_
      rw [ahead_of_idle (.inr (.inl hw))]
      exact ahead_of_idle (.inr (.inr (.inl rfl))) i more
  · cases hs

/-- An answer is taken from the head of those ahead. -/
theorem OnSchedule.apply (h : OnSchedule edge s slept) (hinv : SystemInv edge s) {answer : Answer}
    (hs : s.step edge (.apply answer) = some s') : OnSchedule edge s' slept := by
  simp only [System.step] at hs
  split at hs
  · rename_i m attempt backoffMs hw
    have hphase := hinv.phase
    simp only [Phase, hw] at hphase
    obtain ⟨done, -, -, -, -, -, hrec, -⟩ := hphase
    cases hs
    intro i more
    have happlies : applies (s.calls ++ [.apply (s.received - 1) m answer]) =
        applies s.calls ++ [(s.received - 1, m, answer)] := applies_append _ _
    rw [happlies, answersTo_append]
    by_cases hi : i + 1 = s.received
    · -- the message that the worker holds
      have hans : answersTo i [(s.received - 1, m, answer)] = [answer] := by
        rw [show s.received - 1 = i by omega]
        exact answersTo_block i m [answer]
      have hold := h i (answer :: more)
      rw [hans, List.append_assoc, List.singleton_append, hold]
      congr 1
      simp only [System.ahead, hw]
      rw [if_neg (by omega), if_neg (by omega), if_neg (by omega), if_neg (by omega), retryDelays]
      cases retryStep edge attempt answer <;> rfl
    · -- another message got no answer here
      have hans : answersTo i [(s.received - 1, m, answer)] = [] := by
        refine answersTo_eq_nil fun x hx => ?_
        rw [List.mem_singleton.1 hx]
        show s.received - 1 ≠ i
        omega
      have hold := h i more
      rw [hans, List.append_nil, hold]
      congr 1
      simp only [System.ahead]
      by_cases hlt : s.received ≤ i
      · rw [if_pos hlt, if_pos hlt]
      · rw [if_neg hlt, if_neg hlt, if_pos (by omega), if_pos (by omega)]
  · cases hs

/-- A sleep that ends is moved from what is ahead to what was slept. -/
theorem OnSchedule.wake (h : OnSchedule edge s slept) (hinv : SystemInv edge s)
    (hs : s.step edge .wake = some s') : OnSchedule edge s' (slept ++ s.slept .wake) := by
  simp only [System.step] at hs
  split at hs
  · rename_i m attempt backoffMs hw
    have hphase := hinv.phase
    simp only [Phase, hw] at hphase
    obtain ⟨done, -, -, -, -, -, hrec, -⟩ := hphase
    cases hs
    intro i more
    have hslept : s.slept .wake = [(s.received - 1, backoffMs)] := by
      simp only [System.slept, hw]
    have hold := h i more
    rw [hold, hslept, delaysFor, delaysFor, List.filterMap_append, List.append_assoc]
    congr 1
    simp only [System.ahead, hw]
    by_cases hi : i + 1 = s.received
    · rw [if_neg (by omega), if_neg (by omega), if_neg (by omega), if_neg (by omega)]
      simp [show s.received - 1 = i by omega]
    · by_cases hlt : s.received ≤ i
      · simp [hlt, show s.received - 1 ≠ i by omega]
      · simp [hlt, show s.received - 1 ≠ i by omega, show i + 1 < s.received by omega]
  · cases hs

theorem OnSchedule.flush (h : OnSchedule edge s slept) (hs : s.step edge .flush = some s') :
    OnSchedule edge s' slept := by
  simp only [System.step] at hs
  split at hs
  · rename_i hw
    cases hs
    refine h.of_eq ?_ fun i more => ?_
    · rw [applies_append]
      exact List.append_nil _
    · rw [ahead_of_idle (.inr (.inr (.inl hw)))]
      exact ahead_of_idle (.inr (.inr (.inr rfl))) i more
  · cases hs

theorem OnSchedule.step (h : OnSchedule edge s slept) (hinv : SystemInv edge s) {a : Action}
    (hs : s.step edge a = some s') : OnSchedule edge s' (slept ++ s.slept a) := by
  cases a with
  | send m =>
      rw [show s.slept (.send m) = [] from rfl, List.append_nil]
      simp only [System.step] at hs
      split at hs
      · cases hs
        exact h.of_eq rfl fun _ _ => rfl
      · cases hs
  | dropEngine =>
      rw [show s.slept .dropEngine = [] from rfl, List.append_nil]
      cases hs
      exact h.of_eq rfl fun _ _ => rfl
  | connect answer =>
      rw [show s.slept (.connect answer) = [] from rfl, List.append_nil]
      exact h.connect hs
  | recv =>
      rw [show s.slept .recv = [] from rfl, List.append_nil]
      exact h.recv hs
  | apply answer =>
      rw [show s.slept (.apply answer) = [] from rfl, List.append_nil]
      exact h.apply hinv hs
  | wake => exact h.wake hinv hs
  | flush =>
      rw [show s.slept .flush = [] from rfl, List.append_nil]
      exact h.flush hs

theorem OnSchedule.run (acts : List Action) : ∀ {s : System} {slept : List (Nat × UInt64)},
    OnSchedule edge s slept → SystemInv edge s → System.run edge acts s = some s' →
      OnSchedule edge s' (slept ++ System.sleeps edge acts s) := by
  induction acts with
  | nil =>
      intro s slept h hinv hr
      cases hr
      rwa [System.sleeps, List.append_nil]
  | cons a acts ih =>
      intro s slept h hinv hr
      obtain ⟨s₁, hs, hrest⟩ := Option.bind_eq_some_iff.1 hr
      have hnext := ih (h.step hinv hs) (hinv.step hs) hrest
      rwa [System.sleeps, hs, Option.map_some, Option.getD_some, ← List.append_assoc]

/-- In every run, the delays slept for a message are those of the loop on the answers that the
message got; the last of them is missing while the worker still sleeps it. -/
theorem run_sleeps {acts : List Action} (hr : System.run edge acts System.spawned = some s)
    (i : Nat) : ∃ asleep, asleep.length ≤ 1 ∧
      retryApplyNative edge (answersTo i (applies s.calls)) =
        delaysFor i (System.sleeps edge acts System.spawned) ++ asleep := by
  have h := (OnSchedule.spawned edge).run acts (SystemInv.spawned edge) hr i []
  rw [List.append_nil, List.nil_append] at h
  refine ⟨_, ?_, h⟩
  rw [System.ahead]
  split
  · exact Nat.zero_le _
  · split
    · exact Nat.zero_le _
    · cases s.worker <;> simp [retryDelays]

end Runs

end Morceau
