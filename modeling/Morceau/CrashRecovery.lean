import Morceau.Bincode
import Morceau.Engine.Sequence
import Morceau.Query.Effects

/-!
# Crash recovery at every byte

`Reach P e` are the engines that runs of operations and queries reach on a store that started fresh,
with appends that succeed, where the process may crash at any point: a crash leaves a prefix of the
store's bytes and the next engine is opened on it. `Run P e hist` is such a run together with its
history: the state right after the store was first opened, and the states right after each commit
whose record is still on the store.

The main result is that opening an engine on any prefix of the store of a reachable engine that
keeps the header succeeds, truncates to the last frame boundary in the prefix, and gives the
indexes, the schema and the sequence counter that the live engine had right after the commit that
ends there.
-/

set_option autoImplicit false

namespace Morceau

open Lib LawfulStorage

variable {σ : Type} [LawfulStorage σ] {P : Platform}

/-- Engines reachable from a fresh store by operations and queries with appends that succeed, by
wiring a mutation log, and by crashes. A crash that leaves the whole store is a plain reopen. -/
inductive Reach (P : Platform) : Engine σ → Prop where
  | fresh {actor : ActorId} {s : σ} {e : Engine σ} :
      contents s = header → Reliable s → Engine.openWith P actor s = .ok e → Reach P e
  | call {e : Engine σ} (c : Call) :
      Reach P e → AppendsSucceed CallError.fault (c.run P e) → Reach P (finalState (c.run P e))
  | wire {e : Engine σ} (l : MutationLog) : Reach P e → Reach P (e.withMutationLog l)
  | crash {e e' : Engine σ} {k : Nat} {actor : ActorId} {s : σ} :
      Reach P e → headerLen ≤ k → contents s = (contents e.storage).take k → Reliable s →
      Engine.openWith P actor s = .ok e' → Reach P e'

/-- Make the calls in order. -/
def Call.runAll {τ : Type} [Storage τ] (P : Platform) (cs : List Call) (e : Engine τ) : Engine τ :=
  cs.foldl (fun e c => finalState (c.run P e)) e

/-- What every call keeps, whatever its outcome, a list of calls keeps. -/
theorem Call.runAll_induction {τ : Type} [Storage τ] {P : Platform} {K : Engine τ → Prop}
    (hcall : ∀ (c : Call) (e : Engine τ), K e → K (finalState (c.run P e))) (cs : List Call)
    {e : Engine τ} (h : K e) : K (Call.runAll P cs e) := by
  induction cs generalizing e with
  | nil => exact h
  | cons c cs ih => exact ih (hcall c e h)

/-- None of the calls fails in the I/O layer. -/
def Call.AllSucceed {τ : Type} [Storage τ] (P : Platform) : List Call → Engine τ → Prop
  | [], _ => True
  | c :: cs, e =>
      AppendsSucceed CallError.fault (c.run P e) ∧ AllSucceed P cs (finalState (c.run P e))

instance Call.decidableAllSucceed {τ : Type} [Storage τ] (P : Platform) :
    (cs : List Call) → (e : Engine τ) → Decidable (Call.AllSucceed P cs e)
  | [], _ => isTrue trivial
  | c :: cs, e =>
      @instDecidableAnd _ _ inferInstance (decidableAllSucceed P cs (finalState (c.run P e)))

theorem Reach.runAll {cs : List Call} : ∀ {e : Engine σ}, Reach P e → Call.AllSucceed P cs e →
    Reach P (Call.runAll P cs e) := by
  induction cs with
  | nil => exact fun h _ => h
  | cons c cs ih => exact fun h hok => ih (Reach.call c h hok.1) hok.2

/-- A run with its history: the states right after the first open and right after each commit. A
crash forgets the states whose store is longer than what is left. -/
inductive Run (P : Platform) : Engine σ → List (Engine σ) → Prop where
  | fresh {actor : ActorId} {s : σ} {e : Engine σ} :
      contents s = header → Reliable s → Engine.openWith P actor s = .ok e → Run P e [e]
  | call {e : Engine σ} {hist hs : List (Engine σ)} (c : Call) :
      Run P e hist → AppendsSucceed CallError.fault (c.run P e) →
      Chain P e hs (finalState (c.run P e)) → Run P (finalState (c.run P e)) (hist ++ hs)
  | wire {e : Engine σ} {hist : List (Engine σ)} (l : MutationLog) :
      Run P e hist → Run P (e.withMutationLog l) hist
  | crash {e e' : Engine σ} {hist : List (Engine σ)} {k : Nat} {actor : ActorId} {s : σ} :
      Run P e hist → headerLen ≤ k → contents s = (contents e.storage).take k → Reliable s →
      Engine.openWith P actor s = .ok e' →
      Run P e' (hist.filter fun h => (contents h.storage).length ≤ k)

/-- `n` records of the log end at the last frame boundary within `k` bytes. -/
structure LastBoundary (P : Platform) (log : List Mutation) (k n : Nat) : Prop where
  le_length : n ≤ log.length
  le_cut : boundary P (log.take n) ≤ k
  last : ∀ j, j ≤ log.length → boundary P (log.take j) ≤ k → j ≤ n

/-! ## Opening a prefix -/

/-- What a prefix of a well-formed store recovers to. -/
theorem Core.openWith_take {e : Engine σ} {log : List Mutation} (h : Core P e log) {k : Nat}
    (hk : headerLen ≤ k) {s : σ}
    (hs : LawfulStorage.contents s = (LawfulStorage.contents e.storage).take k) (hrel : Reliable s)
    (actor : ActorId) :
    ∃ n e', LastBoundary P log k n ∧ Engine.openWith P actor s = .ok e' ∧
      Recovered P actor e' (log.take n) := by
  obtain ⟨n, tail, hn, hcut, htorn, hle, hlast⟩ := cut_log h.encodable hk
  obtain ⟨e', hopen, hrec⟩ := openWith_spec (hs.trans (h.contents ▸ hcut))
    (fun m hm => h.encodable m (List.mem_of_mem_take hm)) (h.wf.take n) htorn hrel actor
  exact ⟨n, e', ⟨hn, hle, hlast⟩, hopen, hrec⟩

theorem Inv.openWith_take {e : Engine σ} {log : List Mutation} (h : Inv P e log) {k : Nat}
    (hk : headerLen ≤ k) {s : σ} (hs : contents s = (contents e.storage).take k)
    (hrel : Reliable s) (actor : ActorId) :
    ∃ n e', LastBoundary P log k n ∧ Engine.openWith P actor s = .ok e' ∧
      Inv P e' (log.take n) ∧ e'.actor = actor ∧ e'.mutationLog = none := by
  obtain ⟨n, e', hn, hopen, hrec⟩ := h.toCore.openWith_take hk hs hrel actor
  exact ⟨n, e', hn, hopen,
    Inv.of_recovered hrec (h.numbered.take n) fun m hm => h.foreshadow m (List.mem_of_mem_take hm),
    hrec.actor, hrec.mutationLog⟩

/-- Opening a store that holds only the header. -/
theorem inv_fresh {actor : ActorId} {s : σ} {e : Engine σ} (hs : contents s = header)
    (hrel : Reliable s) (hopen : Engine.openWith P actor s = .ok e) :
    Inv P e [] ∧ e.actor = actor ∧ e.mutationLog = none := by
  have hc : contents s = storeImage P [] [] := by simpa [storeImage] using hs
  obtain ⟨e', hopen', hrec⟩ := openWith_spec hc (by simp) wfLog_nil torn_nil hrel actor
  rw [hopen] at hopen'
  cases hopen'
  exact ⟨Inv.of_recovered hrec numbered_nil (by simp), hrec.actor, hrec.mutationLog⟩

/-! ## Histories -/

/-- Keeping the members that satisfy a test which holds exactly below `n` is taking `n` members. -/
theorem filter_eq_take {α : Type} {p : α → Bool} (l : List α) :
    ∀ n, (∀ j a, l[j]? = some a → (p a = true ↔ j < n)) → l.filter p = l.take n := by
  induction l with
  | nil => simp
  | cons a l ih =>
      intro n h
      have h0 := h 0 a rfl
      cases n with
      | zero =>
          have hpa : ¬ p a = true := by
            rw [h0]
            omega
          rw [List.filter_cons_of_neg hpa, ih 0 fun j x hx => ?_]
          · simp
          · rw [h (j + 1) x hx]
            omega
      | succ n =>
          rw [List.filter_cons_of_pos (h0.2 (by omega)), List.take_succ_cons, ih n fun j x hx => ?_]
          rw [h (j + 1) x hx]
          omega

/-- The history of a log: the `j`-th state satisfies the invariant for the first `j` records. -/
structure History (P : Platform) (log : List Mutation) (hist : List (Engine σ)) : Prop where
  length : hist.length = log.length + 1
  state : ∀ j s, hist[j]? = some s → Inv P s (log.take j)

namespace History

variable {log : List Mutation} {hist : List (Engine σ)}

/-- The states of a chain extend the history. -/
theorem append (h : History P log hist) {ms : List Mutation} {hs : List (Engine σ)}
    (hlen : hs.length = ms.length)
    (hstate : ∀ j s, hs[j]? = some s → Inv P s (log ++ ms.take (j + 1))) :
    History P (log ++ ms) (hist ++ hs) where
  length := by
    rw [List.length_append, List.length_append, h.length, hlen]
    omega
  state j s hj := by
    have hl := h.length
    by_cases hlt : j < hist.length
    · rw [List.getElem?_append_left hlt] at hj
      rw [List.take_append_of_le_length (by omega)]
      exact h.state j s hj
    · rw [List.getElem?_append_right (by omega)] at hj
      have := hstate _ s hj
      rw [List.take_append, List.take_of_length_le (by omega)]
      rwa [show j - hist.length + 1 = j - log.length by omega] at this

/-- A crash keeps the states up to the last frame boundary. -/
theorem cut (h : History P log hist) (henc : ∀ m ∈ log, P.Encodable m) {k n : Nat}
    (hn : LastBoundary P log k n) :
    History P (log.take n) (hist.filter fun s => (contents s.storage).length ≤ k) := by
  have hl := h.length
  have hnl := hn.le_length
  have hfilter : (hist.filter fun s => (contents s.storage).length ≤ k) = hist.take (n + 1) := by
    refine filter_eq_take hist (n + 1) fun j s hj => ?_
    have hj' : j < hist.length := (List.getElem?_eq_some_iff.1 hj).1
    rw [decide_eq_true_iff, (h.state j s hj).contents, length_storeImage, List.length_nil,
      Nat.add_zero]
    constructor
    · intro hle
      have := hn.last j (by omega) hle
      omega
    · intro hlt
      have hle := hn.le_cut
      rcases Nat.lt_or_eq_of_le (Nat.le_of_lt_succ hlt) with hlt' | rfl
      · have := boundary_take_lt henc hlt' hnl
        omega
      · exact hle
  rw [hfilter]
  refine ⟨?_, fun j s hj => ?_⟩
  · rw [List.length_take, List.length_take]
    omega
  · have hj' := (List.getElem?_eq_some_iff.1 hj).1
    rw [List.length_take] at hj'
    rw [List.getElem?_take_of_lt (by omega)] at hj
    rw [List.take_take, Nat.min_eq_left (by omega)]
    exact h.state j s hj

end History

/-- Every run keeps the invariant, and its history is the history of the log. -/
theorem Run.inv {e : Engine σ} {hist : List (Engine σ)} (h : Run P e hist) :
    ∃ log, Inv P e log ∧ History P log hist := by
  induction h with
  | @fresh actor s e hs hrel hopen =>
      have hinv := (inv_fresh hs hrel hopen).1
      refine ⟨[], hinv, rfl, fun j t hj => ?_⟩
      obtain ⟨hj', ht⟩ := List.getElem?_eq_some_iff.1 hj
      simp only [List.length_singleton] at hj'
      obtain rfl : j = 0 := by omega
      rw [← ht]
      exact hinv
  | call c _ _ hch ih =>
      obtain ⟨log, hinv, hhist⟩ := ih
      obtain ⟨ms, hinv', hlen, hstate⟩ := hinv.chain hch
      exact ⟨log ++ ms, hinv', hhist.append hlen hstate⟩
  | wire l _ ih =>
      obtain ⟨log, hinv, hhist⟩ := ih
      exact ⟨log, hinv.wire l, hhist⟩
  | crash _ hk hs hrel hopen ih =>
      obtain ⟨log, hinv, hhist⟩ := ih
      obtain ⟨n, e', hn, hopen', hinv', -, -⟩ := hinv.openWith_take hk hs hrel _
      rw [hopen] at hopen'
      cases hopen'
      exact ⟨log.take n, hinv', hhist.cut hinv.encodable hn⟩

/-- Every reachable engine is the end of a run. -/
theorem Reach.run {e : Engine σ} (h : Reach P e) : ∃ hist, Run P e hist := by
  induction h with
  | fresh hs hrel hopen => exact ⟨_, Run.fresh hs hrel hopen⟩
  | call c _ hok ih =>
      obtain ⟨hist, hrun⟩ := ih
      obtain ⟨log, hinv, -⟩ := hrun.inv
      obtain ⟨hs, hch⟩ := c.chained.chain hinv.toCore hok
      exact ⟨_, Run.call c hrun hok hch⟩
  | wire l _ ih =>
      obtain ⟨hist, hrun⟩ := ih
      exact ⟨hist, Run.wire l hrun⟩
  | crash _ hk hs hrel hopen ih =>
      obtain ⟨hist, hrun⟩ := ih
      exact ⟨_, Run.crash hrun hk hs hrel hopen⟩

/-! ## The main result -/

/-- The engine has the store, the indexes, the schema and the counter of `live`, and no index has an
empty bucket. -/
structure Restores (e live : Engine σ) : Prop where
  contents : contents e.storage = LawfulStorage.contents live.storage
  nodeIndex : e.nodeIndex = live.nodeIndex
  edgeIndex : e.edgeIndex = live.edgeIndex
  edgeByLabel : e.edgeByLabel = live.edgeByLabel
  edgesByFrom : e.edgesByFrom = live.edgesByFrom
  edgesByTo : e.edgesByTo = live.edgesByTo
  currentSchema : e.currentSchema = live.currentSchema
  nextLocalSeq : e.nextLocalSeq = live.nextLocalSeq
  noEmpty : Buckets.NoEmpty e.edgeByLabel ∧ Buckets.NoEmpty e.edgesByFrom ∧
    Buckets.NoEmpty e.edgesByTo

/-- Two engines over the same log restore each other. -/
theorem Inv.restores {e live : Engine σ} {log : List Mutation} (h : Inv P e log)
    (h' : Inv P live log) : Restores e live := by
  have hix : e.indexes = live.indexes := h.indexes.trans h'.indexes.symm
  have hcons := h.toCore.consistent
  exact
    { contents := h.contents.trans h'.contents.symm
      nodeIndex := congrArg Indexes.nodeIndex hix
      edgeIndex := congrArg Indexes.edgeIndex hix
      edgeByLabel := congrArg Indexes.edgeByLabel hix
      edgesByFrom := congrArg Indexes.edgesByFrom hix
      edgesByTo := congrArg Indexes.edgesByTo hix
      currentSchema := congrArg Indexes.currentSchema hix
      nextLocalSeq := h.nextLocalSeq_eq h'
      noEmpty := ⟨hcons.byLabel.noEmpty, hcons.byFrom.noEmpty, hcons.byTo.noEmpty⟩ }

/-- Crash recovery at every byte. The store of a reachable engine is the header and one frame per
commit, the run has a history, and opening any prefix of the store gives the state of the history at
the last frame boundary in that prefix. -/
theorem open_prefix_restores_live_state {e : Engine σ} (h : Reach P e) :
    ∃ log, contents e.storage = header ++ encodeLog P log ∧ (∃ hist, Run P e hist) ∧
      ∀ hist, Run P e hist → hist.length = log.length + 1 ∧
        ∀ k, headerLen ≤ k → k ≤ (contents e.storage).length →
          ∀ (s : σ) (actor : ActorId), Reliable s → contents s = (contents e.storage).take k →
            ∃ e' n live, Engine.openWith P actor s = .ok e' ∧ LastBoundary P log k n ∧
              contents e'.storage = (contents e.storage).take (boundary P (log.take n)) ∧
              hist[n]? = some live ∧ Restores e' live := by
  obtain ⟨hist0, hrun0⟩ := h.run
  obtain ⟨log, hinv, -⟩ := hrun0.inv
  refine ⟨log, by simpa [storeImage] using hinv.contents, ⟨hist0, hrun0⟩, fun hist hrun => ?_⟩
  obtain ⟨log', hinv', hhist⟩ := hrun.inv
  obtain rfl := hinv'.toCore.log_eq hinv.toCore
  refine ⟨hhist.length, fun k hk _ s actor hrel hs => ?_⟩
  obtain ⟨n, e', hn, hopen, hinv', -, -⟩ := hinv.openWith_take hk hs hrel actor
  have hlt : n < hist.length := by
    rw [hhist.length]
    have := hn.le_length
    omega
  have hlive := List.getElem?_eq_getElem hlt
  refine ⟨e', n, _, hopen, hn, ?_, hlive, hinv'.restores (hhist.state n _ hlive)⟩
  rw [hinv'.contents, hinv.contents, storeImage_take]

/-- The engine after calls on a fresh memory store. -/
def inMemory (cs : List Call) : Engine MemoryStorage :=
  Call.runAll bincode cs (Engine.blank ⟨"u", "d"⟩ MemoryStorage.new)

theorem reach_inMemory {cs : List Call}
    (h : Call.AllSucceed bincode cs (Engine.blank ⟨"u", "d"⟩ MemoryStorage.new)) :
    Reach bincode (inMemory cs) :=
  Reach.runAll (Reach.fresh (s := MemoryStorage.new) rfl trivial rfl) h

/-- The engine after one node was inserted into a fresh memory store. -/
def oneNode : Engine MemoryStorage := inMemory [.op (.insertNode (Node.new "a" "N"))]

theorem reach_oneNode : Reach bincode oneNode := reach_inMemory (by decide +kernel)

/-- The store of one node, cut in the middle of its frame. -/
theorem open_prefix_of_one_node :
    oneNode.storage.bytes.length = 32 ∧
      ∃ (s : MemoryStorage) (e' live : Engine MemoryStorage),
        s.bytes = oneNode.storage.bytes.take 20 ∧
        Engine.openWith bincode ⟨"u", "d"⟩ s = .ok e' ∧ Restores e' live := by
  have hlen : oneNode.storage.bytes.length = 32 := by decide +kernel
  obtain ⟨log, -, ⟨hist, hrun⟩, h⟩ := open_prefix_restores_live_state reach_oneNode
  have hle : (contents oneNode.storage).length = 32 := hlen
  obtain ⟨e', n, live, hopen, -, -, -, hres⟩ := (h hist hrun).2 20 (by decide) (by omega)
    ⟨oneNode.storage.bytes.take 20, le_trans (List.length_take_le' _ _) oneNode.storage.fits⟩
    ⟨"u", "d"⟩ trivial rfl
  exact ⟨hlen, _, e', live, rfl, hopen, hres⟩

end Morceau
