import Mathlib.Data.List.Destutter

/-!
# Sequences of numbered blocks

A sender numbers its messages; a receiver handles them in order and presents each one a number of
times, getting an answer each time. The trace of the presentations is then a sequence of blocks, one
per message (`blocks`). This file says what such a trace looks like: with repeated presentations of
one message collapsed it is the messages in order (`collapse_blocks`), the answers to a message are
those of its block (`answersTo_blocks`), and whatever holds of every answer but the last of a block
holds of every presentation that is followed by another one of the same message (`pairwise_blocks`).
-/

set_option autoImplicit false

namespace Morceau.Lib

universe u v

variable {μ : Type u} {α : Type v}

/-- The presentations of message number `i`, one for each answer. -/
def block (i : Nat) (m : μ) (answers : List α) : List (Nat × μ × α) :=
  answers.map fun a => (i, m, a)

/-- The blocks of messages numbered from `i` on, one for each list of answers. -/
def blocks : Nat → List μ → List (List α) → List (Nat × μ × α)
  | i, m :: ms, as :: ass => block i m as ++ blocks (i + 1) ms ass
  | _, _, _ => []

/-- The answers to message number `i`. -/
def answersTo (i : Nat) (trace : List (Nat × μ × α)) : List α :=
  (trace.filter fun x => x.1 = i).map fun x => x.2.2

@[simp] theorem blocks_nil (i : Nat) (ms : List μ) :
    blocks i ms ([] : List (List α)) = [] := by
  cases ms <;> rfl

/-- Messages that are not handled yet do not matter. -/
theorem blocks_append (ass : List (List α)) : ∀ (i : Nat) (ms ms' : List μ),
    ass.length ≤ ms.length → blocks i (ms ++ ms') ass = blocks i ms ass := by
  induction ass with
  | nil => simp
  | cons as ass ih =>
      intro i ms ms' h
      cases ms with
      | nil => simp at h
      | cons m ms =>
          show block i m as ++ blocks (i + 1) (ms ++ ms') ass = _
          rw [ih (i + 1) ms ms' (by simpa using h)]
          rfl

/-- One more message is handled. -/
theorem blocks_snoc (ass : List (List α)) : ∀ (i : Nat) (ms : List μ) {m : μ} (as : List α),
    ms[ass.length]? = some m →
    blocks i ms (ass ++ [as]) = blocks i ms ass ++ block (i + ass.length) m as := by
  induction ass with
  | nil =>
      intro i ms m as h
      cases ms with
      | nil => simp at h
      | cons m' ms =>
          simp only [List.length_nil, List.getElem?_cons_zero, Option.some.injEq] at h
          subst h
          simp [blocks]
  | cons as' ass ih =>
      intro i ms m as h
      cases ms with
      | nil => simp at h
      | cons m' ms =>
          rw [List.length_cons, List.getElem?_cons_succ] at h
          show block i m' as' ++ blocks (i + 1) ms (ass ++ [as]) = _
          rw [ih (i + 1) ms as h, ← List.append_assoc, List.length_cons]
          have harith : i + 1 + ass.length = i + (ass.length + 1) := by omega
          rw [harith]
          rfl

theorem fst_of_mem_block {i : Nat} {m : μ} {as : List α} {x : Nat × μ × α}
    (h : x ∈ block i m as) : x.1 = i := by
  obtain ⟨a, -, rfl⟩ := List.mem_map.1 h
  rfl

theorem le_of_mem_blocks (ass : List (List α)) : ∀ {i : Nat} {ms : List μ} {x : Nat × μ × α},
    x ∈ blocks i ms ass → i ≤ x.1 := by
  induction ass with
  | nil => simp
  | cons as ass ih =>
      intro i ms x h
      cases ms with
      | nil => simp [blocks] at h
      | cons m ms =>
          rcases List.mem_append.1 h with h | h
          · rw [fst_of_mem_block h]
          · exact Nat.le_of_succ_le (ih h)

/-- What holds of every answer of a block that is followed by another answer holds of every
presentation that is followed by one of the same message. -/
theorem pairwise_blocks {T : α → Prop} (ass : List (List α)) : ∀ (i : Nat) (ms : List μ),
    (∀ as ∈ ass, as.Pairwise fun a _ => T a) →
    (blocks i ms ass).Pairwise fun x y => x.1 = y.1 → T x.2.2 := by
  induction ass with
  | nil => simp
  | cons as ass ih =>
      intro i ms h
      cases ms with
      | nil => exact List.Pairwise.nil
      | cons m ms =>
          refine List.pairwise_append.2 ⟨?_, ih (i + 1) ms fun as' h' => h as' (by simp [h']), ?_⟩
          · refine List.Pairwise.map _ (fun a b hab => ?_) (h as (by simp))
            exact fun _ => hab
          · -- presentations in different blocks have different numbers
            intro x hx y hy heq
            have hxi := fst_of_mem_block hx
            have hyi := le_of_mem_blocks ass hy
            omega

theorem answersTo_append (i : Nat) (t t' : List (Nat × μ × α)) :
    answersTo i (t ++ t') = answersTo i t ++ answersTo i t' := by
  simp [answersTo]

theorem answersTo_block (i : Nat) (m : μ) (as : List α) : answersTo i (block i m as) = as := by
  simp [answersTo, block, List.filter_map, Function.comp_def]

theorem answersTo_eq_nil {i : Nat} {t : List (Nat × μ × α)} (h : ∀ x ∈ t, x.1 ≠ i) :
    answersTo i t = [] := by
  rw [answersTo, List.filter_eq_nil_iff.2 (by simpa using h), List.map_nil]

/-- The answers to a message are those of its block. -/
theorem answersTo_blocks (ass : List (List α)) : ∀ (i : Nat) (ms : List μ) (j : Nat) {as : List α},
    ass.length ≤ ms.length → ass[j]? = some as → answersTo (i + j) (blocks i ms ass) = as := by
  induction ass with
  | nil => simp
  | cons as' ass ih =>
      intro i ms j as hlen hj
      cases ms with
      | nil => simp at hlen
      | cons m ms =>
          show answersTo (i + j) (block i m as' ++ blocks (i + 1) ms ass) = as
          rw [answersTo_append]
          cases j with
          | zero =>
              simp only [List.getElem?_cons_zero, Option.some.injEq] at hj
              subst hj
              rw [Nat.add_zero, answersTo_block, answersTo_eq_nil, List.append_nil]
              intro x hx
              have := le_of_mem_blocks ass hx
              omega
          | succ j =>
              rw [List.getElem?_cons_succ] at hj
              have hrest := ih (i + 1) ms j (by simpa using hlen) hj
              rw [show i + 1 + j = i + (j + 1) by omega] at hrest
              rw [hrest, answersTo_eq_nil, List.nil_append]
              intro x hx
              have := fst_of_mem_block hx
              omega

section Collapse

variable [DecidableEq μ]

/-- The trace with immediately repeated presentations of the same message collapsed: the messages
with their numbers. -/
def collapse (trace : List (Nat × μ × α)) : List (μ × Nat) :=
  (trace.map fun x => (x.2.1, x.1)).destutter (· ≠ ·)

theorem destutter'_replicate (x : μ × Nat) (n : Nat) (l : List (μ × Nat)) :
    (List.replicate n x ++ l).destutter' (· ≠ ·) x = l.destutter' (· ≠ ·) x := by
  induction n with
  | zero => rfl
  | succ n ih =>
      rw [List.replicate_succ, List.cons_append, List.destutter'_cons_neg _ (by simp), ih]

theorem destutter'_of_lt {m : μ} {i : Nat} {l : List (μ × Nat)} (h : ∀ y ∈ l, i < y.2) :
    l.destutter' (· ≠ ·) (m, i) = (m, i) :: l.destutter (· ≠ ·) := by
  cases l with
  | nil => rfl
  | cons y l =>
      have hne : (m, i) ≠ y := by
        rintro rfl
        exact absurd (h (m, i) (List.mem_cons_self ..)) (lt_irrefl i)
      rw [List.destutter'_cons_pos _ hne, List.destutter_cons']

/-- Collapsed, a trace of blocks is the handled messages in order. -/
theorem collapse_blocks (ass : List (List α)) : ∀ (i : Nat) (ms : List μ),
    (∀ as ∈ ass, as ≠ []) → ass.length ≤ ms.length →
    collapse (blocks i ms ass) = (ms.take ass.length).zipIdx i := by
  induction ass with
  | nil => simp [collapse]
  | cons as ass ih =>
      intro i ms hne hlen
      cases ms with
      | nil => simp at hlen
      | cons m ms =>
          have hrest := ih (i + 1) ms (fun as' h => hne as' (by simp [h])) (by simpa using hlen)
          obtain ⟨a, as', rfl⟩ := List.exists_cons_of_ne_nil (hne as (by simp))
          have hkeys : (block i m (a :: as')).map (fun x => (x.2.1, x.1)) =
              (m, i) :: List.replicate as'.length (m, i) := by
            simp [block, Function.comp_def, List.map_const']
          have hlt : ∀ y ∈ (blocks (i + 1) ms ass).map (fun x => (x.2.1, x.1)), i < y.2 := by
            intro y hy
            obtain ⟨x, hx, rfl⟩ := List.mem_map.1 hy
            exact le_of_mem_blocks ass hx
          show ((block i m (a :: as') ++ blocks (i + 1) ms ass).map _).destutter _ = _
          rw [List.map_append, hkeys, List.cons_append, List.destutter_cons', destutter'_replicate,
            destutter'_of_lt hlt]
          rw [List.length_cons, List.take_succ_cons, List.zipIdx_cons, ← hrest]
          rfl

end Collapse

end Morceau.Lib
