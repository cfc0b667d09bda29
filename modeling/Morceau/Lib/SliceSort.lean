import Mathlib.Data.List.Chain
import Mathlib.Data.List.Induction
import Mathlib.Data.List.Sort

/-!
# Sorting a slice with a comparator

The stable sort of a slice as a standard library has it for slices of up to 32 elements: up to 20
by insertion; longer ones, unless a run that is in order already covers half of them, by sorting the
two halves and merging these from both ends at once. The merge does not look whether its two ends
meet until it is over; if they do not, the comparator cannot have been an order, and it panics.

With any comparator the sort panics or permutes the slice. With a comparator that is total on the
elements it does not panic, and gives what every stable sort gives (`sliceSort_eq_mergeSort`). The
argument is by a key: a total order on finitely many elements is the order of the numbers of
elements below each of them, and a list is sorted stably from another one (`SortsTo`) when the keys
do not descend and the elements of each key are the same, in the same order.
-/

set_option autoImplicit false

namespace Morceau.Lib

variable {α : Type}

/-! ## The algorithm -/

section Algorithm

variable (lt : α → α → Bool)

/-- Insert an element into a sorted slice, which is given from its end. -/
def insertTail (x : α) : List α → List α
  | [] => [x]
  | y :: ys => if lt x y then y :: insertTail x ys else x :: y :: ys

/-- Insert the elements one by one into a sorted slice. -/
def insertEach (sorted : List α) (xs : List α) : List α :=
  (xs.foldl (fun out x => insertTail lt x out) sorted.reverse).reverse

/-- Two pairs by three comparisons: the least and the greatest element, and then the two between
them. -/
def mergePairs (a b c d : α) : List α :=
  let c₃ := lt c a
  let c₄ := lt d b
  let least := if c₃ then c else a
  let greatest := if c₄ then b else d
  let left := if c₃ then a else if c₄ then c else b
  let right := if c₄ then d else if c₃ then b else c
  let c₅ := lt right left
  [least, if c₅ then right else left, if c₅ then left else right, greatest]

/-- Four elements by five comparisons. -/
def sort4 (v₀ v₁ v₂ v₃ : α) : List α :=
  let c₁ := lt v₁ v₀
  let c₂ := lt v₃ v₂
  mergePairs lt (if c₁ then v₁ else v₀) (if c₁ then v₀ else v₁) (if c₂ then v₃ else v₂)
    (if c₂ then v₂ else v₃)

/-- One half of the slice: four elements at once, and the others by insertion. -/
def sortHalf : List α → List α
  | v₀ :: v₁ :: v₂ :: v₃ :: rest => insertEach lt (sort4 lt v₀ v₁ v₂ v₃) rest
  | short => insertEach lt [] short

/-- Take elements off the front of two slices: what is taken, and what is left of each. -/
def mergeUp : Nat → List α → List α → List α × List α × List α
  | n + 1, a :: l, b :: r =>
      if lt b a then
        let (out, rest) := mergeUp n (a :: l) r
        (b :: out, rest)
      else
        let (out, rest) := mergeUp n l (b :: r)
        (a :: out, rest)
  | _, l, r => ([], l, r)

/-- Take elements off the end of two slices. Seen from the end it is the slice on the right that
goes first. -/
def mergeDown (n : Nat) (l r : List α) : List α × List α × List α :=
  let (out, r', l') := mergeUp (fun a b => lt b a) n r.reverse l.reverse
  (out.reverse, l'.reverse, r'.reverse)

/-- Merge from both ends. Of an odd number of elements one is left over; it is taken from the left
if the ends have left one there, and from the right otherwise. The merge panics when the ends do not
meet. -/
def bidirectionalMerge (l r : List α) : Option (List α) :=
  let n := (l.length + r.length) / 2
  let (up, l', r') := mergeUp lt n l r
  let (down, l'', r'') := mergeDown lt n l r
  let left := l.length - l'.length
  let right := r.length - r'.length
  let odd := (l.length + r.length) % 2
  let i := if left < l''.length then odd else 0
  let j := odd - i
  if left + i = l''.length ∧ right + j = r''.length then
    some (up ++ ((l'.take i ++ r'.take j) ++ down))
  else none

/-- Sort the halves and merge them. -/
def smallSort (v : List α) : Option (List α) :=
  bidirectionalMerge lt (sortHalf lt (v.take (v.length / 2))) (sortHalf lt (v.drop (v.length / 2)))

/-- The length of the longest run at the front in which neighbours are related. -/
def runLength (r : α → α → Bool) : List α → Nat
  | [] => 0
  | [_] => 1
  | a :: b :: rest => if r a b then runLength r (b :: rest) + 1 else 1

/-- The slice begins with a strict descent. -/
def descends : List α → Bool
  | a :: b :: _ => lt b a
  | _ => false

/-- The length of the run at the front of a slice: it descends strictly, or it does not descend. -/
def existingRun (v : List α) : Nat :=
  if descends lt v then runLength (fun a b => lt b a) v else runLength (fun a b => !lt b a) v

/-- A slice that is one run. -/
def straighten (v : List α) : List α := if descends lt v then v.reverse else v

end Algorithm

/-- The sort of a slice. A long slice, and one of which a run covers half and not all, is sorted by
runs, and these are merged from one end; the merge sort stands for that. -/
def sliceSort (cmp : α → α → Ordering) (v : List α) : Option (List α) :=
  let lt a b := cmp a b == .lt
  if v.length ≤ 20 then some (insertEach lt [] v)
  else if existingRun lt v = v.length then some (straighten lt v)
  else if v.length ≤ 32 ∧ existingRun lt v < v.length - v.length / 2 then smallSort lt v
  else some (v.mergeSort fun a b => cmp a b != .gt)

/-! ## Stable sorting by a key -/

section Keys

variable {f : α → Int} {as bs out out' l₁ l₂ r₁ r₂ u d : List α}

/-- The elements of each key are the same, in the same order. -/
def SameByKey (f : α → Int) (as bs : List α) : Prop :=
  ∀ k, as.filter (fun a => f a = k) = bs.filter (fun a => f a = k)

theorem SameByKey.cons (h : SameByKey f as bs) (x : α) : SameByKey f (x :: as) (x :: bs) := by
  intro k
  rw [List.filter_cons, List.filter_cons, h k]

theorem SameByKey.swap {x y : α} (h : f x ≠ f y) (as : List α) :
    SameByKey f (x :: y :: as) (y :: x :: as) := by
  intro k
  by_cases hx : f x = k
  · have hy : f y ≠ k := fun hy => h (hx.trans hy.symm)
    simp [hx, hy]
  · simp [List.filter_cons, hx]

theorem SameByKey.trans (h : SameByKey f as bs) (h' : SameByKey f bs out) : SameByKey f as out :=
  fun k => (h k).trans (h' k)

theorem SameByKey.mem_iff (h : SameByKey f as bs) {a : α} : a ∈ as ↔ a ∈ bs := by
  have hmem : ∀ xs : List α, a ∈ xs ↔ a ∈ xs.filter (fun x => f x = f a) := by
    intro xs
    simp
  rw [hmem as, hmem bs, h]

theorem SameByKey.of_cons {x : α} (h : SameByKey f (x :: as) (x :: bs)) : SameByKey f as bs := by
  intro k
  have hk := h k
  by_cases hx : f x = k
  · rw [List.filter_cons_of_pos (by simpa using hx),
      List.filter_cons_of_pos (by simpa using hx)] at hk
    exact (List.cons.inj hk).2
  · rwa [List.filter_cons_of_neg (by simpa using hx),
      List.filter_cons_of_neg (by simpa using hx)] at hk

theorem SameByKey.head_le {a b : α} (h : SameByKey f (a :: as) (b :: bs))
    (hsorted : (a :: as).Pairwise fun x y => f x ≤ f y) : f a ≤ f b := by
  rcases List.mem_cons.1 (h.mem_iff.2 List.mem_cons_self) with rfl | hb
  · exact le_refl _
  · exact (List.pairwise_cons.1 hsorted).1 b hb

theorem SameByKey.eq_of_sorted (h : SameByKey f as bs) (has : as.Pairwise fun a b => f a ≤ f b)
    (hbs : bs.Pairwise fun a b => f a ≤ f b) : as = bs := by
  induction as generalizing bs with
  | nil => exact (List.eq_nil_iff_forall_not_mem.2 fun b hb => by simpa using h.mem_iff.2 hb).symm
  | cons a t ih =>
      cases bs with
      | nil => exact absurd (h.mem_iff.1 List.mem_cons_self) List.not_mem_nil
      | cons b t' =>
          -- the heads have one key, and both are the first of it
          have hkey : f a = f b := le_antisymm (h.head_le has) (head_le (fun k => (h k).symm) hbs)
          obtain rfl : a = b := by
            have hk := h (f a)
            rw [List.filter_cons_of_pos (by simp), List.filter_cons_of_pos (by simp [hkey])] at hk
            exact (List.cons.inj hk).1
          rw [ih h.of_cons has.of_cons hbs.of_cons]

/-- The keys of `out` do not descend, and the elements of each key stand in `out` as in `as`. -/
structure SortsTo (f : α → Int) (as out : List α) : Prop where
  sorted : out.Pairwise fun a b => f a ≤ f b
  same : SameByKey f out as

theorem SortsTo.nil : SortsTo f [] [] := ⟨List.Pairwise.nil, fun _ => rfl⟩

theorem SortsTo.singleton (a : α) : SortsTo f [a] [a] :=
  ⟨List.pairwise_singleton _ a, fun _ => rfl⟩

theorem SortsTo.mem_iff (h : SortsTo f as out) {a : α} : a ∈ out ↔ a ∈ as :=
  h.same.mem_iff

/-- There is one stable sort. -/
theorem SortsTo.unique (h : SortsTo f as out) (h' : SortsTo f as out') : out = out' :=
  SameByKey.eq_of_sorted (fun k => (h.same k).trans (h'.same k).symm) h.sorted h'.sorted

/-- The merge sort is a stable sort. -/
theorem sortsTo_mergeSort (f : α → Int) (as : List α) :
    SortsTo f as (as.mergeSort fun a b => decide (f a ≤ f b)) := by
  have htrans : ∀ a b c : α, decide (f a ≤ f b) → decide (f b ≤ f c) → decide (f a ≤ f c) := by
    intro a b c hab hbc
    simp only [decide_eq_true_eq] at hab hbc ⊢
    omega
  have htotal : ∀ a b : α, decide (f a ≤ f b) || decide (f b ≤ f a) := by
    intro a b
    simp only [Bool.or_eq_true, decide_eq_true_eq]
    omega
  refine ⟨(List.pairwise_mergeSort htrans htotal as).imp of_decide_eq_true, fun k => ?_⟩
  -- the elements of one key are in order, and so stay as they are
  have hkey : (as.filter fun a => f a = k).Pairwise fun a b => decide (f a ≤ f b) := by
    refine List.pairwise_iff_forall_sublist.2 fun {a b} hab => ?_
    have ha := hab.subset (List.mem_cons_self (a := a) (l := [b]))
    have hb := hab.subset (List.mem_cons_of_mem a (List.mem_singleton_self b))
    rw [List.mem_filter, decide_eq_true_eq] at ha hb
    simp only [decide_eq_true_eq]
    omega
  have hsub := List.sublist_mergeSort htrans htotal hkey List.filter_sublist
  have hsub' := hsub.filter fun a => f a = k
  rw [List.filter_filter] at hsub'
  simp only [Bool.and_self] at hsub'
  refine (hsub'.eq_of_length ?_).symm
  exact ((List.mergeSort_perm as _).filter _).length_eq.symm

/-- Two sorted slices are cut so that nothing before the cut belongs after it: what the parts sort
to is what the whole sorts to. -/
theorem SortsTo.append (hu : SortsTo f (l₁ ++ r₁) u) (hd : SortsTo f (l₂ ++ r₂) d)
    (hl : ∀ a ∈ l₁, ∀ b ∈ l₂, f a ≤ f b) (hr : ∀ a ∈ r₁, ∀ b ∈ r₂, f a ≤ f b)
    (hlr : ∀ a ∈ l₁, ∀ b ∈ r₂, f a ≤ f b) (hrl : ∀ b ∈ r₁, ∀ a ∈ l₂, f b < f a) :
    SortsTo f ((l₁ ++ l₂) ++ (r₁ ++ r₂)) (u ++ d) := by
  refine ⟨List.pairwise_append.2 ⟨hu.sorted, hd.sorted, fun a ha b hb => ?_⟩, fun k => ?_⟩
  · rw [hu.mem_iff, List.mem_append] at ha
    rw [hd.mem_iff, List.mem_append] at hb
    rcases ha with ha | ha <;> rcases hb with hb | hb
    · exact hl a ha b hb
    · exact hlr a ha b hb
    · exact (hrl a ha b hb).le
    · exact hr a ha b hb
  · rw [List.filter_append, hu.same k, hd.same k]
    simp only [List.filter_append, List.append_assoc]
    -- the parts in the middle have no key in common
    have hmid : (r₁.filter fun a => f a = k) = [] ∨ (l₂.filter fun a => f a = k) = [] := by
      by_contra hne
      rw [not_or] at hne
      obtain ⟨b, hb⟩ := List.exists_mem_of_ne_nil _ hne.1
      obtain ⟨a, ha⟩ := List.exists_mem_of_ne_nil _ hne.2
      rw [List.mem_filter, decide_eq_true_eq] at ha hb
      have := hrl b hb.1 a ha.1
      omega
    rcases hmid with h | h
    · rw [h, List.nil_append, List.nil_append]
    · rw [h, List.nil_append, List.nil_append]

/-- An element of the left slice goes first if nothing is below it. -/
theorem SortsTo.cons_left {a : α} (h : SortsTo f (l₁ ++ r₁) u) (hl : ∀ x ∈ l₁, f a ≤ f x)
    (hr : ∀ y ∈ r₁, f a ≤ f y) : SortsTo f ((a :: l₁) ++ r₁) (a :: u) := by
  have hfirst : SortsTo f ([a] ++ []) [a] := SortsTo.singleton a
  refine hfirst.append h ?_ ?_ ?_ ?_
  · exact fun x hx => by rwa [List.mem_singleton.1 hx]
  · exact fun _ hx => absurd hx List.not_mem_nil
  · exact fun x hx => by rwa [List.mem_singleton.1 hx]
  · exact fun _ hx => absurd hx List.not_mem_nil

/-- An element of the right slice goes first if it is below everything on the left. -/
theorem SortsTo.cons_right {b : α} (h : SortsTo f (l₁ ++ r₁) u) (hl : ∀ x ∈ l₁, f b < f x)
    (hr : ∀ y ∈ r₁, f b ≤ f y) : SortsTo f (l₁ ++ b :: r₁) (b :: u) := by
  have hfirst : SortsTo f ([] ++ [b]) [b] := SortsTo.singleton b
  refine hfirst.append h ?_ ?_ ?_ ?_
  · exact fun _ hx => absurd hx List.not_mem_nil
  · exact fun x hx => by rwa [List.mem_singleton.1 hx]
  · exact fun _ hx => absurd hx List.not_mem_nil
  · exact fun x hx => by rwa [List.mem_singleton.1 hx]

end Keys

/-! ## What is inserted and merged -/

section Permutes

variable (lt : α → α → Bool)

theorem insertTail_perm (x : α) (ys : List α) : (insertTail lt x ys).Perm (x :: ys) := by
  induction ys with
  | nil => exact List.Perm.refl _
  | cons y ys ih =>
      rw [insertTail]
      split
      · exact (ih.cons y).trans (List.Perm.swap x y ys)
      · exact List.Perm.refl _

theorem insertEach_perm (xs : List α) :
    ∀ sorted, (insertEach lt sorted xs).Perm (sorted ++ xs) := by
  have hfold : ∀ out, (xs.foldl (fun out x => insertTail lt x out) out).Perm (out ++ xs) := by
    induction xs with
    | nil => exact fun out => by simp
    | cons x xs ih =>
        intro out
        refine (ih _).trans (((insertTail_perm lt x out).append_right xs).trans ?_)
        exact List.perm_middle.symm
  intro sorted
  exact (List.reverse_perm _).trans ((hfold _).trans ((List.reverse_perm _).append_right xs))

theorem mergePairs_perm (a b c d : α) : (mergePairs lt a b c d).Perm [a, b, c, d] := by
  classical
  rw [List.perm_iff_count]
  intro x
  unfold mergePairs
  cases lt c a <;> cases lt d b <;>
    simp only [if_true, Bool.false_eq_true, if_false] <;> split <;>
    simp only [List.count_cons, List.count_nil] <;> omega

theorem sort4_perm (v₀ v₁ v₂ v₃ : α) : (sort4 lt v₀ v₁ v₂ v₃).Perm [v₀, v₁, v₂, v₃] := by
  refine (mergePairs_perm lt _ _ _ _).trans ?_
  have hpair : ∀ (c : Bool) (x y : α) {as bs : List α}, as.Perm bs →
      ((if c then y else x) :: (if c then x else y) :: as).Perm (x :: y :: bs) := by
    intro c x y as bs h
    cases c with
    | true => exact (List.Perm.swap x y as).trans ((h.cons y).cons x)
    | false => exact (h.cons y).cons x
  exact hpair _ _ _ (hpair _ _ _ (List.Perm.refl []))

theorem sortHalf_perm (v : List α) : (sortHalf lt v).Perm v := by
  unfold sortHalf
  split
  · exact (insertEach_perm lt _ _).trans ((sort4_perm lt _ _ _ _).append_right _)
  · exact insertEach_perm lt _ _

end Permutes

/-! ## Merging from both ends -/

section Merging

variable {lt : α → α → Bool} {f : α → Int} {l r l₁ l₂ r₁ r₂ : List α}

/-- Both slices are sorted by the key, and it is the key that the comparator goes by. -/
structure Orders (lt : α → α → Bool) (f : α → Int) (l r : List α) : Prop where
  left : l.Pairwise fun a b => f a ≤ f b
  right : r.Pairwise fun a b => f a ≤ f b
  lt : ∀ a ∈ l, ∀ b ∈ r, lt b a = decide (f b < f a)

/-- A cut through the two slices: in the stable order nothing before it belongs after it. -/
structure Cut (f : α → Int) (l₁ l₂ r₁ r₂ : List α) : Prop where
  left : ∀ a ∈ l₁, ∀ b ∈ r₂, f a ≤ f b
  right : ∀ b ∈ r₁, ∀ a ∈ l₂, f b < f a

theorem Orders.tail_left {a : α} (h : Orders lt f (a :: l) r) : Orders lt f l r :=
  ⟨h.left.of_cons, h.right, fun x hx => h.lt x (List.mem_cons_of_mem a hx)⟩

theorem Orders.tail_right {b : α} (h : Orders lt f l (b :: r)) : Orders lt f l r :=
  ⟨h.left, h.right.of_cons, fun x hx y hy => h.lt x hx y (List.mem_cons_of_mem b hy)⟩

/-- If the first element on the right is below the first on the left, it is below all of them. -/
theorem Orders.below_left {a b : α} (h : Orders lt f (a :: l) (b :: r)) (hlt : lt b a = true) :
    ∀ x ∈ a :: l, f b < f x := by
  have hba : f b < f a :=
    of_decide_eq_true ((h.lt a List.mem_cons_self b List.mem_cons_self).symm.trans hlt)
  intro x hx
  rcases List.mem_cons.1 hx with rfl | hx
  · exact hba
  · exact lt_of_lt_of_le hba ((List.pairwise_cons.1 h.left).1 x hx)

/-- If it is not, nothing on the right is below the first element on the left. -/
theorem Orders.not_above_right {a b : α} (h : Orders lt f (a :: l) (b :: r))
    (hlt : lt b a = false) : ∀ y ∈ b :: r, f a ≤ f y := by
  have hab : f a ≤ f b := not_lt.1
    (of_decide_eq_false ((h.lt a List.mem_cons_self b List.mem_cons_self).symm.trans hlt))
  intro y hy
  rcases List.mem_cons.1 hy with rfl | hy
  · exact hab
  · exact hab.trans ((List.pairwise_cons.1 h.right).1 y hy)

/-- The merge takes as many elements as it is asked for, and these stand at the front of the two
slices. If the slices are sorted, it takes what comes first in the stable order. -/
theorem mergeUp_spec (lt : α → α → Bool) : ∀ (n : Nat) (l r : List α), n ≤ l.length →
    n ≤ r.length → ∃ l₁ r₁, l = l₁ ++ (mergeUp lt n l r).2.1 ∧ r = r₁ ++ (mergeUp lt n l r).2.2 ∧
      l₁.length + r₁.length = n ∧ (mergeUp lt n l r).1.Perm (l₁ ++ r₁) ∧
      ∀ f, Orders lt f l r → SortsTo f (l₁ ++ r₁) (mergeUp lt n l r).1 ∧
        Cut f l₁ (mergeUp lt n l r).2.1 r₁ (mergeUp lt n l r).2.2 := by
  intro n
  induction n with
  | zero =>
      intro l r _ _
      refine ⟨[], [], rfl, rfl, rfl, List.Perm.refl _, fun f _ => ⟨SortsTo.nil, ?_, ?_⟩⟩
      · exact fun _ h => absurd h List.not_mem_nil
      · exact fun _ h => absurd h List.not_mem_nil
  | succ n ih =>
      intro l r hl hr
      obtain ⟨a, l, rfl⟩ := List.exists_cons_of_length_pos (Nat.lt_of_lt_of_le n.succ_pos hl)
      obtain ⟨b, r, rfl⟩ := List.exists_cons_of_length_pos (Nat.lt_of_lt_of_le n.succ_pos hr)
      rw [List.length_cons] at hl hr
      rw [mergeUp]
      cases hlt : lt b a with
      | true =>
          obtain ⟨l₁, r₁, hl₁, hr₁, hlen, hperm, hsort⟩ :=
            ih (a :: l) r (by rw [List.length_cons]; omega) (by omega)
          refine ⟨l₁, b :: r₁, hl₁, congrArg _ hr₁, by rw [List.length_cons]; omega,
            (hperm.cons b).trans List.perm_middle.symm, fun f h => ?_⟩
          -- the right element is below everything on the left
          obtain ⟨hs, hcut⟩ := hsort f h.tail_right
          have hbl := h.below_left hlt
          have hbr := (List.pairwise_cons.1 h.right).1
          refine ⟨hs.cons_right (fun x hx => hbl x ?_) (fun y hy => hbr y ?_), hcut.left, ?_⟩
          · exact hl₁ ▸ List.mem_append_left _ hx
          · exact hr₁ ▸ List.mem_append_left _ hy
          · refine List.forall_mem_cons.2 ⟨fun x hx => hbl x ?_, hcut.right⟩
            exact hl₁ ▸ List.mem_append_right _ hx
      | false =>
          obtain ⟨l₁, r₁, hl₁, hr₁, hlen, hperm, hsort⟩ :=
            ih l (b :: r) (by omega) (by rw [List.length_cons]; omega)
          refine ⟨a :: l₁, r₁, congrArg _ hl₁, hr₁, by rw [List.length_cons]; omega,
            hperm.cons a, fun f h => ?_⟩
          -- of equal elements the left one is taken, so the merge is stable
          obtain ⟨hs, hcut⟩ := hsort f h.tail_left
          have hal := (List.pairwise_cons.1 h.left).1
          have har := h.not_above_right hlt
          refine ⟨hs.cons_left (fun x hx => hal x ?_) (fun y hy => har y ?_), ?_, hcut.right⟩
          · exact hl₁ ▸ List.mem_append_left _ hx
          · exact hr₁ ▸ List.mem_append_left _ hy
          · refine List.forall_mem_cons.2 ⟨fun y hy => har y ?_, hcut.left⟩
            exact hr₁ ▸ List.mem_append_right _ hy

/-- The slices seen from the end. -/
theorem Orders.reverse (h : Orders lt f l r) :
    Orders (fun a b => lt b a) (fun a => -f a) r.reverse l.reverse where
  left := List.pairwise_reverse.2 (h.right.imp fun hab => Int.neg_le_neg hab)
  right := List.pairwise_reverse.2 (h.left.imp fun hab => Int.neg_le_neg hab)
  lt a ha b hb := by
    rw [h.lt b (List.mem_reverse.1 hb) a (List.mem_reverse.1 ha)]
    exact decide_eq_decide.2 (by omega)

theorem SortsTo.reverse {as out : List α} (h : SortsTo (fun a => -f a) as.reverse out) :
    SortsTo f as out.reverse := by
  refine ⟨List.pairwise_reverse.2 (h.sorted.imp fun hab => Int.neg_le_neg_iff.1 hab), fun k => ?_⟩
  have hsame := h.same (-k)
  simp only [Int.neg_inj] at hsame
  rw [List.filter_reverse, hsame, List.filter_reverse, List.reverse_reverse]

/-- What the merge takes off the end of the two slices. -/
theorem mergeDown_spec (lt : α → α → Bool) {n : Nat} (hl : n ≤ l.length) (hr : n ≤ r.length) :
    ∃ l₂ r₂, l = (mergeDown lt n l r).2.1 ++ l₂ ∧ r = (mergeDown lt n l r).2.2 ++ r₂ ∧
      l₂.length + r₂.length = n ∧ (mergeDown lt n l r).1.Perm (l₂ ++ r₂) ∧
      ∀ f, Orders lt f l r → SortsTo f (l₂ ++ r₂) (mergeDown lt n l r).1 ∧
        Cut f (mergeDown lt n l r).2.1 l₂ (mergeDown lt n l r).2.2 r₂ := by
  obtain ⟨r₂, l₂, hr₂, hl₂, hlen, hperm, hsort⟩ := mergeUp_spec (fun a b => lt b a) n r.reverse
    l.reverse (by rwa [List.length_reverse]) (by rwa [List.length_reverse])
  refine ⟨l₂.reverse, r₂.reverse, ?_, ?_, ?_, ?_, fun f h => ?_⟩
  · rw [mergeDown, ← List.reverse_append, ← hl₂, List.reverse_reverse]
  · rw [mergeDown, ← List.reverse_append, ← hr₂, List.reverse_reverse]
  · rw [List.length_reverse, List.length_reverse, Nat.add_comm]
    exact hlen
  · rw [mergeDown, ← List.reverse_append]
    exact (List.reverse_perm _).trans (hperm.trans (List.reverse_perm _).symm)
  · obtain ⟨hs, hcut⟩ := hsort _ h.reverse
    refine ⟨SortsTo.reverse ?_, fun a ha b hb => ?_, fun b hb a ha => ?_⟩
    · rw [← List.reverse_append, List.reverse_reverse]
      exact hs
    · exact Int.neg_le_neg_iff.1 (hcut.left b (List.mem_reverse.1 hb) a (List.mem_reverse.1 ha))
    · exact Int.neg_lt_neg_iff.1 (hcut.right a (List.mem_reverse.1 ha) b (List.mem_reverse.1 hb))

/-- Two ways to cut one list, one of them further on. -/
theorem append_gap {as bs cs ds : List α} (h : as ++ bs = cs ++ ds) {k : Nat}
    (hk : as.length + k = cs.length) : cs = as ++ bs.take k ∧ bs = bs.take k ++ ds := by
  have hcs : cs = as ++ bs.take k := by
    have htake := congrArg (List.take cs.length) h
    rw [List.take_left, ← hk, List.take_length_add_append] at htake
    exact htake.symm
  refine ⟨hcs, ?_⟩
  rw [hcs, List.append_assoc] at h
  exact List.append_cancel_left h

/-- Two cuts do not cross. -/
theorem Cut.not_cross {l₁ l₁' r₁ r₁' l₂ l₂' r₂ r₂' : List α} (h₁ : Cut f l₁ l₁' r₁ r₁')
    (h₂ : Cut f l₂ l₂' r₂ r₂') (hl : l₂ ++ l₂' = l₁ ++ l₁') (hr : r₁ ++ r₁' = r₂ ++ r₂')
    (hlt : l₂.length < l₁.length) : r₂.length ≤ r₁.length := by
  by_contra hgt
  rw [not_le] at hgt
  -- an element on the left between the cuts, and one on the right
  obtain ⟨k, hk⟩ := Nat.exists_eq_add_of_lt hlt
  obtain ⟨m, hm⟩ := Nat.exists_eq_add_of_lt hgt
  obtain ⟨hl₁, hl₂⟩ := append_gap hl (k := k + 1) hk.symm
  obtain ⟨hr₂, hr₁⟩ := append_gap hr (k := m + 1) hm.symm
  obtain ⟨x, hx⟩ := List.exists_mem_of_length_pos (l := l₂'.take (k + 1)) (by
    have := congrArg List.length hl₁
    rw [List.length_append] at this
    omega)
  obtain ⟨y, hy⟩ := List.exists_mem_of_length_pos (l := r₁'.take (m + 1)) (by
    have := congrArg List.length hr₂
    rw [List.length_append] at this
    omega)
  have hle : f x ≤ f y := h₁.left x (by rw [hl₁]; exact List.mem_append_right _ hx) y
    (List.mem_of_mem_take hy)
  have hlt : f y < f x := h₂.right y (by rw [hr₂]; exact List.mem_append_right _ hy) x
    (List.mem_of_mem_take hx)
  omega

theorem bidirectionalMerge_perm (lt : α → α → Bool) {out : List α} (hle : l.length ≤ r.length)
    (hge : r.length ≤ l.length + 1) (h : bidirectionalMerge lt l r = some out) :
    out.Perm (l ++ r) := by
  have hn : (l.length + r.length) / 2 = l.length := by omega
  obtain ⟨l₁, r₁, hl₁, hr₁, -, hup, -⟩ := mergeUp_spec lt l.length l r le_rfl hle
  obtain ⟨l₂, r₂, hl₂, hr₂, -, hdown, -⟩ := mergeDown_spec lt (le_refl l.length) hle
  rw [bidirectionalMerge, hn] at h
  generalize hmu : mergeUp lt l.length l r = mu at h hl₁ hr₁ hup
  generalize hmd : mergeDown lt l.length l r = md at h hl₂ hr₂ hdown
  obtain ⟨up, l', r'⟩ := mu
  obtain ⟨down, l'', r''⟩ := md
  simp only at hl₁ hr₁ hl₂ hr₂ hup hdown
  rw [Option.ite_none_right_eq_some] at h
  obtain ⟨⟨hl, hr⟩, h⟩ := h
  obtain rfl := Option.some.inj h
  have hlen := congrArg List.length hl₁
  have hlen' := congrArg List.length hr₁
  rw [List.length_append] at hlen hlen'
  generalize (if l.length - l'.length < l''.length then (l.length + r.length) % 2 else 0) = i at *
  generalize (l.length + r.length) % 2 - i = j at *
  -- the ends have met: what was not taken from the front is the middle and what was taken from
  -- the end
  obtain ⟨-, hl'⟩ := append_gap (hl₁.symm.trans hl₂) (k := i) (by omega)
  obtain ⟨-, hr'⟩ := append_gap (hr₁.symm.trans hr₂) (k := j) (by omega)
  refine (hup.append ((List.Perm.refl (l'.take i ++ r'.take j)).append hdown)).trans ?_
  classical
  rw [List.perm_iff_count]
  intro x
  have hcl := congrArg (List.count x) hl₁
  have hcr := congrArg (List.count x) hr₁
  have hcl' := congrArg (List.count x) hl'
  have hcr' := congrArg (List.count x) hr'
  simp only [List.count_append] at hcl hcr hcl' hcr' ⊢
  omega

/-- What is taken from the front, the one element between, and what is taken from the end. -/
theorem SortsTo.append_between {ml mr up down : List α} (hone : ml.length + mr.length ≤ 1)
    (hup : SortsTo f (l₁ ++ r₁) up) (hdown : SortsTo f (l₂ ++ r₂) down)
    (hcut₁ : Cut f l₁ (ml ++ l₂) r₁ (mr ++ r₂)) (hcut₂ : Cut f (l₁ ++ ml) l₂ (r₁ ++ mr) r₂)
    (hl : (l₁ ++ (ml ++ l₂)).Pairwise fun a b => f a ≤ f b)
    (hr : (r₁ ++ (mr ++ r₂)).Pairwise fun a b => f a ≤ f b) :
    SortsTo f ((l₁ ++ (ml ++ l₂)) ++ (r₁ ++ (mr ++ r₂))) (up ++ ((ml ++ mr) ++ down)) := by
  obtain ⟨-, hl₂, hl⟩ := List.pairwise_append.1 hl
  obtain ⟨-, hr₂, hr⟩ := List.pairwise_append.1 hr
  have hmid : SortsTo f (ml ++ mr) (ml ++ mr) := by
    refine ⟨?_, fun _ => rfl⟩
    rw [← List.length_append] at hone
    rcases Nat.le_one_iff_eq_zero_or_eq_one.1 hone with h | h
    · rw [List.length_eq_zero_iff.1 h]
      exact List.Pairwise.nil
    · obtain ⟨x, hx⟩ := List.length_eq_one_iff.1 h
      rw [hx]
      exact List.pairwise_singleton _ x
  have hrest := hmid.append hdown (List.pairwise_append.1 hl₂).2.2 (List.pairwise_append.1 hr₂).2.2
    (fun a ha => hcut₂.left a (List.mem_append_right _ ha))
    (fun b hb => hcut₂.right b (List.mem_append_right _ hb))
  exact hup.append hrest hl hr hcut₁.left hcut₁.right

/-- Sorted slices are merged into what both sort to. -/
theorem bidirectionalMerge_sorts (hle : l.length ≤ r.length) (hge : r.length ≤ l.length + 1)
    (h : Orders lt f l r) :
    ∃ out, bidirectionalMerge lt l r = some out ∧ SortsTo f (l ++ r) out := by
  have hn : (l.length + r.length) / 2 = l.length := by omega
  obtain ⟨l₁, r₁, hl₁, hr₁, hlen₁, -, hup⟩ := mergeUp_spec lt l.length l r le_rfl hle
  obtain ⟨l₂, r₂, hl₂, hr₂, hlen₂, -, hdown⟩ := mergeDown_spec lt (le_refl l.length) hle
  obtain ⟨hup, hcut₁⟩ := hup f h
  obtain ⟨hdown, hcut₂⟩ := hdown f h
  rw [bidirectionalMerge, hn]
  generalize hmu : mergeUp lt l.length l r = mu at *
  generalize hmd : mergeDown lt l.length l r = md at *
  obtain ⟨up, l', r'⟩ := mu
  obtain ⟨down, l'', r''⟩ := md
  simp only at hl₁ hr₁ hl₂ hr₂ hup hdown hcut₁ hcut₂ ⊢
  -- neither end has gone past the other
  have hcross₁ := hcut₁.not_cross hcut₂ (hl₂.symm.trans hl₁) (hr₁.symm.trans hr₂)
  have hcross₂ := hcut₂.not_cross hcut₁ (hl₁.symm.trans hl₂) (hr₂.symm.trans hr₁)
  have hlenl₁ := congrArg List.length hl₁
  have hlenr₁ := congrArg List.length hr₁
  have hlenl₂ := congrArg List.length hl₂
  have hlenr₂ := congrArg List.length hr₂
  rw [List.length_append] at hlenl₁ hlenr₁ hlenl₂ hlenr₂
  obtain ⟨i, j, hi, hj, hij, hli, hrj⟩ : ∃ i j,
      (if l.length - l'.length < l''.length then (l.length + r.length) % 2 else 0) = i ∧
        (l.length + r.length) % 2 - i = j ∧ i + j ≤ 1 ∧
        l₁.length + i = l''.length ∧ r₁.length + j = r''.length := by
    refine ⟨_, _, rfl, rfl, ?_⟩
    split <;> omega
  rw [hi, hj, if_pos ⟨by omega, by omega⟩]
  refine ⟨_, rfl, ?_⟩
  obtain ⟨hl'', hl'⟩ := append_gap (hl₁.symm.trans hl₂) hli
  obtain ⟨hr'', hr'⟩ := append_gap (hr₁.symm.trans hr₂) hrj
  have hmid : (l'.take i).length + (r'.take j).length ≤ 1 :=
    (Nat.add_le_add (List.length_take_le i l') (List.length_take_le j r')).trans hij
  rw [hl'', hr''] at hcut₂
  have hleft := h.left
  have hright := h.right
  rw [hl₁] at hleft ⊢
  rw [hr₁] at hright ⊢
  have hout := SortsTo.append_between hmid hup hdown (by rwa [← hl', ← hr']) hcut₂
    (by rwa [← hl']) (by rwa [← hr'])
  rwa [← hl', ← hr'] at hout

end Merging

/-! ## The sort -/

section Slices

variable {lt : α → α → Bool} {f : α → Int}

/-- An element that comes after the others is inserted behind those with its key. -/
theorem insertTail_sorts {s : List α} {x : α} (hs : s.Pairwise fun a b => f a ≤ f b)
    (hlt : ∀ y ∈ s, lt x y = decide (f x < f y)) :
    SortsTo f (s ++ [x]) (insertTail lt x s.reverse).reverse := by
  induction s using List.reverseRecOn with
  | nil => exact SortsTo.singleton x
  | append_singleton s y ih =>
      obtain ⟨hs, -, hsy⟩ := List.pairwise_append.1 hs
      have hxy := hlt y (by simp)
      rw [List.reverse_append, List.reverse_singleton, List.singleton_append, insertTail]
      by_cases hlt' : f x < f y
      · -- the last element stays last
        rw [hxy, decide_eq_true hlt', if_pos rfl, List.reverse_cons]
        have hins := ih hs fun z hz => hlt z (List.mem_append_left _ hz)
        have hlast : SortsTo f ([y] ++ []) [y] := SortsTo.singleton y
        have hout := hins.append hlast hsy (fun _ _ _ hb => absurd hb List.not_mem_nil)
          (fun _ _ _ hb => absurd hb List.not_mem_nil)
          (fun b hb a ha => by rwa [List.mem_singleton.1 hb, List.mem_singleton.1 ha])
        rwa [List.append_nil] at hout
      · rw [hxy, decide_eq_false hlt', if_neg Bool.false_ne_true]
        simp only [List.reverse_cons, List.reverse_reverse]
        refine ⟨?_, fun _ => rfl⟩
        have hfirst := List.pairwise_append.2 ⟨hs, List.pairwise_singleton _ _, hsy⟩
        refine List.pairwise_append.2 ⟨hfirst, List.pairwise_singleton _ _, fun a ha b hb => ?_⟩
        rw [List.mem_singleton.1 hb]
        rcases List.mem_append.1 ha with ha | ha
        · exact (hsy a ha y (List.mem_singleton_self y)).trans (not_lt.1 hlt')
        · rw [List.mem_singleton.1 ha]
          exact not_lt.1 hlt'

theorem SortsTo.append_right {as bs out : List α} (h : SortsTo f as bs) {x : α}
    (hout : SortsTo f (bs ++ [x]) out) : SortsTo f (as ++ [x]) out :=
  ⟨hout.sorted, fun k => by
    rw [hout.same, List.filter_append, List.filter_append, h.same]⟩

theorem insertEach_sorts {as s xs : List α} (hs : SortsTo f as s)
    (hlt : ∀ a ∈ as ++ xs, ∀ b ∈ as ++ xs, lt a b = decide (f a < f b)) :
    SortsTo f (as ++ xs) (insertEach lt s xs) := by
  unfold insertEach
  induction xs generalizing as s with
  | nil => simpa using hs
  | cons x xs ih =>
      have hins : SortsTo f (as ++ [x]) (insertTail lt x s.reverse).reverse := by
        refine hs.append_right (insertTail_sorts hs.sorted fun y hy => hlt x (by simp) y ?_)
        exact List.mem_append_left _ (hs.mem_iff.1 hy)
      have := ih hins (by simpa using hlt)
      rwa [List.reverse_reverse, List.append_assoc, List.singleton_append] at this

theorem mergePairs_sorts {a b c d : α} (hab : f a ≤ f b) (hcd : f c ≤ f d)
    (hlt : ∀ x ∈ [a, b, c, d], ∀ y ∈ [a, b, c, d], lt x y = decide (f x < f y)) :
    SortsTo f [a, b, c, d] (mergePairs lt a b c d) := by
  simp only [List.mem_cons, List.not_mem_nil, or_false, forall_eq_or_imp, forall_eq] at hlt
  have hsorted : ∀ {w x y z : α}, f w ≤ f x → f x ≤ f y → f y ≤ f z →
      [w, x, y, z].Pairwise fun a b => f a ≤ f b := by
    intro w x y z hwx hxy hyz
    simp
    omega
  unfold mergePairs
  by_cases h₃ : f c < f a <;> by_cases h₄ : f d < f b <;>
    simp only [hlt, h₃, h₄, decide_true, decide_false, if_true, Bool.false_eq_true, if_false,
      decide_eq_true_eq]
  · -- `c` is the least and `b` the greatest
    have hsame : SameByKey f [c, a, d, b] [a, b, c, d] :=
      (((SameByKey.swap (by omega) _).cons a).cons c).trans
        ((SameByKey.swap (by omega) _).trans ((SameByKey.swap (by omega) _).cons a))
    by_cases h₅ : f d < f a
    · rw [if_pos h₅, if_pos h₅]
      exact ⟨hsorted hcd h₅.le hab, ((SameByKey.swap (by omega) _).cons c).trans hsame⟩
    · rw [if_neg h₅, if_neg h₅]
      exact ⟨hsorted h₃.le (by omega) h₄.le, hsame⟩
  · -- `c` goes before the first pair
    rw [if_neg (by omega), if_neg (by omega)]
    exact ⟨hsorted h₃.le hab (by omega),
      (SameByKey.swap (by omega) _).trans ((SameByKey.swap (by omega) _).cons a)⟩
  · -- `b` goes behind the second pair
    rw [if_neg (by omega), if_neg (by omega)]
    refine ⟨hsorted (by omega) hcd h₄.le, SameByKey.cons ?_ a⟩
    exact ((SameByKey.swap (by omega) _).cons c).trans (SameByKey.swap (by omega) _)
  · by_cases h₅ : f c < f b
    · rw [if_pos h₅, if_pos h₅]
      exact ⟨hsorted (by omega) h₅.le (by omega), (SameByKey.swap (by omega) _).cons a⟩
    · rw [if_neg h₅, if_neg h₅]
      exact ⟨hsorted hab (by omega) hcd, fun _ => rfl⟩

theorem sort4_sorts {v₀ v₁ v₂ v₃ : α}
    (hlt : ∀ x ∈ [v₀, v₁, v₂, v₃], ∀ y ∈ [v₀, v₁, v₂, v₃], lt x y = decide (f x < f y)) :
    SortsTo f [v₀, v₁, v₂, v₃] (sort4 lt v₀ v₁ v₂ v₃) := by
  have hpair : ∀ {x y : α}, lt y x = decide (f y < f x) →
      f (if lt y x then y else x) ≤ f (if lt y x then x else y) ∧
        ∀ as, SameByKey f ((if lt y x then y else x) :: (if lt y x then x else y) :: as)
          (x :: y :: as) := by
    intro x y hyx
    by_cases h : f y < f x
    · rw [hyx, decide_eq_true h, if_pos rfl, if_pos rfl]
      exact ⟨h.le, fun as => SameByKey.swap (by omega) as⟩
    · rw [hyx, decide_eq_false h, if_neg Bool.false_ne_true, if_neg Bool.false_ne_true]
      exact ⟨not_lt.1 h, fun _ _ => rfl⟩
  obtain ⟨hab, hsame⟩ := hpair (hlt v₁ (by simp) v₀ (by simp))
  obtain ⟨hcd, hsame'⟩ := hpair (hlt v₃ (by simp) v₂ (by simp))
  have hmem : ∀ x ∈ [if lt v₁ v₀ then v₁ else v₀, if lt v₁ v₀ then v₀ else v₁,
      if lt v₃ v₂ then v₃ else v₂, if lt v₃ v₂ then v₂ else v₃], x ∈ [v₀, v₁, v₂, v₃] := by
    have hite : ∀ (c : Bool) {x y : α}, x ∈ [v₀, v₁, v₂, v₃] → y ∈ [v₀, v₁, v₂, v₃] →
        (if c then x else y) ∈ [v₀, v₁, v₂, v₃] := by
      intro c x y hx hy
      cases c with
      | true => exact hx
      | false => exact hy
    intro x hx
    simp only [List.mem_cons, List.not_mem_nil, or_false] at hx
    rcases hx with rfl | rfl | rfl | rfl <;> exact hite _ (by simp) (by simp)
  have hmerge := mergePairs_sorts hab hcd fun x hx y hy => hlt x (hmem x hx) y (hmem y hy)
  exact ⟨hmerge.sorted, hmerge.same.trans ((hsame _).trans (((hsame' _).cons v₁).cons v₀))⟩

theorem sortHalf_sorts {v : List α} (hlt : ∀ x ∈ v, ∀ y ∈ v, lt x y = decide (f x < f y)) :
    SortsTo f v (sortHalf lt v) := by
  unfold sortHalf
  split
  · rename_i v₀ v₁ v₂ v₃ rest
    refine insertEach_sorts (sort4_sorts fun x hx y hy => ?_) hlt
    exact hlt x (List.mem_append_left rest hx) y (List.mem_append_left rest hy)
  · exact insertEach_sorts SortsTo.nil hlt

/-- The lengths of the halves. -/
theorem length_halves (lt : α → α → Bool) (v : List α) :
    (sortHalf lt (v.take (v.length / 2))).length ≤ (sortHalf lt (v.drop (v.length / 2))).length ∧
      (sortHalf lt (v.drop (v.length / 2))).length ≤
        (sortHalf lt (v.take (v.length / 2))).length + 1 := by
  rw [(sortHalf_perm lt _).length_eq, (sortHalf_perm lt _).length_eq, List.length_take,
    List.length_drop]
  omega

theorem smallSort_perm {v out : List α} (h : smallSort lt v = some out) : out.Perm v := by
  obtain ⟨hle, hge⟩ := length_halves lt v
  refine (bidirectionalMerge_perm lt hle hge h).trans ?_
  refine ((sortHalf_perm lt _).append (sortHalf_perm lt _)).trans ?_
  rw [List.take_append_drop]

theorem smallSort_sorts {v : List α} (hlt : ∀ x ∈ v, ∀ y ∈ v, lt x y = decide (f x < f y)) :
    ∃ out, smallSort lt v = some out ∧ SortsTo f v out := by
  obtain ⟨hle, hge⟩ := length_halves lt v
  have hl := sortHalf_sorts (v := v.take (v.length / 2)) fun x hx y hy =>
    hlt x (List.mem_of_mem_take hx) y (List.mem_of_mem_take hy)
  have hr := sortHalf_sorts (v := v.drop (v.length / 2)) fun x hx y hy =>
    hlt x (List.mem_of_mem_drop hx) y (List.mem_of_mem_drop hy)
  obtain ⟨out, hout, hsorts⟩ := bidirectionalMerge_sorts hle hge ⟨hl.sorted, hr.sorted,
    fun a ha b hb => hlt b (List.mem_of_mem_drop (hr.mem_iff.1 hb)) a
      (List.mem_of_mem_take (hl.mem_iff.1 ha))⟩
  refine ⟨out, hout, hsorts.sorted, fun k => ?_⟩
  rw [hsorts.same k, List.filter_append, hl.same k, hr.same k, ← List.filter_append,
    List.take_append_drop]

/-- A run that is the whole slice. -/
theorem isChain_of_runLength {r : α → α → Bool} :
    ∀ {v : List α}, runLength r v = v.length → v.IsChain fun a b => r a b = true
  | [], _ => .nil
  | [_], _ => .singleton _
  | a :: b :: rest, h => by
      rw [runLength] at h
      split at h
      · rename_i hab
        rw [List.length_cons, Nat.add_right_cancel_iff] at h
        exact .cons_cons hab (isChain_of_runLength h)
      · simp at h

theorem SortsTo.of_isChain_le {v : List α} (h : v.IsChain fun a b => f a ≤ f b) :
    SortsTo f v v := by
  have : Trans (fun a b => f a ≤ f b) (fun a b => f a ≤ f b) (fun a b => f a ≤ f b) :=
    ⟨fun hab hbc => hab.trans hbc⟩
  exact ⟨List.isChain_iff_pairwise.1 h, fun _ => rfl⟩

/-- The elements of a run that descends strictly have different keys. -/
theorem SortsTo.of_isChain_gt {v : List α} (h : v.IsChain fun a b => f b < f a) :
    SortsTo f v v.reverse := by
  have : Trans (fun a b => f b < f a) (fun a b => f b < f a) (fun a b => f b < f a) :=
    ⟨fun hab hbc => hbc.trans hab⟩
  have hpair := List.isChain_iff_pairwise.1 h
  refine ⟨List.pairwise_reverse.2 (hpair.imp le_of_lt), fun k => ?_⟩
  rw [List.filter_reverse]
  have hkey := hpair.filter fun a => decide (f a = k)
  match hk : v.filter fun a => decide (f a = k) with
  | [] => rfl
  | [_] => rfl
  | a :: b :: rest =>
      -- two elements of one key cannot descend strictly
      have hmem : ∀ x ∈ a :: b :: rest, f x = k := by
        rw [← hk]
        exact fun x hx => of_decide_eq_true (List.mem_filter.1 hx).2
      rw [hk] at hkey
      have hab := (List.pairwise_cons.1 hkey).1 b (by simp)
      have ha := hmem a (by simp)
      have hb := hmem b (by simp)
      omega

theorem straighten_sorts {v : List α} (hlt : ∀ x ∈ v, ∀ y ∈ v, lt x y = decide (f x < f y))
    (hrun : existingRun lt v = v.length) : SortsTo f v (straighten lt v) := by
  unfold existingRun at hrun
  unfold straighten
  split_ifs at hrun ⊢
  · refine SortsTo.of_isChain_gt ((isChain_of_runLength hrun).imp_of_mem_imp ?_)
    intro x y hx hy hyx
    exact of_decide_eq_true ((hlt y hy x hx).symm.trans hyx)
  · refine SortsTo.of_isChain_le ((isChain_of_runLength hrun).imp_of_mem_imp ?_)
    intro x y hx hy hyx
    rw [hlt y hy x hx, Bool.not_eq_true', decide_eq_false_iff_not] at hyx
    exact not_lt.1 hyx

end Slices

/-! ## Comparators -/

section Comparators

variable {cmp : α → α → Ordering} {as bs : List α}

/-- The comparator is a total preorder on the elements of the list. -/
structure TotalOn (cmp : α → α → Ordering) (as : List α) : Prop where
  swap : ∀ a ∈ as, ∀ b ∈ as, cmp a b = (cmp b a).swap
  trans : ∀ a ∈ as, ∀ b ∈ as, ∀ c ∈ as, cmp a b ≠ .gt → cmp b c ≠ .gt → cmp a c ≠ .gt

theorem TotalOn.perm (h : TotalOn cmp as) (hperm : as.Perm bs) : TotalOn cmp bs where
  swap a ha b hb := h.swap a (hperm.mem_iff.2 ha) b (hperm.mem_iff.2 hb)
  trans a ha b hb c hc :=
    h.trans a (hperm.mem_iff.2 ha) b (hperm.mem_iff.2 hb) c (hperm.mem_iff.2 hc)

theorem TotalOn.lt_iff (h : TotalOn cmp as) {a b : α} (ha : a ∈ as) (hb : b ∈ as) :
    cmp a b = .lt ↔ ¬ cmp b a ≠ .gt := by
  rw [h.swap a ha b hb]
  cases cmp b a <;> simp

/-- How many elements of the list are below an element. -/
def rank (cmp : α → α → Ordering) (as : List α) (a : α) : Int :=
  as.countP fun x => cmp x a == .lt

/-- What is below an element is below what that element is not above. -/
theorem TotalOn.lt_of_lt_of_le (h : TotalOn cmp as) {a b x : α} (ha : a ∈ as) (hb : b ∈ as)
    (hx : x ∈ as) (hab : cmp a b ≠ .gt) (hxa : (cmp x a == .lt) = true) :
    (cmp x b == .lt) = true := by
  rw [beq_iff_eq, h.lt_iff hx ha] at hxa
  rw [beq_iff_eq, h.lt_iff hx hb]
  exact fun hbx => hxa (h.trans a ha b hb x hx hab hbx)

theorem TotalOn.rank_le (h : TotalOn cmp as) {a b : α} (ha : a ∈ as) (hb : b ∈ as)
    (hab : cmp a b ≠ .gt) : rank cmp as a ≤ rank cmp as b :=
  Int.ofNat_le.2 (List.countP_mono_left fun _ hx => h.lt_of_lt_of_le ha hb hx hab)

theorem TotalOn.rank_lt (h : TotalOn cmp as) {a b : α} (ha : a ∈ as) (hb : b ∈ as)
    (hab : cmp a b = .lt) : rank cmp as a < rank cmp as b := by
  have hmono : ∀ x ∈ as, (cmp x a == .lt) = true → (cmp x b == .lt) = true :=
    fun x hx => h.lt_of_lt_of_le ha hb hx (by rw [hab]; decide)
  -- `a` itself is below `b` and not below `a`
  have hself : (cmp a a == .lt) = false := by
    rw [beq_eq_false_iff_ne]
    intro hlt
    have := h.swap a ha a ha
    rw [hlt] at this
    cases this
  obtain ⟨s, t, rfl⟩ := List.append_of_mem ha
  have hs := List.countP_mono_left (l := s) fun x hx => hmono x (by simp [hx])
  have ht := List.countP_mono_left (l := t) fun x hx => hmono x (by simp [hx])
  simp only [rank, List.countP_append, List.countP_cons, hself, hab]
  simp
  omega

/-- The comparator goes by the rank. -/
theorem TotalOn.lt_eq (h : TotalOn cmp as) :
    ∀ a ∈ as, ∀ b ∈ as, (cmp a b == .lt) = decide (rank cmp as a < rank cmp as b) := by
  intro a ha b hb
  by_cases hab : cmp a b = .lt
  · rw [hab, decide_eq_true (h.rank_lt ha hb hab)]
    rfl
  · rw [beq_eq_false_iff_ne.2 hab]
    rw [h.lt_iff ha hb, not_not] at hab
    exact (decide_eq_false (not_lt.2 (h.rank_le hb ha hab))).symm

/-- The merge sort by the comparator is the stable sort by the rank. -/
theorem TotalOn.mergeSort_sorts (h : TotalOn cmp as) :
    SortsTo (rank cmp as) as (as.mergeSort fun a b => cmp a b != .gt) := by
  have hle : ∀ a ∈ as, ∀ b ∈ as,
      (cmp a b != .gt) = decide (rank cmp as (id a) ≤ rank cmp as (id b)) := by
    intro a ha b hb
    rw [id, id]
    by_cases hab : cmp a b = .gt
    · have hba : cmp b a = .lt := by rw [h.swap b hb a ha, hab]; rfl
      rw [hab, decide_eq_false (not_le.2 (h.rank_lt hb ha hba))]
      rfl
    · rw [bne_iff_ne.2 hab, decide_eq_true (h.rank_le ha hb hab)]
  have hsort := List.map_mergeSort (s := fun a b => decide (rank cmp as a ≤ rank cmp as b)) hle
  rw [List.map_id, List.map_id] at hsort
  rw [hsort]
  exact sortsTo_mergeSort _ as

theorem sliceSort_perm (h : sliceSort cmp as = some bs) : bs.Perm as := by
  simp only [sliceSort] at h
  split_ifs at h
  · rw [← Option.some.inj h]
    exact insertEach_perm _ _ _
  · rw [← Option.some.inj h, straighten]
    split_ifs
    · exact List.reverse_perm _
    · exact List.Perm.refl _
  · exact smallSort_perm h
  · rw [← Option.some.inj h]
    exact List.mergeSort_perm _ _

/-- With a total comparator the sort is the stable merge sort. -/
theorem sliceSort_eq_mergeSort (h : TotalOn cmp as) :
    sliceSort cmp as = some (as.mergeSort fun a b => cmp a b != .gt) := by
  have hlt := h.lt_eq
  have hmerge := h.mergeSort_sorts
  -- every branch sorts stably by the rank, and there is one such result
  simp only [sliceSort]
  split_ifs with _ hrun
  · rw [(insertEach_sorts SortsTo.nil hlt).unique hmerge]
  · rw [(straighten_sorts hlt hrun).unique hmerge]
  · obtain ⟨out, hout, hsorts⟩ := smallSort_sorts hlt
    rw [hout, hsorts.unique hmerge]
  · rfl

end Comparators

end Morceau.Lib
