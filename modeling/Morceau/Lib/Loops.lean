import Mathlib.Data.List.Sort
import Morceau.Lib.EState

/-!
# Loops that collect results

`collectLoop f limit` runs a fallible step over a list and collects what the steps give, where a
step may give nothing. With a limit the loop ends once that many results are out; the limit is
tested after a result is pushed, so a limit of zero lets one result through. A loop with a limit
gives a prefix of what the loop without one gives (`collectLoop_limit`).

Two runs are alike when both fail, or both succeed with related values (`Alike`). Without a limit
the order of the list does not matter, up to the order of the results (`collectLoop_alike`), and
sorting by keys that are totally ordered and pairwise different forgets the order of the list
altogether (`mergeSort_eq_of_perm`).
-/

set_option autoImplicit false

namespace Morceau.Lib

universe u

variable {ε α β : Type u}

/-- Run the step over the list; `kept` results are out already. -/
def collectLoop (f : α → Except ε (Option β)) (limit : Option Nat) :
    Nat → List α → Except ε (List β)
  | _, [] => .ok []
  | kept, a :: as => do
      match ← f a with
      | none => collectLoop f limit kept as
      | some b =>
          match limit with
          | some l =>
              if l ≤ kept + 1 then pure [b]
              else do
                let out ← collectLoop f limit (kept + 1) as
                pure (b :: out)
          | none => do
              let out ← collectLoop f limit (kept + 1) as
              pure (b :: out)

section Collect

variable {f : α → Except ε (Option β)}

/-- Without a limit every step is run, and it does not matter how many results are out already. -/
theorem collectLoop_none (as : List α) : ∀ kept, collectLoop f none kept as =
    (as.mapM f).map List.reduceOption := by
  induction as with
  | nil => exact fun _ => rfl
  | cons a as ih =>
      intro kept
      rw [collectLoop, List.mapM_cons]
      cases f a with
      | error err => rfl
      | ok r =>
          cases r with
          | none =>
              refine (ih kept).trans ?_
              cases as.mapM f <;> rfl
          | some b =>
              show (collectLoop f none (kept + 1) as >>= _) = _
              rw [ih]
              cases as.mapM f <;> rfl

theorem collectLoop_cons_eq_ok_iff {kept : Nat} {a : α} {as : List α} {out : List β} :
    collectLoop f none kept (a :: as) = .ok out ↔
      ∃ r rest, f a = .ok r ∧ collectLoop f none (kept + 1) as = .ok rest ∧
        out = r.toList ++ rest := by
  rw [collectLoop, exceptBind_eq_ok_iff]
  constructor
  · rintro ⟨r, hr, hout⟩
    cases r with
    | none => exact ⟨none, out, hr, by rwa [collectLoop_none] at hout ⊢, rfl⟩
    | some b =>
        obtain ⟨rest, hrest, hout⟩ := exceptBind_eq_ok_iff.1 hout
        cases hout
        exact ⟨some b, rest, hr, hrest, rfl⟩
  · rintro ⟨r, rest, hr, hrest, rfl⟩
    refine ⟨r, hr, ?_⟩
    cases r with
    | none => rwa [collectLoop_none] at hrest ⊢
    | some b => exact exceptBind_eq_ok_iff.2 ⟨rest, hrest, rfl⟩

/-- A loop whose steps all succeed succeeds. -/
theorem collectLoop_succeeds {as : List α} :
    ∀ (kept : Nat), (∀ a ∈ as, ∃ r, f a = .ok r) → ∃ out, collectLoop f none kept as = .ok out := by
  induction as with
  | nil => exact fun _ _ => ⟨[], rfl⟩
  | cons a as ih =>
      intro kept h
      obtain ⟨r, hr⟩ := h a (by simp)
      obtain ⟨rest, hrest⟩ := ih (kept + 1) fun b hb => h b (by simp [hb])
      exact ⟨_, collectLoop_cons_eq_ok_iff.2 ⟨r, rest, hr, hrest, rfl⟩⟩

/-- A `mapM` that succeeds has succeeded on every element. -/
theorem mapM_ok {g : α → Except ε β} {as : List α} :
    ∀ {bs : List β}, as.mapM g = .ok bs → ∀ a ∈ as, ∃ b ∈ bs, g a = .ok b := by
  induction as with
  | nil => exact fun _ a ha => absurd ha List.not_mem_nil
  | cons a as ih =>
      intro bs h a' ha'
      rw [List.mapM_cons] at h
      obtain ⟨b, hb, h⟩ := exceptBind_eq_ok_iff.1 h
      obtain ⟨bs', hbs', h⟩ := exceptBind_eq_ok_iff.1 h
      cases h
      rcases List.mem_cons.1 ha' with rfl | ha'
      · exact ⟨b, List.mem_cons_self, hb⟩
      · obtain ⟨b', hb', hg⟩ := ih hbs' a' ha'
        exact ⟨b', List.mem_cons_of_mem b hb', hg⟩

/-- A `mapM` succeeds exactly with the results of its steps, in order. -/
theorem mapM_eq_ok_iff {g : α → Except ε β} {as : List α} :
    ∀ {bs : List β}, as.mapM g = .ok bs ↔ List.Forall₂ (fun a b => g a = .ok b) as bs := by
  induction as with
  | nil =>
      intro bs
      constructor
      · intro h
        cases h
        exact .nil
      · intro h
        cases h
        rfl
  | cons a as ih =>
      intro bs
      rw [List.mapM_cons, exceptBind_eq_ok_iff]
      constructor
      · rintro ⟨b, hb, h⟩
        obtain ⟨bs', hbs', h⟩ := exceptBind_eq_ok_iff.1 h
        cases h
        exact .cons hb (ih.1 hbs')
      · intro h
        cases h with
        | cons hb hbs => exact ⟨_, hb, exceptBind_eq_ok_iff.2 ⟨_, ih.2 hbs, rfl⟩⟩

/-- The results of a `mapM` are results of its steps. -/
theorem mem_mapM {g : α → Except ε β} {as : List α} {bs : List β} (h : as.mapM g = .ok bs) :
    ∀ b ∈ bs, ∃ a ∈ as, g a = .ok b := by
  have hall := mapM_eq_ok_iff.1 h
  clear h
  induction hall with
  | nil => exact fun b hb => absurd hb List.not_mem_nil
  | @cons a b as bs hab _ ih =>
      intro b' hb'
      rcases List.mem_cons.1 hb' with rfl | hb'
      · exact ⟨a, List.mem_cons_self, hab⟩
      · obtain ⟨a', ha', hab'⟩ := ih b' hb'
        exact ⟨a', List.mem_cons_of_mem a ha', hab'⟩

/-- A `mapM` whose steps are those of a function that does not fail. -/
theorem mapM_eq_map {g : α → Except ε β} {f : α → β} {as : List α}
    (h : ∀ a ∈ as, g a = .ok (f a)) : as.mapM g = .ok (as.map f) :=
  mapM_eq_ok_iff.2 (List.forall₂_map_right_iff.2 (List.forall₂_same.2 h))

/-- A `mapM` whose steps all succeed succeeds. -/
theorem mapM_succeeds {g : α → Except ε β} {as : List α} (h : ∀ a ∈ as, ∃ b, g a = .ok b) :
    ∃ bs, as.mapM g = .ok bs := by
  induction as with
  | nil => exact ⟨[], rfl⟩
  | cons a as ih =>
      obtain ⟨b, hb⟩ := h a List.mem_cons_self
      obtain ⟨bs, hbs⟩ := ih fun a' ha' => h a' (List.mem_cons_of_mem a ha')
      exact ⟨b :: bs, mapM_eq_ok_iff.2 (.cons hb (mapM_eq_ok_iff.1 hbs))⟩

theorem length_mapM {g : α → Except ε β} {as : List α} {bs : List β} (h : as.mapM g = .ok bs) :
    bs.length = as.length :=
  (mapM_eq_ok_iff.1 h).length_eq.symm

/-- Two `mapM` over one list with the same results have them from the same elements. -/
theorem exists_common_of_mapM {g g' : α → Except ε β} {as : List α} {bs : List β}
    (h : as.mapM g = .ok bs) (h' : as.mapM g' = .ok bs) {a : α} (ha : a ∈ as) :
    ∃ b, g a = .ok b ∧ g' a = .ok b := by
  have hall := mapM_eq_ok_iff.1 h
  have hall' := mapM_eq_ok_iff.1 h'
  clear h h'
  induction hall with
  | nil => exact absurd ha List.not_mem_nil
  | @cons _ b _ _ hb _ ih =>
      obtain ⟨hb', hrest⟩ := List.forall₂_cons.1 hall'
      rcases List.mem_cons.1 ha with rfl | ha
      · exact ⟨b, hb, hb'⟩
      · exact ih ha hrest

/-- What a loop without a limit collects. -/
theorem mem_collectLoop {as : List α} {b : β} :
    ∀ {kept : Nat} {out : List β}, collectLoop f none kept as = .ok out →
      (b ∈ out ↔ ∃ a ∈ as, f a = .ok (some b)) := by
  induction as with
  | nil =>
      intro kept out h
      cases h
      simp
  | cons a as ih =>
      intro kept out h
      obtain ⟨r, rest, hr, hrest, rfl⟩ := collectLoop_cons_eq_ok_iff.1 h
      rw [List.mem_append, ih hrest, Option.mem_toList]
      simp [hr]

/-- Two loops under one limit, the first over the elements that `keep` lets through. What the second
collects is let through and collected by the first; what the second passes over is not let through,
or is passed over by the first too. Then the loops collect the same. -/
theorem collectLoop_filter_eq {g : α → Except ε (Option β)} {keep : α → Bool} {limit : Option Nat}
    {as : List α} : ∀ {kept : Nat} {out out' : List β},
      (∀ a ∈ as, ∀ b, g a = .ok (some b) → keep a = true ∧ f a = .ok (some b)) →
      (∀ a ∈ as, g a = .ok none → keep a = true → f a = .ok none) →
      collectLoop f limit kept (as.filter keep) = .ok out →
      collectLoop g limit kept as = .ok out' → out = out' := by
  induction as with
  | nil =>
      intro kept out out' _ _ h h'
      exact Except.ok.inj (h.symm.trans h')
  | cons a as ih =>
      intro kept out out' hsome hnone h h'
      have hsome' := fun b hb => hsome b (List.mem_cons_of_mem a hb)
      have hnone' := fun b hb => hnone b (List.mem_cons_of_mem a hb)
      rw [collectLoop] at h'
      obtain ⟨r, hr, h'⟩ := exceptBind_eq_ok_iff.1 h'
      cases r with
      | none =>
          cases hkeep : keep a with
          | false =>
              rw [List.filter_cons_of_neg (by simp [hkeep])] at h
              exact ih hsome' hnone' h h'
          | true =>
              rw [List.filter_cons_of_pos hkeep, collectLoop,
                hnone a List.mem_cons_self hr hkeep] at h
              exact ih hsome' hnone' h h'
      | some b =>
          obtain ⟨hkeep, hb⟩ := hsome a List.mem_cons_self b hr
          rw [List.filter_cons_of_pos hkeep, collectLoop] at h
          obtain ⟨r', hr', h⟩ := exceptBind_eq_ok_iff.1 h
          cases hb.symm.trans hr'
          -- both loops have collected the same, so both stop here or neither does
          cases limit with
          | none =>
              obtain ⟨rest, hrest, h⟩ := exceptBind_eq_ok_iff.1 h
              obtain ⟨rest', hrest', h'⟩ := exceptBind_eq_ok_iff.1 h'
              cases h
              cases h'
              rw [ih hsome' hnone' hrest hrest']
          | some l =>
              by_cases hl : l ≤ kept + 1
              · simp only [hl, if_true] at h h'
                exact Except.ok.inj (h.symm.trans h')
              · simp only [hl, if_false] at h h'
                obtain ⟨rest, hrest, h⟩ := exceptBind_eq_ok_iff.1 h
                obtain ⟨rest', hrest', h'⟩ := exceptBind_eq_ok_iff.1 h'
                cases h
                cases h'
                rw [ih hsome' hnone' hrest hrest']

/-- Without a limit, the first loop collects a part of the second if its results are among those of
the second. -/
theorem collectLoop_filter_sublist {g : α → Except ε (Option β)} {keep : α → Bool} {as : List α} :
    ∀ {kept kept' : Nat} {out out' : List β},
      (∀ a ∈ as, ∀ b, keep a = true → f a = .ok (some b) → ∀ r, g a = .ok r → r = some b) →
      collectLoop f none kept (as.filter keep) = .ok out →
      collectLoop g none kept' as = .ok out' → out.Sublist out' := by
  induction as with
  | nil =>
      intro kept kept' out out' _ h _
      cases h
      exact List.nil_sublist out'
  | cons a as ih =>
      intro kept kept' out out' hsome h h'
      have hsome' := fun b hb => hsome b (List.mem_cons_of_mem a hb)
      obtain ⟨r', rest', hr', hrest', rfl⟩ := collectLoop_cons_eq_ok_iff.1 h'
      cases hkeep : keep a with
      | false =>
          rw [List.filter_cons_of_neg (by simp [hkeep])] at h
          exact (ih hsome' h hrest').trans (List.sublist_append_right _ _)
      | true =>
          rw [List.filter_cons_of_pos hkeep] at h
          obtain ⟨r, rest, hr, hrest, rfl⟩ := collectLoop_cons_eq_ok_iff.1 h
          cases r with
          | none => exact (ih hsome' hrest hrest').trans (List.sublist_append_right _ _)
          | some b =>
              rw [hsome a List.mem_cons_self b hkeep hr r' hr']
              exact (ih hsome' hrest hrest').append_left _

/-- If every step gives a result, there are as many results as elements. -/
theorem length_collectLoop (hf : ∀ a, f a ≠ .ok none) {as : List α} :
    ∀ {kept : Nat} {out : List β}, collectLoop f none kept as = .ok out →
      out.length = as.length := by
  induction as with
  | nil =>
      intro kept out h
      cases h
      rfl
  | cons a as ih =>
      intro kept out h
      obtain ⟨r, rest, hr, hrest, rfl⟩ := collectLoop_cons_eq_ok_iff.1 h
      cases r with
      | none => exact absurd hr (hf a)
      | some b => simp [ih hrest]

/-- A loop with a limit gives the first results of the loop without one, and at least one. -/
theorem collectLoop_limit (l : Nat) {as : List α} : ∀ {kept kept' : Nat} {out : List β},
    collectLoop f none kept' as = .ok out →
      collectLoop f (some l) kept as = .ok (out.take (max (l - kept) 1)) := by
  induction as with
  | nil =>
      intro kept kept' out h
      cases h
      simp [collectLoop]
  | cons a as ih =>
      intro kept kept' out h
      obtain ⟨r, rest, hr, hrest, rfl⟩ := collectLoop_cons_eq_ok_iff.1 h
      rw [collectLoop, hr]
      cases r with
      | none => exact ih hrest
      | some b =>
          show (if l ≤ kept + 1 then _ else _) = _
          by_cases hl : l ≤ kept + 1
          · -- this result is the last
            rw [if_pos hl, Nat.max_eq_right (by omega)]
            rfl
          · have hrest : collectLoop f (some l) (kept + 1) as = _ := ih hrest
            have hmax : max (l - kept) 1 = max (l - (kept + 1)) 1 + 1 := by omega
            rw [if_neg hl, hrest, hmax]
            rfl

/-- If every step gives a result, the first results are those of the first elements. -/
theorem collectLoop_take (hf : ∀ a, f a ≠ .ok none) {as : List α} :
    ∀ (k : Nat) {kept : Nat} {out : List β}, collectLoop f none kept as = .ok out →
      collectLoop f none kept (as.take k) = .ok (out.take k) := by
  induction as with
  | nil =>
      intro k kept out h
      cases h
      simp [collectLoop]
  | cons a as ih =>
      intro k kept out h
      obtain ⟨r, rest, hr, hrest, rfl⟩ := collectLoop_cons_eq_ok_iff.1 h
      cases k with
      | zero => rfl
      | succ k =>
          cases r with
          | none => exact absurd hr (hf a)
          | some b =>
              exact collectLoop_cons_eq_ok_iff.2 ⟨some b, rest.take k, hr, ih k hrest, rfl⟩

end Collect

/-! ## Runs that are alike -/

/-- Both fail, or both succeed with related values. -/
def Alike (R : α → β → Prop) : Except ε α → Except ε β → Prop
  | .ok a, .ok b => R a b
  | .error _, .error _ => True
  | _, _ => False

namespace Alike

variable {α' β' : Type u} {R : α → β → Prop} {x : Except ε α} {y : Except ε β}

theorem refl {R : α → α → Prop} (hR : ∀ a, R a a) (x : Except ε α) : Alike R x x := by
  cases x with
  | ok a => exact hR a
  | error err => trivial

theorem bind {R' : α' → β' → Prop} {f : α → Except ε α'} {g : β → Except ε β'} (h : Alike R x y)
    (hf : ∀ a b, x = .ok a → y = .ok b → R a b → Alike R' (f a) (g b)) :
    Alike R' (x >>= f) (y >>= g) := by
  cases x with
  | ok a =>
      cases y with
      | ok b => exact hf a b rfl rfl h
      | error err => exact h.elim
  | error err =>
      cases y with
      | ok b => exact h.elim
      | error err' => trivial

theorem map {R' : α' → β' → Prop} {f : α → α'} {g : β → β'} (h : Alike R x y)
    (hf : ∀ a b, R a b → R' (f a) (g b)) : Alike R' (x.map f) (y.map g) := by
  cases x with
  | ok a =>
      cases y with
      | ok b => exact hf a b h
      | error err => exact h.elim
  | error err =>
      cases y with
      | ok b => exact h.elim
      | error err' => trivial

theorem trans_perm {x y z : Except ε (List α)} (h : Alike List.Perm x y)
    (h' : Alike List.Perm y z) : Alike List.Perm x z := by
  cases y with
  | ok bs =>
      -- both ends are successes, since the middle is one
      cases x with
      | error _ => exact h.elim
      | ok as =>
          cases z with
          | error _ => exact h'.elim
          | ok cs => exact List.Perm.trans h h'
  | error _ =>
      cases x with
      | ok _ => exact h.elim
      | error _ =>
          cases z with
          | ok _ => exact h'.elim
          | error _ => trivial

end Alike

/-- Running a step over every element of a list, in any order. -/
theorem mapM_alike (f : α → Except ε β) {as as' : List α} (h : as.Perm as') :
    Alike List.Perm (as.mapM f) (as'.mapM f) := by
  induction h with
  | nil => exact List.Perm.refl _
  | cons a _ ih =>
      rw [List.mapM_cons, List.mapM_cons]
      -- the step on the first element is the same on both sides
      refine Alike.bind (R := Eq) (Alike.refl (fun _ => rfl) (f a)) fun b b' _ _ hb => ?_
      subst hb
      exact ih.bind fun bs bs' _ _ hbs => hbs.cons b
  | swap a b as =>
      simp only [List.mapM_cons]
      cases f a <;> cases f b <;> cases as.mapM f <;> first | trivial | exact List.Perm.swap ..
  | trans _ _ ih ih' => exact ih.trans_perm ih'

/-- Collecting without a limit, in any order. -/
theorem collectLoop_alike (f : α → Except ε (Option β)) {as as' : List α} (h : as.Perm as')
    (kept : Nat) : Alike List.Perm (collectLoop f none kept as) (collectLoop f none kept as') := by
  rw [collectLoop_none, collectLoop_none]
  exact (mapM_alike f h).map fun _ _ hperm => hperm.filterMap _

/-- A filter that each element passes on to what it is expanded to. -/
theorem flatMap_filter_eq {h : α → List β} {k : α → Bool} {k' : β → Bool} {as : List α}
    (hk : ∀ a ∈ as, ∀ b ∈ h a, k' b = k a) :
    (as.filter k).flatMap h = (as.flatMap h).filter k' := by
  induction as with
  | nil => rfl
  | cons a as ih =>
      have ih := ih fun a' ha' => hk a' (List.mem_cons_of_mem a ha')
      rw [List.flatMap_cons, List.filter_append, ← ih]
      cases hka : k a with
      | true =>
          have hall : (h a).filter k' = h a :=
            List.filter_eq_self.2 fun b hb => (hk a List.mem_cons_self b hb).trans hka
          rw [List.filter_cons_of_pos hka, List.flatMap_cons, hall]
      | false =>
          have hnone : (h a).filter k' = [] :=
            List.filter_eq_nil_iff.2 fun b hb => by simp [hk a List.mem_cons_self b hb, hka]
          rw [List.filter_cons_of_neg (by simp [hka]), hnone, List.nil_append]

/-! ## Sorting -/

section Sorting

variable {p : α → Prop} {le : α → α → Bool}

/-- Sorting by an order that is total and transitive on the elements of the list. -/
theorem pairwise_mergeSort_of_mem (htrans : ∀ a b c, p a → p b → p c → le a b → le b c → le a c)
    (htotal : ∀ a b, p a → p b → le a b || le b a) {as : List α} (has : ∀ a ∈ as, p a) :
    (as.mergeSort le).Pairwise fun a b => le a b := by
  -- the order is total on the elements with `p`, so the list is sorted as a list of those
  let le' : Subtype p → Subtype p → Bool := fun a b => le a.1 b.1
  have hsorted : ((as.attachWith p has).mergeSort le').Pairwise fun a b => le' a b :=
    List.pairwise_mergeSort (fun a b c => htrans a.1 b.1 c.1 a.2 b.2 c.2)
      (fun a b => htotal a.1 b.1 a.2 b.2) _
  have hmap : ((as.attachWith p has).mergeSort le').map Subtype.val = as.mergeSort le := by
    rw [List.map_mergeSort (s := le) fun _ _ _ _ => rfl, List.attachWith_map_subtype_val]
  rw [← hmap]
  exact List.pairwise_map.2 hsorted

/-- Sorting by such an order leaves two elements that are in order where they are. -/
theorem pair_sublist_mergeSort_of_mem
    (htrans : ∀ a b c, p a → p b → p c → le a b → le b c → le a c)
    (htotal : ∀ a b, p a → p b → le a b || le b a) {as : List α} (has : ∀ a ∈ as, p a) {a b : α}
    (hab : le a b) (h : [a, b].Sublist as) : [a, b].Sublist (as.mergeSort le) := by
  let le' : Subtype p → Subtype p → Bool := fun a b => le a.1 b.1
  have hmap : ((as.attachWith p has).mergeSort le').map Subtype.val = as.mergeSort le := by
    rw [List.map_mergeSort (s := le) fun _ _ _ _ => rfl, List.attachWith_map_subtype_val]
  have ha := has a (h.subset (by simp))
  have hb := has b (h.subset (by simp))
  -- the two elements as elements with `p`
  have hpair : [(⟨a, ha⟩ : Subtype p), ⟨b, hb⟩].Sublist (as.attachWith p has) := by
    rw [← List.attachWith_map_subtype_val (l := as) (H := has)] at h
    obtain ⟨l, hl, heq⟩ := List.sublist_map_iff.1 h
    have hsame : l = [(⟨a, ha⟩ : Subtype p), ⟨b, hb⟩] :=
      List.map_injective_iff.2 Subtype.val_injective heq.symm
    exact hsame ▸ hl
  have hsorted : [(⟨a, ha⟩ : Subtype p), ⟨b, hb⟩].Sublist ((as.attachWith p has).mergeSort le') :=
    List.pair_sublist_mergeSort (fun a b c => htrans a.1 b.1 c.1 a.2 b.2 c.2)
      (fun a b => htotal a.1 b.1 a.2 b.2) hab hpair
  exact hmap ▸ hsorted.map Subtype.val

/-- Sorting by such an order, in which no two elements of the list are equal, forgets the order of
the list. -/
theorem mergeSort_eq_of_perm (htrans : ∀ a b c, p a → p b → p c → le a b → le b c → le a c)
    (htotal : ∀ a b, p a → p b → le a b || le b a) {as as' : List α} (h : as.Perm as')
    (has : ∀ a ∈ as, p a) (hanti : ∀ a ∈ as, ∀ b ∈ as, le a b → le b a → a = b) :
    as.mergeSort le = as'.mergeSort le := by
  have has' : ∀ a ∈ as', p a := fun a ha => has a (h.mem_iff.2 ha)
  have hperm : (as.mergeSort le).Perm (as'.mergeSort le) :=
    (List.mergeSort_perm as le).trans (h.trans (List.mergeSort_perm as' le).symm)
  refine List.Perm.eq_of_pairwise (fun a b ha hb => hanti a ?_ b ?_)
    (pairwise_mergeSort_of_mem htrans htotal has) (pairwise_mergeSort_of_mem htrans htotal has')
    hperm
  · exact List.mem_mergeSort.1 ha
  · exact h.mem_iff.2 (List.mem_mergeSort.1 hb)

end Sorting

end Morceau.Lib
