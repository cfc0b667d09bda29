import Mathlib.Data.List.Basic
import Morceau.Lib.EState

/-!
# Recursive-descent parsers

A parser is a fallible computation over a stream of tokens that looks at the next token and moves
past it. A grammar relates the tokens of a phrase to its tree. A parser is *sound* for such a
relation if the tokens it consumes on a success derive the tree it returns (`Sound`), and *complete*
up to `n` tokens if, on a stream of at most that many tokens that begins with a phrase, it reads
that phrase (`Complete`). Since a parser decides by the next token, completeness is relative to the
tokens that may follow the phrase.

The bound is what recursion goes through: a parser that is called on what is left after a token
needs to be complete up to one token less. The loops have their own rules: a loop that collects
items (`IsMany`), and one that folds them from the left and reads what a left-recursive rule derives
(`IsChain`).
-/

set_option autoImplicit false

namespace Morceau.Lib

universe u

/-- A stream of tokens: what comes next, the stream after it, and how many tokens are left. -/
class TokenStream (σ : Type u) (τ : outParam (Type u)) where
  next : σ → Option τ
  tail : σ → σ
  size : σ → Nat
  size_tail : ∀ s, (next s).isSome → size (tail s) + 1 = size s

open TokenStream

variable {ε σ τ α β : Type u}

/-! ## Phrases -/

/-- Phrases one after the other. -/
inductive Star (D : List τ → α → Prop) : List τ → List α → Prop where
  | nil : Star D [] []
  | cons {used more : List τ} {a : α} {as : List α} (head : D used a) (tail : Star D more as) :
      Star D (used ++ more) (a :: as)

/-- A phrase after a token. -/
inductive After (t : τ) (D : List τ → α → Prop) : List τ → α → Prop where
  | intro {used : List τ} {a : α} (h : D used a) : After t D (t :: used) a

/-- One or more phrases with a separator between them. -/
inductive SepBy (t : τ) (D : List τ → α → Prop) : List τ → List α → Prop where
  | one {used : List τ} {a : α} (h : D used a) : SepBy t D used [a]
  | cons {used more : List τ} {a : α} {as : List α} (head : D used a) (tail : SepBy t D more as) :
      SepBy t D (used ++ t :: more) (a :: as)

section Phrases

variable {D : List τ → α → Prop} {t : τ}

theorem Star.snoc {used more : List τ} {a : α} {as : List α} (h : Star D used as)
    (hlast : D more a) : Star D (used ++ more) (as ++ [a]) := by
  induction h with
  | nil => simpa using Star.cons hlast Star.nil
  | cons head _ ih =>
      rw [List.append_assoc, List.cons_append]
      exact Star.cons head ih

theorem Star.flatMap {f : α → List τ} (as : List α) (h : ∀ a ∈ as, D (f a) a) :
    Star D (as.flatMap f) as := by
  induction as with
  | nil => exact Star.nil
  | cons a as ih =>
      obtain ⟨ha, has⟩ := List.forall_mem_cons.1 h
      exact Star.cons ha (ih has)

theorem Star.forall_mem {Q : α → Prop} {used : List τ} {as : List α} (h : Star D used as)
    (hD : ∀ used a, D used a → Q a) : ∀ a ∈ as, Q a := by
  induction h with
  | nil => exact fun _ ha => (nomatch ha)
  | cons ha _ ih => exact List.forall_mem_cons.2 ⟨hD _ _ ha, ih⟩

theorem SepBy.forall_mem {Q : α → Prop} {used : List τ} {as : List α} (h : SepBy t D used as)
    (hD : ∀ used a, D used a → Q a) : as ≠ [] ∧ ∀ a ∈ as, Q a := by
  induction h with
  | one ha => exact ⟨List.cons_ne_nil _ _, List.forall_mem_singleton.2 (hD _ _ ha)⟩
  | cons ha _ ih => exact ⟨List.cons_ne_nil _ _, List.forall_mem_cons.2 ⟨hD _ _ ha, ih.2⟩⟩

/-- A separated list is a phrase, and then phrases that each follow a separator. -/
theorem SepBy.star {used : List τ} {as : List α} (h : SepBy t D used as) :
    ∃ first a more rest, used = first ++ more ∧ as = a :: rest ∧ D first a ∧
      Star (After t D) more rest := by
  induction h with
  | @one used a ha => exact ⟨used, a, [], [], by simp, rfl, ha, Star.nil⟩
  | @cons used _ a _ head _ ih =>
      obtain ⟨first, b, more, rest, rfl, rfl, hb, hrest⟩ := ih
      exact ⟨used, a, t :: first ++ more, b :: rest, by simp, rfl, head,
        Star.cons (After.intro hb) hrest⟩

theorem SepBy.of_star {used more : List τ} {a : α} {as : List α} (h : D used a)
    (hmore : Star (After t D) more as) : SepBy t D (used ++ more) (a :: as) := by
  induction hmore generalizing used a with
  | nil =>
      rw [List.append_nil]
      exact SepBy.one h
  | cons head _ ih =>
      obtain ⟨hb⟩ := head
      exact SepBy.cons h (ih hb)

/-- A left-recursive rule derives what iteration derives: a phrase, and then phrases that each
follow the token, folded from the left. -/
theorem star_of_leftRecursion {L : List τ → α → Prop} {g : α → α → α}
    (hrule : ∀ used a, L used a → D used a ∨
      ∃ left b right d, used = left ++ t :: right ∧ a = g b d ∧ L left b ∧ D right d)
    {used : List τ} {a : α} (h : L used a) :
    ∃ first b more as, used = first ++ more ∧ D first b ∧ Star (After t D) more as ∧
      a = as.foldl g b := by
  -- the recursive part is shorter than the phrase
  induction hn : used.length using Nat.strongRecOn generalizing used a with
  | ind n ih =>
      -- the rule gives one phrase, or a shorter chain, the token and one more phrase
      rcases hrule used a h with hD | ⟨left, b, right, d, rfl, rfl, hleft, hright⟩
      · exact ⟨used, a, [], [], by simp, hD, Star.nil, rfl⟩
      · obtain ⟨first, c, more, as, rfl, hfirst, hmore, rfl⟩ :=
          ih left.length (by simp at hn; omega) hleft rfl
        exact ⟨first, c, more ++ t :: right, as ++ [d], by simp, hfirst,
          hmore.snoc (After.intro hright), by simp⟩

end Phrases

/-! ## Streams -/

variable [TokenStream σ τ]

/-- Moving past the tokens `used` leads from one stream to another. -/
def Consumes : σ → List τ → σ → Prop
  | s, [], s' => s' = s
  | s, t :: used, s' => next s = some t ∧ Consumes (tail s) used s'

section Streams

variable {s s' : σ} {used : List τ} {t : τ}

@[simp] theorem consumes_nil : Consumes s ([] : List τ) s' ↔ s' = s := Iff.rfl

@[simp] theorem consumes_cons :
    Consumes s (t :: used) s' ↔ next s = some t ∧ Consumes (tail s) used s' := Iff.rfl

@[simp] theorem consumes_append {more : List τ} :
    Consumes s (used ++ more) s' ↔ ∃ s₁, Consumes s used s₁ ∧ Consumes s₁ more s' := by
  induction used generalizing s with
  | nil => simp
  | cons t used ih => simp [ih, and_assoc]

theorem Consumes.size (h : Consumes s used s') :
    TokenStream.size s' + used.length = TokenStream.size s := by
  induction used generalizing s with
  | nil => simp [consumes_nil.1 h]
  | cons t used ih =>
      have hrest := ih h.2
      have hfirst := size_tail s (by simp [h.1])
      simp only [List.length_cons]
      omega

/-- What comes next is the first of the tokens consumed, or what comes after them. -/
theorem Consumes.next (h : Consumes s used s') :
    TokenStream.next s = used.head?.or (TokenStream.next s') := by
  cases used with
  | nil => simp [consumes_nil.1 h]
  | cons t used => simp [h.1]

theorem next_eq_none_of_size (h : size s = 0) : next s = none := by
  cases hn : next s with
  | none => rfl
  | some t =>
      have := size_tail s (by simp [hn])
      omega

end Streams

/-! ## Soundness -/

/-- From this stream on, what the parser consumes on a success derives what it returns. -/
def SoundAt (s : σ) (x : EStateM ε σ α) (D : List τ → α → Prop) : Prop :=
  ∀ a s', x s = .ok a s' → ∃ used, Consumes s used s' ∧ D used a

/-- What the parser consumes on a success derives what it returns. -/
def Sound (x : EStateM ε σ α) (D : List τ → α → Prop) : Prop := ∀ s, SoundAt s x D

section Soundness

variable {x : EStateM ε σ α} {f : α → EStateM ε σ β} {D : List τ → β → Prop} {s : σ}

theorem SoundAt.mono {D' : List τ → β → Prop} {y : EStateM ε σ β} (h : SoundAt s y D)
    (hD : ∀ used b, D used b → D' used b) : SoundAt s y D' := by
  intro b s' hb
  obtain ⟨used, hused, hDb⟩ := h b s' hb
  exact ⟨used, hused, hD used b hDb⟩

theorem SoundAt.pure {b : β} (h : D [] b) : SoundAt s (pure b : EStateM ε σ β) D := by
  intro _ _ hb
  cases hb
  exact ⟨[], rfl, h⟩

theorem SoundAt.throw (err : ε) : SoundAt s (throw err : EStateM ε σ β) D := by
  intro _ _ h
  cases h

/-- What is read first begins the phrase. -/
theorem SoundAt.bind {D₁ : List τ → α → Prop} (hx : SoundAt s x D₁)
    (hf : ∀ a used, D₁ used a → Sound (f a) fun more => D (used ++ more)) :
    SoundAt s (x >>= f) D := by
  intro b s'' h
  obtain ⟨a, s', ha, hb⟩ := bind_eq_ok_iff.1 h
  obtain ⟨used, hused, hD⟩ := hx a s' ha
  obtain ⟨more, hmore, hD'⟩ := hf a used hD s' b s'' hb
  exact ⟨used ++ more, consumes_append.2 ⟨s', hused, hmore⟩, hD'⟩

/-- Looking at the stream consumes nothing. -/
theorem SoundAt.look {a : α} (hx : x s = .ok a s) (hf : SoundAt s (f a) D) :
    SoundAt s (x >>= f) D := by
  intro b s' h
  rw [bind_of_ok hx] at h
  exact hf b s' h

/-- Moving past the next token. -/
theorem SoundAt.step {a : α} {t : τ} (hx : x s = .ok a (tail s)) (hn : next s = some t)
    (hf : Sound (f a) fun more => D (t :: more)) : SoundAt s (x >>= f) D := by
  intro b s' h
  rw [bind_of_ok hx] at h
  obtain ⟨used, hused, hD⟩ := hf _ b s' h
  exact ⟨t :: used, ⟨hn, hused⟩, hD⟩

end Soundness

/-- After a success nothing is left. -/
def Exhausts (x : EStateM ε σ α) : Prop := ∀ s a s', x s = .ok a s' → next s' = none

theorem Exhausts.bind {x : EStateM ε σ α} {f : α → EStateM ε σ β} (hf : ∀ a, Exhausts (f a)) :
    Exhausts (x >>= f) := by
  intro s b s'' h
  obtain ⟨a, s', -, hb⟩ := bind_eq_ok_iff.1 h
  exact hf a s' b s'' hb

/-! ## Completeness -/

/-- On a stream of at most `n` tokens that begins with a phrase and goes on with a token of `F`, the
parser reads the phrase. -/
def Complete (n : Nat) (x : EStateM ε σ α) (D : List τ → α → Prop) (F : Option τ → Prop) : Prop :=
  ∀ ⦃s used a s'⦄, size s ≤ n → Consumes s used s' → D used a → F (next s') → x s = .ok a s'

/-! ## Optional phrases -/

section Optional

variable [DecidableEq τ] {t : τ} {x : EStateM ε σ α} {d : α} {s : σ}

/-- Read a phrase that begins with `t`, if `t` comes next. -/
def optional (t : τ) (x : EStateM ε σ α) (d : α) : EStateM ε σ α :=
  fun s => if next s = some t then x s else .ok d s

theorem optional_of_next (h : next s = some t) : optional t x d s = x s := if_pos h

theorem optional_of_ne (h : next s ≠ some t) : optional t x d s = .ok d s := if_neg h

theorem sound_optional {D : List τ → α → Prop} (hx : ∀ s, next s = some t → SoundAt s x D)
    (hd : D [] d) : Sound (optional t x d) D := by
  intro s
  by_cases h : next s = some t
  · intro a s' ha
    rw [optional_of_next h] at ha
    exact hx s h a s' ha
  · intro a s' ha
    rw [optional_of_ne h] at ha
    cases ha
    exact ⟨[], rfl, hd⟩

end Optional

/-! ## Loops -/

section Loops

variable {t : τ} {item : EStateM ε σ α} {D : List τ → α → Prop}
  {F : Option τ → Prop}

/-- One turn over a list of items that each begin with `t`: the list is at its end, or its first
item is read. -/
theorem Complete.turn {m : Nat} (hitem : Complete m item D fun o => o = some t ∨ F o)
    (hfirst : ∀ used a, D used a → used.head? = some t) (hF : ∀ o, F o → o ≠ some t) {s s' : σ}
    {used : List τ} {as : List α} (hsize : size s ≤ m) (hc : Consumes s used s')
    (hD : Star D used as) (hfollow : F (next s')) :
    (as = [] ∧ s' = s ∧ next s ≠ some t) ∨
      ∃ a rest more s₁, as = a :: rest ∧ next s = some t ∧ item s = .ok a s₁ ∧ size s₁ < size s ∧
        Consumes s₁ more s' ∧ Star D more rest := by
  cases hD with
  | nil =>
      have hs : s' = s := consumes_nil.1 hc
      rw [hs] at hfollow
      exact Or.inl ⟨rfl, hs, hF _ hfollow⟩
  | @cons first more a rest head tail =>
      obtain ⟨s₁, hfirst₁, hmore⟩ := consumes_append.1 hc
      have hhead := hfirst _ _ head
      have hnext : next s = some t := by simp [hfirst₁.next, hhead]
      -- after the item comes the next item, or what follows the list
      have hafter : next s₁ = some t ∨ F (next s₁) := by
        cases tail with
        | nil =>
            rw [consumes_nil.1 hmore] at hfollow
            exact Or.inr hfollow
        | cons head' _ => simp [hmore.next, hfirst _ _ head']
      -- an item has at least the token that it begins with
      have hless : size s₁ < size s := by
        have hlen := hfirst₁.size
        have hpos : 0 < first.length := List.length_pos_of_mem (List.mem_of_mem_head? hhead)
        omega
      have hrun := hitem hsize hfirst₁ head hafter
      exact Or.inr ⟨a, rest, more, s₁, rfl, hnext, hrun, hless, hmore, tail⟩

variable [DecidableEq τ]

/-- A loop that collects items while the next token is `t`. -/
structure IsMany (t : τ) (item : EStateM ε σ α) (loop : Nat → EStateM ε σ (List α)) : Prop where
  stop : ∀ s, loop 0 s = .ok [] s
  turn : ∀ n s, loop (n + 1) s =
    if next s = some t then (item >>= fun a => loop n >>= fun as => pure (a :: as)) s
    else .ok [] s

theorem IsMany.sound {loop : Nat → EStateM ε σ (List α)} (h : IsMany t item loop)
    (hitem : ∀ s, next s = some t → SoundAt s item D) (n : Nat) : Sound (loop n) (Star D) := by
  induction n with
  | zero =>
      intro s as s' hrun
      rw [h.stop] at hrun
      cases hrun
      exact ⟨[], rfl, Star.nil⟩
  | succ n ih =>
      intro s as s' hrun
      rw [h.turn] at hrun
      split at hrun
      next hn =>
        -- an item and the rest of the loop
        refine SoundAt.bind (hitem s hn) (fun a used ha s₁ => ?_) as s' hrun
        refine SoundAt.bind (ih s₁) fun as more has s₂ => SoundAt.pure ?_
        rw [List.append_nil]
        exact Star.cons ha has
      next =>
        cases hrun
        exact ⟨[], rfl, Star.nil⟩

/-- The loop reads an item if there is one. -/
theorem IsMany.ne_nil {loop : Nat → EStateM ε σ (List α)} (h : IsMany t item loop) {s s' : σ}
    {as : List α} (hn : next s = some t) (hrun : loop (size s) s = .ok as s') : as ≠ [] := by
  have hsize := size_tail s (by simp [hn])
  rw [← hsize, h.turn, if_pos hn] at hrun
  obtain ⟨a, s₁, -, hrun⟩ := bind_eq_ok_iff.1 hrun
  obtain ⟨rest, s₂, -, hrun⟩ := bind_eq_ok_iff.1 hrun
  cases hrun
  exact List.cons_ne_nil a rest

/-- The loop reads a list of items that each begin with `t`, if `t` does not come after it. -/
theorem IsMany.complete {loop : Nat → EStateM ε σ (List α)} (h : IsMany t item loop)
    (hfirst : ∀ used a, D used a → used.head? = some t) (hF : ∀ o, F o → o ≠ some t) {m : Nat}
    (hitem : Complete m item D fun o => o = some t ∨ F o) {n : Nat} (hn : n ≤ m) :
    Complete n (loop n) (Star D) F := by
  induction n with
  | zero =>
      intro s used as s' hsize hc hD hfollow
      have hnone := next_eq_none_of_size (Nat.le_zero.1 hsize)
      rcases hitem.turn hfirst hF (Nat.le_trans hsize hn) hc hD hfollow with
        ⟨rfl, rfl, -⟩ | ⟨_, _, _, _, _, hnext, -⟩
      · exact h.stop _
      · rw [hnone] at hnext
        cases hnext
  | succ n ih =>
      intro s used as s' hsize hc hD hfollow
      rw [h.turn]
      rcases hitem.turn hfirst hF (Nat.le_trans hsize hn) hc hD hfollow with
        ⟨rfl, rfl, hnext⟩ | ⟨a, as, more, s₁, rfl, hnext, ha, hless, hmore, has⟩
      · rw [if_neg hnext]
      · rw [if_pos hnext, bind_of_ok ha, bind_of_ok (ih (by omega) (by omega) hmore has hfollow)]
        rfl

/-- Run a loop for as long as there are tokens. -/
def withSize (f : Nat → EStateM ε σ α) : EStateM ε σ α := fun s => f (size s) s

/-- The parser `y` reads phrases with `x` that have `t` between them, and folds them from the left
in `loop`. -/
structure IsChain (t : τ) (x : EStateM ε σ α) (g : α → α → α) (loop : Nat → α → EStateM ε σ α)
    (y : EStateM ε σ α) : Prop where
  start : ∀ s, y s = (x >>= fun a => withSize fun n => loop n a) s
  stop : ∀ a s, loop 0 a s = .ok a s
  turn : ∀ n a s, loop (n + 1) a s =
    if next s = some t then (x >>= fun b => loop n (g a b)) (tail s) else .ok a s

section Chain

variable {x y : EStateM ε σ α} {g : α → α → α} {loop : Nat → α → EStateM ε σ α}
  {L : List τ → α → Prop}

/-- What the left-recursive rule derives from the tokens read so far, it derives at the end of the
loop. -/
theorem IsChain.sound (h : IsChain t x g loop y) (hx : Sound x D)
    (hone : ∀ used a, D used a → L used a)
    (hmore : ∀ left a right b, L left a → D right b → L (left ++ t :: right) (g a b)) :
    Sound y L := by
  have hloop : ∀ n used a, L used a → Sound (loop n a) fun more => L (used ++ more) := by
    intro n
    induction n with
    | zero =>
        intro used a ha s b s' hrun
        rw [h.stop] at hrun
        cases hrun
        exact ⟨[], rfl, by simpa using ha⟩
    | succ n ih =>
        intro used a ha s b s' hrun
        rw [h.turn] at hrun
        split at hrun
        next hn =>
          -- the phrase after the token extends the chain read so far
          obtain ⟨more, hmore', hL⟩ := SoundAt.bind (D := fun more => L (used ++ t :: more))
            (hx (tail s)) (fun b right hb => by
              simpa using ih _ _ (hmore used a right b ha hb)) b s' hrun
          exact ⟨t :: more, ⟨hn, hmore'⟩, hL⟩
        next =>
          cases hrun
          exact ⟨[], rfl, by simpa using ha⟩
  intro s b s' hrun
  rw [h.start] at hrun
  refine SoundAt.bind (hx s) (fun a used ha s₁ => ?_) b s' hrun
  exact hloop (size s₁) used a (hone used a ha) s₁

/-- The loop folds a list of phrases that each follow `t`. -/
theorem IsChain.complete_loop (h : IsChain t x g loop y) (hF : ∀ o, F o → o ≠ some t) {m : Nat}
    (hx : Complete m x D fun o => o = some t ∨ F o) {n : Nat} (hn : n ≤ m) (a : α) :
    Complete n (loop n a) (fun used b => ∃ as, Star (After t D) used as ∧ b = as.foldl g a) F := by
  -- an item of the loop is `t` and then a phrase
  have hitem : Complete m (fun s => x (tail s)) (After t D) fun o => o = some t ∨ F o := by
    rintro s _ a s' hsize hc ⟨ha⟩ hfollow
    obtain ⟨hnext, hc⟩ := hc
    have hless := size_tail s (by simp [hnext])
    exact hx (by omega) hc ha hfollow
  have hfirst : ∀ used a, After t D used a → used.head? = some t := by
    rintro _ _ ⟨_⟩
    rfl
  induction n generalizing a with
  | zero =>
      rintro s used _ s' hsize hc ⟨as, hD, rfl⟩ hfollow
      have hnone := next_eq_none_of_size (Nat.le_zero.1 hsize)
      rcases hitem.turn hfirst hF (Nat.le_trans hsize hn) hc hD hfollow with
        ⟨rfl, rfl, -⟩ | ⟨_, _, _, _, _, hnext, -⟩
      · exact h.stop _ _
      · rw [hnone] at hnext
        cases hnext
  | succ n ih =>
      rintro s used _ s' hsize hc ⟨as, hD, rfl⟩ hfollow
      rw [h.turn]
      rcases hitem.turn hfirst hF (Nat.le_trans hsize hn) hc hD hfollow with
        ⟨rfl, rfl, hnext⟩ | ⟨b, as, more, s₁, rfl, hnext, hb, hless, hmore, has⟩
      · rw [if_neg hnext]
        rfl
      · rw [if_pos hnext, bind_of_ok hb]
        exact ih (by omega) (g a b) (by omega) hmore ⟨as, has, rfl⟩ hfollow

/-- A chain reads what its left-recursive rule derives. -/
theorem IsChain.complete (h : IsChain t x g loop y) (hF : ∀ o, F o → o ≠ some t) {m : Nat}
    (hx : Complete m x D fun o => o = some t ∨ F o)
    (hrule : ∀ used a, L used a → D used a ∨
      ∃ left b right d, used = left ++ t :: right ∧ a = g b d ∧ L left b ∧ D right d) :
    Complete m y L F := by
  intro s used a s' hsize hc ha hfollow
  -- the loop reads the phrases from left to right, so the chain is taken apart at its left end
  obtain ⟨first, b, more, as, rfl, hb, has, rfl⟩ := star_of_leftRecursion hrule ha
  obtain ⟨s₁, hfirst, hmore⟩ := consumes_append.1 hc
  have hless := hfirst.size
  have hafter : next s₁ = some t ∨ F (next s₁) := by
    cases has with
    | nil =>
        rw [consumes_nil.1 hmore] at hfollow
        exact Or.inr hfollow
    | cons head _ =>
        obtain ⟨_⟩ := head
        exact Or.inl hmore.1
  rw [h.start, bind_of_ok (hx hsize hfirst hb hafter)]
  have hloop := h.complete_loop hF hx (n := size s₁) (by omega) b
  exact hloop (Nat.le_refl _) hmore ⟨as, has, rfl⟩ hfollow

end Chain

end Loops

end Morceau.Lib
