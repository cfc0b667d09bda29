import Mathlib.Data.List.Basic

/-!
# Tokenizers

A tokenizer skips a character or reads a token, again and again, and fails where no token can be
read. A token is read from its first character and all that follows, so what follows may carry it
on; a character `Closes` the tokens if it carries none on. A text before such a character is read as
it is on its own (`tokens_append`).
-/

set_option autoImplicit false

namespace Morceau.Lib

universe u

/-- A tokenizer over the characters `α`: what it skips, and how it reads a token from a character
and what follows, with the number of characters that the token takes. -/
structure Tokenizer (α τ : Type u) where
  skip : α → Bool
  next : α → List α → Option (τ × Nat)
  progress : ∀ {c : α} {cs : List α} {t : τ} {n : Nat}, next c cs = some (t, n) →
    1 ≤ n ∧ n ≤ cs.length + 1

namespace Tokenizer

variable {α τ : Type u} (T : Tokenizer α τ)

/-- The tokens of a text, in at most as many turns as there is fuel. -/
def run : Nat → List α → Option (List τ)
  | _, [] => some []
  | 0, _ :: _ => some []
  | fuel + 1, c :: cs =>
      if T.skip c then run fuel cs
      else do
        let (t, n) ← T.next c cs
        let ts ← run fuel ((c :: cs).drop n)
        pure (t :: ts)

/-- The tokens of a text. -/
def tokens (cs : List α) : Option (List τ) := T.run cs.length cs

variable {T}

/-- A token takes a character, so what is left is shorter. -/
theorem length_drop_le {c : α} {cs : List α} {token : τ × Nat} (h : T.next c cs = some token) :
    ((c :: cs).drop token.2).length ≤ cs.length := by
  have hpos := (T.progress h).1
  rw [List.length_drop, List.length_cons]
  omega

/-- As many turns as there are characters are enough. -/
theorem run_eq_run {fuel : Nat} : ∀ (fuel' : Nat) {cs : List α}, cs.length ≤ fuel →
    cs.length ≤ fuel' → T.run fuel cs = T.run fuel' cs := by
  induction fuel with
  | zero =>
      intro fuel' cs h _
      obtain rfl : cs = [] := List.eq_nil_of_length_eq_zero (Nat.le_zero.1 h)
      cases fuel' <;> rfl
  | succ fuel ih =>
      intro fuel' cs h h'
      cases cs with
      | nil => cases fuel' <;> rfl
      | cons c cs =>
          cases fuel' with
          | zero => exact absurd h' (by simp)
          | succ fuel' =>
              rw [List.length_cons] at h h'
              rw [run, run, ih fuel' (by omega) (by omega)]
              cases hnext : T.next c cs with
              | none => rfl
              | some token =>
                  have hlength := length_drop_le hnext
                  simp only [Option.bind_eq_bind, Option.bind_some]
                  rw [ih fuel' (by omega) (by omega)]

theorem tokens_skip {c : α} {cs : List α} (h : T.skip c = true) :
    T.tokens (c :: cs) = T.tokens cs := by
  rw [tokens, List.length_cons, run, if_pos h]
  rfl

theorem tokens_cons {c : α} {cs : List α} (h : T.skip c = false) :
    T.tokens (c :: cs) = (T.next c cs).bind fun token =>
      (T.tokens ((c :: cs).drop token.2)).map (token.1 :: ·) := by
  rw [tokens, List.length_cons, run, if_neg (by simp [h])]
  cases hnext : T.next c cs with
  | none => rfl
  | some token =>
      rw [Option.bind_some, tokens, ← run_eq_run _ (length_drop_le hnext) (Nat.le_refl _)]
      show (T.run cs.length ((c :: cs).drop token.2)).bind _ = _
      cases T.run cs.length ((c :: cs).drop token.2) <;> rfl

/-- No token goes on over the character. -/
def Closes (T : Tokenizer α τ) (c : α) : Prop :=
  ∀ {a : α} {as : List α} {token : τ × Nat} (rest : List α), T.next a as = some token →
    T.next a (as ++ c :: rest) = some token

/-- A text before such a character is read as it is on its own. -/
theorem tokens_append {c : α} (hc : T.Closes c) (post : List α) (len : Nat) :
    ∀ {pre : List α} {ts : List τ}, pre.length ≤ len → T.tokens pre = some ts →
      T.tokens (pre ++ c :: post) = (T.tokens (c :: post)).map (ts ++ ·) := by
  induction len with
  | zero =>
      intro pre ts hlen h
      obtain rfl : pre = [] := List.eq_nil_of_length_eq_zero (Nat.le_zero.1 hlen)
      cases h
      simp
  | succ len ih =>
      intro pre ts hlen h
      cases pre with
      | nil =>
          cases h
          simp
      | cons a as =>
          rw [List.length_cons] at hlen
          rw [List.cons_append]
          cases hskip : T.skip a with
          | true =>
              rw [tokens_skip hskip] at h ⊢
              exact ih (by omega) h
          | false =>
              rw [tokens_cons hskip, Option.bind_eq_some_iff] at h
              obtain ⟨token, hnext, h⟩ := h
              obtain ⟨rest, hrest, rfl⟩ := Option.map_eq_some_iff.1 h
              obtain ⟨hpos, hbound⟩ := T.progress hnext
              rw [tokens_cons hskip, hc post hnext, Option.bind_some, ← List.cons_append,
                List.drop_append_of_le_length (by simpa using hbound), ih (by simp; omega) hrest,
                Option.map_map]
              rfl

/-! ## Words and gaps -/

/-- A text of words, one for each token and in their order, with a gap after each: between two words
it is not empty. -/
inductive Spaced (Gap : α → Prop) (Word : τ → List α → Prop) : List τ → List α → Prop where
  | nil {gap : List α} (space : ∀ c ∈ gap, Gap c) : Spaced Gap Word [] gap
  | cons {t : τ} {ts : List τ} {word gap rest : List α} (stands : Word t word)
      (space : ∀ c ∈ gap, Gap c) (apart : ts ≠ [] → gap ≠ []) (more : Spaced Gap Word ts rest) :
      Spaced Gap Word (t :: ts) (word ++ (gap ++ rest))

theorem Spaced.forall_mem {Gap P : α → Prop} {Word : τ → List α → Prop} {ts : List τ}
    {text : List α} (h : Spaced Gap Word ts text) (hgap : ∀ c, Gap c → P c)
    (hword : ∀ t ∈ ts, ∀ word, Word t word → ∀ c ∈ word, P c) : ∀ c ∈ text, P c := by
  induction h with
  | nil space => exact fun c hc => hgap c (space c hc)
  | cons stands space apart more ih =>
      obtain ⟨ht, hts⟩ := List.forall_mem_cons.1 hword
      intro c hc
      rcases List.mem_append.1 hc with hc | hc
      · exact ht _ stands c hc
      rcases List.mem_append.1 hc with hc | hc
      · exact hgap c (space c hc)
      · exact ih hts c hc

theorem tokens_gap {gap : List α} (h : ∀ c ∈ gap, T.skip c = true) (rest : List α) :
    T.tokens (gap ++ rest) = T.tokens rest := by
  induction gap with
  | nil => rfl
  | cons c gap ih =>
      obtain ⟨hc, hgap⟩ := List.forall_mem_cons.1 h
      rw [List.cons_append, tokens_skip hc, ih hgap]

/-- A text before nothing, or before a character that closes its tokens, is read on its own. -/
theorem tokens_append_of_head {pre post : List α} {ts : List τ} (h : T.tokens pre = some ts)
    (hpost : ∀ c, post.head? = some c → T.Closes c) :
    T.tokens (pre ++ post) = (T.tokens post).map (ts ++ ·) := by
  cases post with
  | nil =>
      rw [List.append_nil, h]
      exact congrArg some (List.append_nil ts).symm
  | cons c post => exact tokens_append (hpost c rfl) post _ (Nat.le_refl _) h

/-- If gaps are skipped and close every token, a text of words is read as their tokens. -/
theorem tokens_of_spaced {Gap : α → Prop} {Word : τ → List α → Prop}
    (hgap : ∀ c, Gap c → T.skip c = true ∧ T.Closes c) {ts : List τ} {text : List α}
    (h : Spaced Gap Word ts text)
    (hword : ∀ t ∈ ts, ∀ word, Word t word → T.tokens word = some [t]) :
    T.tokens text = some ts := by
  induction h with
  | nil space =>
      have hskip := tokens_gap (fun c hc => (hgap c (space c hc)).1) (T := T) []
      rwa [List.append_nil] at hskip
  | @cons t ts word gap rest stands space apart more ih =>
      obtain ⟨ht, hts⟩ := List.forall_mem_cons.1 hword
      have hclose : ∀ c, (gap ++ rest).head? = some c → T.Closes c := by
        intro c hc
        cases gap with
        | cons d gap =>
            cases hc
            exact (hgap c (space c (List.mem_cons_self ..))).2
        | nil =>
            -- without a gap there is no further word, so what is left is a gap itself
            cases more with
            | nil space' => exact (hgap c (space' c (List.mem_of_head? hc))).2
            | cons => exact absurd rfl (apart (List.cons_ne_nil _ _))
      rw [tokens_append_of_head (ht word stands) hclose,
        tokens_gap fun c hc => (hgap c (space c hc)).1, ih hts]
      rfl

end Tokenizer

end Morceau.Lib
