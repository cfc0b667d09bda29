import Morceau.Lib.Parsing

/-!
# Where a recursive-descent parser fails

A parser that decides by the next token fails at the first token that cannot be right, and this file
is about what it takes to prove that of one. Two things are needed.

What was consumed before the failure can be completed to a phrase (`Reads`). Soundness is part of
it: a parser that reads phrases returns the tree of what it consumed, and when it fails it says so
at the token it stopped at (`Reports`).

What comes after the next token has no part in what the parser does (`Tracks`). Two streams that
agree on what is consumed and on one more token give the same outcome. A loop that is bounded by the
number of tokens left runs with different bounds on the two streams, so `Tracks` relates two
parsers.
-/

set_option autoImplicit false

namespace Morceau.Lib

open TokenStream

universe u

variable {ε σ τ α β : Type u} [TokenStream σ τ]

/-! ## Consuming -/

section Consuming

variable {s s' s'' t : σ} {used more : List τ}

theorem Consumes.trans (h : Consumes s used s') (h' : Consumes s' more s'') :
    Consumes s (used ++ more) s'' :=
  consumes_append.2 ⟨s', h, h'⟩

/-- The tokens between two streams are determined by the streams. -/
theorem Consumes.unique : ∀ {used more : List τ} {s : σ}, Consumes s used s' →
    Consumes s more s' → used = more
  | [], [], _, _, _ => rfl
  | [], m :: more, s, h, h' => by
      have hsize := Consumes.size h
      have hsize' := Consumes.size h'
      simp only [List.length_nil, List.length_cons] at hsize hsize'
      omega
  | u :: used, [], s, h, h' => by
      have hsize := Consumes.size h
      have hsize' := Consumes.size h'
      simp only [List.length_nil, List.length_cons] at hsize hsize'
      omega
  | u :: used, m :: more, s, h, h' => by
      obtain ⟨hu, hrest⟩ := h
      obtain ⟨hm, hrest'⟩ := h'
      rw [hu] at hm
      rw [Option.some.inj hm, Consumes.unique hrest hrest']

theorem Consumes.size_le (h : Consumes s used s') : TokenStream.size s' ≤ TokenStream.size s := by
  have := h.size
  omega

/-- The streams go on with the same tokens, at least `n` of them. -/
def SameTokens : Nat → σ → σ → Prop
  | 0, _, _ => True
  | n + 1, s, t => next s = next t ∧ (next s).isSome ∧ SameTokens n (tail s) (tail t)

theorem SameTokens.mono : ∀ {m n : Nat} {s t : σ}, SameTokens n s t → m ≤ n → SameTokens m s t
  | 0, _, _, _, _, _ => trivial
  | m + 1, 0, _, _, _, hle => by omega
  | m + 1, n + 1, _, _, h, hle => ⟨h.1, h.2.1, SameTokens.mono h.2.2 (by omega)⟩

/-- Streams that agree still do after the same tokens. -/
theorem SameTokens.consume {n : Nat} {t' : σ} : ∀ {used : List τ} {s t : σ},
    SameTokens (used.length + n) s t → Consumes s used s' → Consumes t used t' → SameTokens n s' t'
  | [], s, t, h, hs, ht => by
      rw [consumes_nil.1 hs, consumes_nil.1 ht]
      simpa using h
  | u :: used, s, t, h, hs, ht => by
      rw [List.length_cons, Nat.add_right_comm] at h
      exact SameTokens.consume h.2.2 hs.2 ht.2

theorem SameTokens.next_eq_some {n : Nat} (h : SameTokens (n + 1) s t) :
    ∃ tok, next s = some tok ∧ next t = some tok := by
  obtain ⟨tok, htok⟩ := Option.isSome_iff_exists.1 h.2.1
  exact ⟨tok, htok, h.1.symm.trans htok⟩

end Consuming

/-! ## Reading phrases -/

/-- What an error says about the tokens consumed before it and the stream it stops at. -/
class Reports (ε σ : Type u) (τ : outParam (Type u)) [TokenStream σ τ] where
  points : List τ → ε → σ → Prop
  points_append : ∀ (used : List τ) {more : List τ} {err : ε} {s : σ},
    points more err s → points (used ++ more) err s

/-- From this stream on, the parser consumes a phrase and returns its tree, or it consumes the
beginning of a phrase and reports where it stopped. -/
def ReadsAt [Reports ε σ τ] (s : σ) (x : EStateM ε σ α) (D : List τ → α → Prop) : Prop :=
  match x s with
  | .ok a s' => ∃ used, Consumes s used s' ∧ D used a
  | .error err s' => ∃ used, Consumes s used s' ∧ Reports.points used err s' ∧
      ∃ more a, D (used ++ more) a

/-- From every stream on, the parser reads phrases. -/
def Reads [Reports ε σ τ] (x : EStateM ε σ α) (D : List τ → α → Prop) : Prop :=
  ∀ s, ReadsAt s x D

section Reading

variable [Reports ε σ τ] {x : EStateM ε σ α} {f : α → EStateM ε σ β} {D : List τ → β → Prop} {s : σ}

theorem ReadsAt.mono {D' : List τ → β → Prop} {y : EStateM ε σ β} (h : ReadsAt s y D)
    (hD : ∀ used b, D used b → D' used b) : ReadsAt s y D' := by
  unfold ReadsAt at h ⊢
  cases hy : y s with
  | ok b s' =>
      rw [hy] at h
      obtain ⟨used, hused, hb⟩ := h
      exact ⟨used, hused, hD used b hb⟩
  | error err s' =>
      rw [hy] at h
      obtain ⟨used, hused, hpoints, more, b, hb⟩ := h
      exact ⟨used, hused, hpoints, more, b, hD _ b hb⟩

theorem ReadsAt.congr {y z : EStateM ε σ β} (heq : y s = z s) (h : ReadsAt s z D) :
    ReadsAt s y D := by
  unfold ReadsAt at h ⊢
  rwa [heq]

theorem ReadsAt.pure {b : β} (h : D [] b) : ReadsAt s (pure b : EStateM ε σ β) D :=
  ⟨[], rfl, h⟩

/-- A failure right here reports this stream, and some phrase could have stood here. -/
theorem ReadsAt.throw {err : ε} (hpoints : Reports.points [] err s) (h : ∃ more b, D more b) :
    ReadsAt s (throw err : EStateM ε σ β) D :=
  ⟨[], rfl, hpoints, h⟩

/-- Whatever the outcome, there is a phrase. -/
theorem ReadsAt.exists_phrase {y : EStateM ε σ β} (h : ReadsAt s y D) : ∃ used b, D used b := by
  unfold ReadsAt at h
  cases hy : y s with
  | ok b s' =>
      rw [hy] at h
      obtain ⟨used, -, hb⟩ := h
      exact ⟨used, b, hb⟩
  | error err s' =>
      rw [hy] at h
      obtain ⟨used, -, -, more, b, hb⟩ := h
      exact ⟨_, b, hb⟩

/-- What is read first begins the phrase. If it is not complete, it is completed first. -/
theorem ReadsAt.bind {D₁ : List τ → α → Prop} (hx : ReadsAt s x D₁)
    (hf : ∀ a used, D₁ used a → Reads (f a) fun more => D (used ++ more)) :
    ReadsAt s (x >>= f) D := by
  unfold ReadsAt at hx ⊢
  cases hr : x s with
  | error err s' =>
      rw [hr] at hx
      obtain ⟨used, hused, hpoints, more, a, ha⟩ := hx
      rw [bind_of_error hr]
      obtain ⟨rest, b, hb⟩ := (hf a _ ha s').exists_phrase
      exact ⟨used, hused, hpoints, more ++ rest, b, by rwa [← List.append_assoc]⟩
  | ok a s' =>
      rw [hr] at hx
      obtain ⟨used, hused, ha⟩ := hx
      have hrest := hf a used ha s'
      rw [bind_of_ok hr]
      unfold ReadsAt at hrest
      cases hr' : f a s' with
      | ok b s'' =>
          rw [hr'] at hrest
          obtain ⟨more, hmore, hb⟩ := hrest
          exact ⟨used ++ more, hused.trans hmore, hb⟩
      | error err s'' =>
          rw [hr'] at hrest
          obtain ⟨more, hmore, hpoints, rest, b, hb⟩ := hrest
          exact ⟨used ++ more, hused.trans hmore, Reports.points_append used hpoints, rest, b,
            by rwa [List.append_assoc]⟩

/-- Looking at the stream consumes nothing. -/
theorem ReadsAt.look {a : α} (hx : x s = .ok a s) (hf : ReadsAt s (f a) D) :
    ReadsAt s (x >>= f) D := by
  unfold ReadsAt at hf ⊢
  rwa [bind_of_ok hx]

/-- Moving past the next token. -/
theorem ReadsAt.step {a : α} {t : τ} (hx : x s = .ok a (tail s)) (hn : next s = some t)
    (hf : ReadsAt (tail s) (f a) fun more => D (t :: more)) : ReadsAt s (x >>= f) D := by
  unfold ReadsAt at hf ⊢
  rw [bind_of_ok hx]
  cases hr : f a (tail s) with
  | ok b s' =>
      rw [hr] at hf
      obtain ⟨used, hused, hb⟩ := hf
      exact ⟨t :: used, ⟨hn, hused⟩, hb⟩
  | error err s' =>
      rw [hr] at hf
      obtain ⟨used, hused, hpoints, hb⟩ := hf
      exact ⟨t :: used, ⟨hn, hused⟩, Reports.points_append [t] hpoints, hb⟩

end Reading

section ReadingLoops

variable [Reports ε σ τ] [DecidableEq τ] {t : τ}

theorem reads_optional {x : EStateM ε σ α} {d : α} {D : List τ → α → Prop}
    (hx : ∀ s, next s = some t → ReadsAt s x D) (hd : D [] d) : Reads (optional t x d) D := by
  intro s
  by_cases h : next s = some t
  · exact ReadsAt.congr (optional_of_next h) (hx s h)
  · exact ReadsAt.congr (optional_of_ne h) (ReadsAt.pure hd)

theorem IsMany.reads {item : EStateM ε σ α} {loop : Nat → EStateM ε σ (List α)}
    {D : List τ → α → Prop} (h : IsMany t item loop)
    (hitem : ∀ s, next s = some t → ReadsAt s item D) (n : Nat) : Reads (loop n) (Star D) := by
  induction n with
  | zero => exact fun s => ReadsAt.congr (h.stop s) (ReadsAt.pure Star.nil)
  | succ n ih =>
      intro s
      by_cases hn : next s = some t
      · refine ReadsAt.congr ((h.turn n s).trans (if_pos hn)) ?_
        refine ReadsAt.bind (hitem s hn) fun a used ha s₁ => ?_
        refine ReadsAt.bind (ih s₁) fun as more has s₂ => ReadsAt.pure ?_
        rw [List.append_nil]
        exact Star.cons ha has
      · exact ReadsAt.congr ((h.turn n s).trans (if_neg hn)) (ReadsAt.pure Star.nil)

theorem IsChain.reads {x y : EStateM ε σ α} {g : α → α → α} {loop : Nat → α → EStateM ε σ α}
    {D L : List τ → α → Prop} (h : IsChain t x g loop y) (hx : Reads x D)
    (hone : ∀ used a, D used a → L used a)
    (hmore : ∀ left a right b, L left a → D right b → L (left ++ t :: right) (g a b)) :
    Reads y L := by
  have hloop : ∀ n used a, L used a → Reads (loop n a) fun more => L (used ++ more) := by
    intro n
    induction n with
    | zero =>
        intro used a ha s
        exact ReadsAt.congr (h.stop a s) (ReadsAt.pure (by rwa [List.append_nil]))
    | succ n ih =>
        intro used a ha s
        by_cases hn : next s = some t
        · -- the token, and then a phrase that extends the chain read so far
          have hskip : (modify tail : EStateM ε σ PUnit) s = .ok ⟨⟩ (tail s) := rfl
          have hturn : loop (n + 1) a s =
              ((modify tail : EStateM ε σ PUnit) >>= fun _ => x >>= fun b => loop n (g a b)) s := by
            rw [h.turn, if_pos hn, bind_of_ok hskip]
          refine ReadsAt.congr hturn (ReadsAt.step hskip hn ?_)
          refine ReadsAt.bind (hx (tail s)) fun b right hb => ?_
          simpa using ih _ _ (hmore used a right b ha hb)
        · refine ReadsAt.congr ((h.turn n a s).trans (if_neg hn)) (ReadsAt.pure ?_)
          rwa [List.append_nil]
  intro s
  refine ReadsAt.congr (h.start s) (ReadsAt.bind (hx s) fun a used ha s₁ => ?_)
  exact hloop (size s₁) used a (hone used a ha) s₁

end ReadingLoops

/-! ## Looking no further than the next token -/

/-- Whatever the outcome, the parser has moved forward. -/
def Forward (x : EStateM ε σ α) : Prop := ∀ s, ∃ used, Consumes s used (finalState (x s))

/-- If the second stream agrees with the first one on the tokens that the first parser consumes and
on one more, the second parser does the same: it returns the same tree or it fails too, at the same
place. -/
def TracksAt (s t : σ) (x y : EStateM ε σ α) : Prop :=
  ∀ used, Consumes s used (finalState (x s)) → SameTokens (used.length + 1) s t →
    match x s with
    | .ok a _ => ∃ t', y t = .ok a t' ∧ Consumes t used t'
    | .error _ _ => ∃ err t', y t = .error err t' ∧ Consumes t used t'

section Forwards

variable {x : EStateM ε σ α} {f : α → EStateM ε σ β}

theorem Reads.forward [Reports ε σ τ] {D : List τ → α → Prop} (h : Reads x D) : Forward x := by
  intro s
  have hs := h s
  unfold ReadsAt at hs
  cases hx : x s with
  | ok a s' =>
      rw [hx] at hs
      obtain ⟨used, hused, -⟩ := hs
      exact ⟨used, hused⟩
  | error err s' =>
      rw [hx] at hs
      obtain ⟨used, hused, -⟩ := hs
      exact ⟨used, hused⟩

@[grind ←] theorem Forward.pure (a : α) : Forward (pure a : EStateM ε σ α) := fun _ => ⟨[], rfl⟩

@[grind ←] theorem Forward.throw (err : ε) : Forward (throw err : EStateM ε σ α) :=
  fun _ => ⟨[], rfl⟩

@[grind ←] theorem Forward.bind (hx : Forward x) (hf : ∀ a, Forward (f a)) : Forward (x >>= f) := by
  intro s
  obtain ⟨used, hused⟩ := hx s
  cases hr : x s with
  | ok a s' =>
      rw [hr] at hused
      obtain ⟨more, hmore⟩ := hf a s'
      rw [bind_of_ok hr]
      exact ⟨used ++ more, hused.trans hmore⟩
  | error err s' =>
      rw [hr] at hused
      rw [bind_of_error hr]
      exact ⟨used, hused⟩

@[grind ←] theorem Forward.optional [DecidableEq τ] {t : τ} {d : α} (hx : Forward x) :
    Forward (optional t x d) := by
  intro s
  unfold Lib.optional
  split
  · exact hx s
  · exact ⟨[], rfl⟩

theorem Forward.size_le (h : Forward x) {s s' : σ} {a : α} (hx : x s = .ok a s') :
    size s' ≤ size s := by
  obtain ⟨used, hused⟩ := h s
  rw [hx] at hused
  exact hused.size_le

end Forwards

section Tracking

variable {s t : σ} {x y : EStateM ε σ α} {f g : α → EStateM ε σ β}

theorem TracksAt.pure (a : α) : TracksAt s t (pure a : EStateM ε σ α) (pure a) := by
  intro used hused _
  rw [consumes_nil.2 rfl |>.unique hused |>.symm]
  exact ⟨t, rfl, rfl⟩

/-- Two failures right here. -/
theorem TracksAt.of_error {err err' : ε} (hx : x s = .error err s) (hy : y t = .error err' t) :
    TracksAt s t x y := by
  intro used hused _
  rw [hx] at hused ⊢
  rw [consumes_nil.2 rfl |>.unique hused |>.symm]
  exact ⟨err', t, hy, rfl⟩

/-- A stream with nothing left agrees with no stream on a next token. -/
theorem TracksAt.of_next_eq_none (h : next s = none) : TracksAt s t x y := by
  intro used _ hagree
  rw [SameTokens, h] at hagree
  cases hagree.2.1

/-- It is enough to look at streams that have the same next token. -/
theorem TracksAt.of_next (h : ∀ tok, next s = some tok → next t = some tok → TracksAt s t x y) :
    TracksAt s t x y := by
  intro used hused hagree
  obtain ⟨tok, hs, ht⟩ := hagree.next_eq_some
  exact h tok hs ht used hused hagree

theorem TracksAt.congr {x' y' : EStateM ε σ α} (hx : x s = x' s) (hy : y t = y' t)
    (h : TracksAt s t x' y') : TracksAt s t x y := by
  unfold TracksAt at h ⊢
  rwa [hx, hy]

theorem TracksAt.bind (hmx : Forward x) (hmf : ∀ a, Forward (f a)) (hx : TracksAt s t x y)
    (hf : ∀ a s' t', x s = .ok a s' → y t = .ok a t' → TracksAt s' t' (f a) (g a)) :
    TracksAt s t (x >>= f) (y >>= g) := by
  intro used hused hagree
  cases hr : x s with
  | error err s' =>
      rw [bind_of_error hr] at hused ⊢
      have htrack := hx used (by rwa [hr]) hagree
      rw [hr] at htrack
      obtain ⟨err', t', ht, hct⟩ := htrack
      exact ⟨err', t', bind_of_error ht, hct⟩
  | ok a s' =>
      -- what the first part consumed and what the second part did
      obtain ⟨first, hfirst⟩ := hmx s
      rw [hr] at hfirst
      obtain ⟨second, hsecond⟩ := hmf a s'
      rw [bind_of_ok hr] at hused ⊢
      obtain rfl := (hfirst.trans hsecond).unique hused
      rw [List.length_append] at hagree
      have htrack := hx first (by rwa [hr]) (hagree.mono (by omega))
      rw [hr] at htrack
      obtain ⟨t', ht, hct⟩ := htrack
      have hagree' : SameTokens (second.length + 1) s' t' :=
        SameTokens.consume (by rwa [← Nat.add_assoc]) hfirst hct
      have hrest := hf a s' t' hr ht second hsecond hagree'
      rw [bind_of_ok ht]
      cases hr' : f a s' with
      | ok b s'' =>
          rw [hr'] at hrest
          obtain ⟨t'', ht', hct'⟩ := hrest
          exact ⟨t'', ht', hct.trans hct'⟩
      | error err s'' =>
          rw [hr'] at hrest
          obtain ⟨err', t'', ht', hct'⟩ := hrest
          exact ⟨err', t'', ht', hct.trans hct'⟩

/-- Moving past the next token. -/
theorem TracksAt.step {a : α} {tok : τ} (hx : x s = .ok a (tail s)) (hy : y t = .ok a (tail t))
    (hmf : Forward (f a)) (hs : next s = some tok) (ht : next t = some tok)
    (hf : TracksAt (tail s) (tail t) (f a) (g a)) : TracksAt s t (x >>= f) (y >>= g) := by
  intro used hused hagree
  rw [bind_of_ok hx] at hused ⊢
  rw [bind_of_ok hy]
  obtain ⟨more, hmore⟩ := hmf (tail s)
  have hall : Consumes s (tok :: more) (finalState (f a (tail s))) := ⟨hs, hmore⟩
  obtain rfl := hall.unique hused
  have hrest := hf more hmore hagree.2.2
  cases hr : f a (tail s) with
  | ok b s' =>
      rw [hr] at hrest
      obtain ⟨t', ht', hct⟩ := hrest
      exact ⟨t', ht', ht, hct⟩
  | error err s' =>
      rw [hr] at hrest
      obtain ⟨err', t', ht', hct⟩ := hrest
      exact ⟨err', t', ht', ht, hct⟩

end Tracking

section TrackingLoops

variable [DecidableEq τ] {tok : τ} {s t : σ}

theorem TracksAt.optional {x y : EStateM ε σ α} {d : α}
    (h : next s = some tok → next t = some tok → TracksAt s t x y) :
    TracksAt s t (optional tok x d) (optional tok y d) := by
  refine .of_next fun tok' hs ht => ?_
  by_cases heq : tok' = tok
  · rw [heq] at hs ht
    exact .congr (optional_of_next hs) (optional_of_next ht) (h hs ht)
  · have hne : some tok' ≠ some tok := fun h => heq (Option.some.inj h)
    exact .congr (optional_of_ne (hs ▸ hne)) (optional_of_ne (ht ▸ hne)) (.pure d)

theorem IsMany.forward {item : EStateM ε σ α} {loop : Nat → EStateM ε σ (List α)}
    (h : IsMany tok item loop) (hitem : Forward item) (n : Nat) : Forward (loop n) := by
  induction n with
  | zero =>
      intro s
      rw [h.stop]
      exact ⟨[], rfl⟩
  | succ n ih =>
      intro s
      rw [h.turn]
      split
      · exact Forward.bind hitem (fun a => .bind ih fun as => .pure _) s
      · exact ⟨[], rfl⟩

/-- A loop on two streams, with a bound for each that the loop does not reach. -/
theorem IsMany.tracks {item : EStateM ε σ α} {loop : Nat → EStateM ε σ (List α)}
    (h : IsMany tok item loop) (hmove : Forward item)
    (hpos : ∀ s a s', next s = some tok → item s = .ok a s' → size s' < size s)
    (hitem : ∀ s t, next s = some tok → next t = some tok → TracksAt s t item item) (n : Nat) :
    ∀ (n' : Nat) (s t : σ), size s ≤ n → size t ≤ n' → TracksAt s t (loop n) (loop n') := by
  induction n with
  | zero => exact fun n' s t hs _ => .of_next_eq_none (next_eq_none_of_size (Nat.le_zero.1 hs))
  | succ n ih =>
      intro n' s t hs ht
      refine .of_next fun tok' hns hnt => ?_
      obtain _ | n' := n'
      · rw [next_eq_none_of_size (Nat.le_zero.1 ht)] at hnt
        cases hnt
      by_cases heq : tok' = tok
      · rw [heq] at hns hnt
        refine .congr ((h.turn n s).trans (if_pos hns)) ((h.turn n' t).trans (if_pos hnt)) ?_
        refine .bind hmove (fun a => .bind (h.forward hmove n) fun as => .pure _)
          (hitem s t hns hnt) fun a s' t' hs' ht' => ?_
        -- the item has used up at least one token on either side
        have hless := hpos s a s' hns hs'
        have hless' := hpos t a t' hnt ht'
        exact .bind (h.forward hmove n) (fun as => .pure _) (ih n' s' t' (by omega) (by omega))
          fun as _ _ _ _ => .pure _
      · have hne : some tok' ≠ some tok := fun h => heq (Option.some.inj h)
        exact .congr ((h.turn n s).trans (if_neg (hns ▸ hne)))
          ((h.turn n' t).trans (if_neg (hnt ▸ hne))) (.pure [])

section Chains

variable {x x' y y' : EStateM ε σ α} {g : α → α → α} {loop loop' : Nat → α → EStateM ε σ α}

theorem IsChain.turn_eq (h : IsChain tok x g loop y) {n : Nat} {a : α} (hn : next s = some tok) :
    loop (n + 1) a s =
      ((modify tail : EStateM ε σ PUnit) >>= fun _ => x >>= fun b => loop n (g a b)) s :=
  (h.turn n a s).trans (if_pos hn)

theorem IsChain.forward_loop (h : IsChain tok x g loop y) (hx : Forward x) (n : Nat) :
    ∀ a, Forward (loop n a) := by
  induction n with
  | zero =>
      intro a s
      rw [h.stop]
      exact ⟨[], rfl⟩
  | succ n ih =>
      intro a s
      rw [h.turn]
      split
      · rename_i hn
        obtain ⟨used, hused⟩ := Forward.bind hx (fun b => ih (g a b)) (tail s)
        exact ⟨tok :: used, hn, hused⟩
      · exact ⟨[], rfl⟩

theorem IsChain.tracks_loop (h : IsChain tok x g loop y) (h' : IsChain tok x' g loop' y')
    (hf : Forward x) (hf' : Forward x') {m m' : Nat}
    (hx : ∀ s t, size s ≤ m → size t ≤ m' → TracksAt s t x x') (n : Nat) :
    ∀ (n' : Nat) (a : α) (s t : σ), size s ≤ n → size t ≤ n' → size s ≤ m → size t ≤ m' →
      TracksAt s t (loop n a) (loop' n' a) := by
  induction n with
  | zero => exact fun _ _ s t hs _ _ _ => .of_next_eq_none (next_eq_none_of_size (Nat.le_zero.1 hs))
  | succ n ih =>
      intro n' a s t hs ht hsm htm
      refine .of_next fun tok' hns hnt => ?_
      have hsize := size_tail s (by simp [hns])
      have hsize' := size_tail t (by simp [hnt])
      obtain _ | n' := n'
      · omega
      by_cases heq : tok' = tok
      · rw [heq] at hns hnt
        refine .congr (h.turn_eq hns) (h'.turn_eq hnt) ?_
        refine .step rfl rfl (.bind hf fun b => h.forward_loop hf n _) hns hnt ?_
        refine .bind hf (fun b => h.forward_loop hf n _) (hx _ _ (by omega) (by omega))
          fun b s' t' hs' ht' => ?_
        have hle := hf.size_le hs'
        have hle' := hf'.size_le ht'
        exact ih n' (g a b) s' t' (by omega) (by omega) (by omega) (by omega)
      · have hne : some tok' ≠ some tok := fun h => heq (Option.some.inj h)
        exact .congr ((h.turn n a s).trans (if_neg (hns ▸ hne)))
          ((h'.turn n' a t).trans (if_neg (hnt ▸ hne))) (.pure a)

theorem IsChain.tracks (h : IsChain tok x g loop y) (h' : IsChain tok x' g loop' y')
    (hf : Forward x) (hf' : Forward x') {m m' : Nat}
    (hx : ∀ s t, size s ≤ m → size t ≤ m' → TracksAt s t x x') (hs : size s ≤ m)
    (ht : size t ≤ m') : TracksAt s t y y' := by
  have hrest : ∀ a, Forward (withSize fun n => loop n a) := fun a s =>
    h.forward_loop hf (size s) a s
  refine .congr (h.start s) (h'.start t) (.bind hf hrest (hx s t hs ht) fun a s' t' hs' ht' => ?_)
  have hle := hf.size_le hs'
  have hle' := hf'.size_le ht'
  exact h.tracks_loop h' hf hf' hx (size s') (size t') a s' t' (Nat.le_refl _) (Nat.le_refl _)
    (by omega) (by omega)

end Chains

end TrackingLoops

end Morceau.Lib
