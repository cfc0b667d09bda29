import Morceau.Lib.EState
import Morceau.Lib.Tokens
import Morceau.Lib.Utf8
import Morceau.Query.Lexer

/-!
# What the lexer reads

The lexer reads the bytes of a query, one character per byte. Up to offsets and errors it is a
tokenizer of the library (`tokensOf_eq`): a token is read alike whatever it starts at and whatever
comes after a character that `Separates`.

A string literal collects one character per byte too. A quote closes whatever token comes before it,
so a literal is read in the same way anywhere in a query. What it stands for is its text with each
character replaced by the bytes of its UTF-8 encoding, which is the text itself exactly if the text
is ASCII (`perByte_eq_iff`).
-/

set_option autoImplicit false

namespace Morceau

open Lib

namespace Lexer

/-! ## What a token takes -/

/-- No token goes on over the character. -/
structure Separates (c : Char) : Prop where
  ident : isIdentContinue c = false
  dot : c ≠ '.'
  eq : c ≠ '='
  gt : c ≠ '>'

/-- What follows is nothing, or begins with such a character. -/
def Closing (tail : List Char) : Prop := ∀ c, tail.head? = some c → Separates c

theorem takeWhile_append_of_head {p : Char → Bool} {tail : List Char}
    (h : ∀ c, tail.head? = some c → p c = false) (cs : List Char) :
    (cs ++ tail).takeWhile p = cs.takeWhile p := by
  induction cs with
  | nil =>
      cases tail with
      | nil => rfl
      | cons c tail => simp [h c rfl]
  | cons c cs ih => rw [List.cons_append, List.takeWhile_cons, List.takeWhile_cons, ih]

namespace Closing

variable {tail : List Char} (h : Closing tail)

include h

theorem takeWhile_ident (cs : List Char) :
    (cs ++ tail).takeWhile isIdentContinue = cs.takeWhile isIdentContinue :=
  takeWhile_append_of_head (fun c hc => (h c hc).ident) cs

theorem isDigit_eq_false {c : Char} (hc : tail.head? = some c) : isDigit c = false := by
  have hident := (h c hc).ident
  simp only [isIdentContinue, Bool.or_eq_false_iff] at hident
  exact hident.1.2

theorem takeWhile_digit (cs : List Char) :
    (cs ++ tail).takeWhile isDigit = cs.takeWhile isDigit :=
  takeWhile_append_of_head (fun _ hc => h.isDigit_eq_false hc) cs

theorem head?_append {x : Char} (hx : ¬Separates x) (cs : List Char) :
    (cs ++ tail).head? = some x ↔ cs.head? = some x := by
  cases cs with
  | nil =>
      simp only [List.nil_append, List.head?_nil, reduceCtorEq, iff_false]
      exact fun hc => hx (h x hc)
  | cons c cs => rfl

end Closing

section ScanString

variable {start i : Nat} {quote c : Char} {cs : List Char}

theorem scanString_quote : scanString start quote i (quote :: cs) = .ok ([], 1) := by
  rw [scanString.eq_def]
  exact if_pos rfl

theorem scanString_escape {e : Char} (hquote : '\\' ≠ quote) (h : unescape e = some c) :
    scanString start quote i ('\\' :: e :: cs) =
      (scanString start quote (i + 2) cs).map fun r => (c :: r.1, r.2 + 2) := by
  rw [scanString, if_neg hquote, if_pos rfl, h]
  cases scanString start quote (i + 2) cs <;> rfl

theorem scanString_plain (hquote : c ≠ quote) (hslash : c ≠ '\\') :
    scanString start quote i (c :: cs) =
      (scanString start quote (i + 1) cs).map fun r => (c :: r.1, r.2 + 1) := by
  rw [scanString.eq_def]
  simp only [if_neg hquote, if_neg hslash]
  cases scanString start quote (i + 1) cs <;> rfl

/-- A literal ends at its closing quote, whatever follows. -/
theorem scanString_spec : ∀ {out : List Char} {n : Nat},
    scanString start quote i cs = .ok (out, n) → (∃ k, n = k + 1 ∧ cs[k]? = some quote) ∧
      ∀ start' i' tail, scanString start' quote i' (cs ++ tail) = .ok (out, n) := by
  induction i, cs using scanString.induct quote with
  | case1 i =>
      intro out n h
      cases h
  | case2 i cs =>
      intro out n h
      rw [scanString_quote] at h
      cases h
      exact ⟨⟨0, rfl, rfl⟩, fun _ _ _ => scanString_quote⟩
  | case3 i hquote =>
      -- a backslash at the end
      intro out n h
      rw [scanString, if_neg hquote, if_pos rfl] at h
      cases h
  | case4 i e cs hesc hquote =>
      -- a backslash before a character that has no escape
      intro out n h
      rw [scanString, if_neg hquote, if_pos rfl, hesc] at h
      cases h
  | case5 i e cs d hesc hquote ih =>
      intro out n h
      rw [scanString_escape hquote hesc] at h
      cases hrest : scanString start quote (i + 2) cs with
      | error err =>
          rw [hrest] at h
          cases h
      | ok r =>
          rw [hrest] at h
          cases h
          obtain ⟨⟨k, hk, hend⟩, hall⟩ := ih hrest
          refine ⟨⟨k + 2, by rw [hk], hend⟩, fun start' i' tail => ?_⟩
          rw [List.cons_append, List.cons_append, scanString_escape hquote hesc, hall]
          rfl
  | case6 i c cs hquote hslash ih =>
      intro out n h
      rw [scanString_plain hquote hslash] at h
      cases hrest : scanString start quote (i + 1) cs with
      | error err =>
          rw [hrest] at h
          cases h
      | ok r =>
          rw [hrest] at h
          cases h
          obtain ⟨⟨k, hk, hend⟩, hall⟩ := ih hrest
          refine ⟨⟨k + 1, by rw [hk], hend⟩, fun start' i' tail => ?_⟩
          rw [List.cons_append, scanString_plain hquote hslash, hall]
          rfl

end ScanString

/-- What comes after a dot. -/
def afterDot : List Char → Option (List Char)
  | '.' :: rest => some rest
  | _ => none

theorem afterDot_append {cs tail : List Char} (h : Closing tail) :
    afterDot (cs ++ tail) = (afterDot cs).map (· ++ tail) := by
  cases cs with
  | nil =>
      cases tail with
      | nil => rfl
      | cons c tail =>
          have hdot := (h c rfl).dot
          simp [afterDot, hdot]
  | cons c cs =>
      by_cases hdot : c = '.'
      · subst hdot
        rfl
      · simp [afterDot, hdot]

theorem eq_cons_of_afterDot {cs rest : List Char} (h : afterDot cs = some rest) :
    cs = '.' :: rest := by
  unfold afterDot at h
  split at h
  · cases h
    rfl
  · cases h

/-- A number after its sign. -/
def scanUnsigned (start : Nat) (neg : Bool) (sign : Nat) (cs : List Char) :
    Except LexError (Token × Nat) :=
  let ds := cs.takeWhile isDigit
  if ds.isEmpty then .error (.invalidNumber start)
  else
    match afterDot (cs.drop ds.length) with
    | some rest =>
        let frac := rest.takeWhile isDigit
        if frac.isEmpty then .error (.invalidNumber start)
        else
          .ok (.float (F64.roundRat neg (digitsValue (ds ++ frac)) (10 ^ frac.length)),
            sign + ds.length + 1 + frac.length)
    | none =>
        match parseI64 neg ds with
        | some n => .ok (.integer n, sign + ds.length)
        | none => .error (.invalidNumber start)

theorem scanNumber_eq (start : Nat) (cs : List Char) :
    scanNumber start cs = scanUnsigned start (cs.head? == some '-')
      (if cs.head? == some '-' then 1 else 0)
      (cs.drop (if cs.head? == some '-' then 1 else 0)) := by
  simp only [scanNumber, scanUnsigned]
  generalize (cs.drop (if cs.head? == some '-' then 1 else 0)) = rest
  by_cases hempty : (rest.takeWhile isDigit).isEmpty = true
  · rw [if_pos hempty, if_pos hempty]
  · rw [if_neg hempty, if_neg hempty]
    generalize rest.drop (rest.takeWhile isDigit).length = after
    cases after with
    | nil => rfl
    | cons c after =>
        by_cases hdot : c = '.'
        · subst hdot
          rfl
        · have hafter : afterDot (c :: after) = none := by simp [afterDot, hdot]
          rewrite [hafter]
          split
          · rename_i hcons
            exact absurd (List.cons.inj hcons).1 hdot
          · rfl

theorem scanUnsigned_spec {start sign n : Nat} {neg : Bool} {cs : List Char} {t : Token}
    (h : scanUnsigned start neg sign cs = .ok (t, n)) :
    (sign + 1 ≤ n ∧ n ≤ sign + cs.length) ∧
      ∀ start' tail, Closing tail → scanUnsigned start' neg sign (cs ++ tail) = .ok (t, n) := by
  rw [scanUnsigned] at h
  simp only [scanUnsigned]
  generalize hds : cs.takeWhile isDigit = ds at h
  have hle : ds.length ≤ cs.length := by
    rw [← hds]
    exact (List.takeWhile_sublist _).length_le
  cases hempty : ds.isEmpty with
  | true =>
      rw [hempty] at h
      cases h
  | false =>
      have hpos : 1 ≤ ds.length := by
        cases ds with
        | nil => cases hempty
        | cons d ds => simp
      have hafter : ∀ tail, Closing tail → afterDot ((cs ++ tail).drop ds.length) =
          (afterDot (cs.drop ds.length)).map (· ++ tail) := fun tail htail => by
        rw [List.drop_append_of_le_length hle, afterDot_append htail]
      simp only [hempty, Bool.false_eq_true, if_false] at h
      cases hdot : afterDot (cs.drop ds.length) with
      | some rest =>
          -- a fraction, whose digits end before what closes the token too
          have hlen := congrArg List.length (eq_cons_of_afterDot hdot)
          rw [List.length_drop, List.length_cons] at hlen
          have hfrac := (List.takeWhile_sublist isDigit (l := rest)).length_le
          simp only [hdot] at h
          split at h
          · cases h
          · rename_i hne
            cases h
            refine ⟨by omega, fun start' tail htail => ?_⟩
            simp only [htail.takeWhile_digit, hds, hempty, hafter tail htail, hdot,
              Option.map_some, Bool.false_eq_true, if_false, hne]
      | none =>
          simp only [hdot] at h
          cases hparse : parseI64 neg ds with
          | none =>
              rw [hparse] at h
              cases h
          | some i =>
              rw [hparse] at h
              cases h
              refine ⟨by omega, fun start' tail htail => ?_⟩
              simp only [htail.takeWhile_digit, hds, hempty, hafter tail htail, hdot, hparse,
                Option.map_none, Bool.false_eq_true, if_false]

theorem scanNumber_spec {cs : List Char} {start n : Nat} {t : Token}
    (h : scanNumber start cs = .ok (t, n)) :
    (1 ≤ n ∧ n ≤ cs.length) ∧
      ∀ start' tail, Closing tail → scanNumber start' (cs ++ tail) = .ok (t, n) := by
  cases cs with
  | nil => cases h
  | cons c cs =>
      -- the sign is the first character, which is there
      rw [scanNumber_eq, List.head?_cons] at h
      obtain ⟨⟨hpos, hbound⟩, hall⟩ := scanUnsigned_spec h
      have hsign : (if some c == some '-' then 1 else 0) ≤ (c :: cs).length := by
        split <;> simp
      rw [List.length_drop] at hbound
      refine ⟨by omega, fun start' tail htail => ?_⟩
      rw [scanNumber_eq, List.cons_append, List.head?_cons, ← List.cons_append,
        List.drop_append_of_le_length hsign]
      exact hall start' tail htail

theorem isIdentContinue_of_isIdentStart {c : Char} (h : isIdentStart c = true) :
    isIdentContinue c = true := by
  simp only [isIdentStart, isIdentContinue, Bool.or_eq_true] at h ⊢
  rcases h with h | h
  · exact .inl (.inl h)
  · exact .inr h

/-- A way to read a token from its first character on, given what follows: the token takes that
character and a part of what follows, and is read in the same way before what closes it. -/
def Steady (f : Nat → List Char → Except LexError (Token × Nat)) : Prop :=
  ∀ start cs t n, f start cs = .ok (t, n) → (1 ≤ n ∧ n ≤ cs.length + 1) ∧
    ∀ start' tail, Closing tail → f start' (cs ++ tail) = .ok (t, n)

namespace Steady

variable {f g : Nat → List Char → Except LexError (Token × Nat)}

theorem error (err : Nat → LexError) : Steady fun start _ => .error (err start) := by
  intro start cs t n h
  cases h

theorem one (t : Token) : Steady fun _ _ => .ok (t, 1) := by
  intro start cs t' n h
  cases h
  exact ⟨by omega, fun _ _ _ => rfl⟩

theorem ite {p : Prop} [Decidable p] (hf : p → Steady f) (hg : Steady g) :
    Steady fun start cs => if p then f start cs else g start cs := by
  by_cases hp : p
  · simp only [if_pos hp]
    exact hf hp
  · simp only [if_neg hp]
    exact hg

/-- A token of two characters, if the second is there. -/
theorem pair {x : Char} (hx : ¬Separates x) (t : Token) (hg : Steady g) :
    Steady fun start cs => if cs.head? = some x then .ok (t, 2) else g start cs := by
  intro start cs t' n h
  by_cases hnext : cs.head? = some x
  · simp only [if_pos hnext] at h
    cases h
    obtain ⟨rest, rfl⟩ := List.head?_eq_some_iff.1 hnext
    refine ⟨by simp, fun start' tail htail => ?_⟩
    simp only [htail.head?_append hx, if_pos hnext]
  · simp only [if_neg hnext] at h
    obtain ⟨hbounds, hall⟩ := hg _ _ _ _ h
    refine ⟨hbounds, fun start' tail htail => ?_⟩
    simp only [htail.head?_append hx, if_neg hnext, hall start' tail htail]

/-- A token that depends on whether a digit follows. -/
theorem digit (hf : Steady f) (hg : Steady g) :
    Steady fun start cs =>
      if (cs.head?.map isDigit).getD false then f start cs else g start cs := by
  have hnext : ∀ {tail : List Char} (cs : List Char), Closing tail →
      ((cs ++ tail).head?.map isDigit).getD false = (cs.head?.map isDigit).getD false := by
    intro tail cs htail
    cases cs with
    | cons c cs => rfl
    | nil =>
        cases tail with
        | nil => rfl
        | cons c tail => exact htail.isDigit_eq_false rfl
  intro start cs t n h
  by_cases hdigit : (cs.head?.map isDigit).getD false = true
  · simp only [if_pos hdigit] at h
    obtain ⟨hbounds, hall⟩ := hf _ _ _ _ h
    refine ⟨hbounds, fun start' tail htail => ?_⟩
    simp only [hnext cs htail, if_pos hdigit, hall start' tail htail]
  · simp only [if_neg hdigit] at h
    obtain ⟨hbounds, hall⟩ := hg _ _ _ _ h
    refine ⟨hbounds, fun start' tail htail => ?_⟩
    simp only [hnext cs htail, if_neg hdigit, hall start' tail htail]

theorem number (c : Char) : Steady fun start cs => scanNumber start (c :: cs) := by
  intro start cs t n h
  obtain ⟨hbounds, hall⟩ := scanNumber_spec h
  exact ⟨hbounds, hall⟩

theorem string (c : Char) :
    Steady fun start cs => scanString start c (start + 1) cs >>= fun r =>
      pure (.string (String.ofList r.1), r.2 + 1) := by
  intro start cs t n h
  obtain ⟨⟨out, k⟩, hscan, h⟩ := exceptBind_eq_ok_iff.1 h
  cases h
  obtain ⟨⟨j, rfl, hend⟩, hall⟩ := scanString_spec hscan
  have hle : j < cs.length := (List.getElem?_eq_some_iff.1 hend).1
  exact ⟨by omega, fun start' tail _ => exceptBind_eq_ok_iff.2 ⟨_, hall start' _ tail, rfl⟩⟩

theorem param : Steady fun start cs =>
    let name := cs.takeWhile isIdentContinue
    if name.isEmpty then .error (.unexpected '$' start)
    else .ok (.param (String.ofList name), 1 + name.length) := by
  intro start cs t n h
  have hle := (List.takeWhile_sublist isIdentContinue (l := cs)).length_le
  by_cases hempty : (cs.takeWhile isIdentContinue).isEmpty = true
  · simp only [if_pos hempty] at h
    cases h
  · simp only [if_neg hempty] at h
    cases h
    refine ⟨by omega, fun start' tail htail => ?_⟩
    simp only [htail.takeWhile_ident, if_neg hempty]

theorem name {c : Char} (hc : isIdentStart c = true) : Steady fun _ cs =>
    let name := (c :: cs).takeWhile isIdentContinue
    .ok (keywordOrIdent name, name.length) := by
  intro start cs t n h
  cases h
  have hcontinue := isIdentContinue_of_isIdentStart hc
  have hle := (List.takeWhile_sublist isIdentContinue (l := cs)).length_le
  refine ⟨by simp [hcontinue, hle], fun start' tail htail => ?_⟩
  simp only [← List.cons_append, htail.takeWhile_ident]

end Steady

/-- Every token is read in the same way before what closes it. -/
theorem steady_lexToken (c : Char) : Steady fun start cs => lexToken start c cs := by
  have heq : ¬Separates '=' := fun hsep => hsep.eq rfl
  have hgt : ¬Separates '>' := fun hsep => hsep.gt rfl
  unfold lexToken
  cases punctuation c with
  | some t => exact .one t
  | none =>
      simp only
      refine .ite (fun _ => ?_) <| .ite (fun _ => .pair heq .notEq (.error _)) <|
        .ite (fun _ => .pair heq .ltEq (.one .lt)) <| .ite (fun _ => .pair heq .gtEq (.one .gt)) <|
        .ite (fun _ => .string c) <| .ite (fun _ => .param) <|
        .ite (fun _ => .pair hgt .arrow (.digit (.number c) (.one .dash))) <|
        .ite (fun _ => .number c) <| .ite (fun hc => .name hc) (.error _)
      -- `==` is read as `=`
      have hpair := Steady.pair heq .eq (.one .eq)
      simpa only [← apply_ite] using hpair

/-! ## The lexer as a tokenizer -/

theorem toOption_eq_some_iff {ε α : Type} {x : Except ε α} {a : α} :
    x.toOption = some a ↔ x = .ok a := by
  cases x <;> simp [Except.toOption]

/-- The lexer without its offsets and errors. -/
def tokenizer : Tokenizer Char Token where
  skip := isWhitespace
  next c cs := (lexToken 0 c cs).toOption
  progress h := (steady_lexToken _ _ _ _ _ (toOption_eq_some_iff.1 h)).1

/-- Where a token starts matters for its errors only. -/
theorem toOption_lexToken (start start' : Nat) (c : Char) (cs : List Char) :
    (lexToken start c cs).toOption = (lexToken start' c cs).toOption := by
  have hsame : ∀ s s' token, lexToken s c cs = .ok token → lexToken s' c cs = .ok token := by
    intro s s' token h
    have := (steady_lexToken c s cs token.1 token.2 h).2 s' [] (by simp [Closing])
    rwa [List.append_nil] at this
  refine Option.ext fun token => ?_
  rw [toOption_eq_some_iff, toOption_eq_some_iff]
  exact ⟨hsame _ _ token, hsame _ _ token⟩

/-- The loop of `lex` at an offset, with as many turns as there are bytes left. -/
def lexFrom (i : Nat) (cs : List Char) : Except LexError (List Spanned) := lexLoop cs.length i cs

/-- As many turns as there are bytes are enough. -/
theorem lexLoop_eq_lexLoop {fuel : Nat} : ∀ (fuel' : Nat) {i : Nat} {cs : List Char},
    cs.length ≤ fuel → cs.length ≤ fuel' → lexLoop fuel i cs = lexLoop fuel' i cs := by
  induction fuel with
  | zero =>
      intro fuel' i cs h _
      obtain rfl : cs = [] := List.eq_nil_of_length_eq_zero (Nat.le_zero.1 h)
      cases fuel' <;> rfl
  | succ fuel ih =>
      intro fuel' i cs h h'
      cases cs with
      | nil => cases fuel' <;> rfl
      | cons c cs =>
          cases fuel' with
          | zero => exact absurd h' (by simp)
          | succ fuel' =>
              rw [List.length_cons] at h h'
              rw [lexLoop, lexLoop, ih fuel' (by omega) (by omega)]
              cases htoken : lexToken i c cs with
              | error err => rfl
              | ok r =>
                  -- a token takes a byte, so what is left is shorter
                  have hpos := (steady_lexToken c i cs r.1 r.2 htoken).1.1
                  have hlen : ((c :: cs).drop r.2).length ≤ cs.length := by
                    rw [List.length_drop, List.length_cons]
                    omega
                  rw [exceptBind_ok, exceptBind_ok]
                  dsimp only
                  rw [ih fuel' (by omega) (by omega)]

section LexFrom

variable {i : Nat} {c : Char} {cs : List Char}

theorem lexFrom_nil : lexFrom i [] = .ok [] := rfl

theorem lexFrom_space (h : isWhitespace c = true) :
    lexFrom i (c :: cs) = lexFrom (i + 1) cs := by
  rw [lexFrom, List.length_cons, lexLoop, if_pos h]
  rfl

theorem lexFrom_token (h : ¬isWhitespace c = true) :
    lexFrom i (c :: cs) = lexToken i c cs >>= fun r =>
      lexFrom (i + r.2) ((c :: cs).drop r.2) >>= fun out => pure (⟨r.1, i⟩ :: out) := by
  rw [lexFrom, List.length_cons, lexLoop, if_neg h]
  cases htoken : lexToken i c cs with
  | error err => rfl
  | ok r =>
      have hpos := (steady_lexToken c i cs r.1 r.2 htoken).1.1
      rw [exceptBind_ok, exceptBind_ok, lexFrom]
      dsimp only
      rw [lexLoop_eq_lexLoop ((c :: cs).drop r.2).length ?_ (Nat.le_refl _)]
      rw [List.length_drop, List.length_cons]
      omega

end LexFrom

theorem lexLoop_eq_run (fuel : Nat) : ∀ (i : Nat) (cs : List Char),
    (lexLoop fuel i cs).toOption.map (List.map Spanned.token) = tokenizer.run fuel cs := by
  induction fuel with
  | zero =>
      intro i cs
      cases cs <;> rfl
  | succ fuel ih =>
      intro i cs
      cases cs with
      | nil => rfl
      | cons c cs =>
          rw [lexLoop, Tokenizer.run]
          show _ = if isWhitespace c then _ else (lexToken 0 c cs).toOption.bind _
          rw [toOption_lexToken 0 i]
          by_cases hskip : isWhitespace c = true
          · rw [if_pos hskip, if_pos hskip, ih]
          · rw [if_neg hskip, if_neg hskip]
            cases lexToken i c cs with
            | error err => rfl
            | ok token =>
                show _ = (tokenizer.run fuel ((c :: cs).drop token.2)).bind _
                rw [← ih (i + token.2)]
                show Option.map _ (Except.toOption (lexLoop fuel (i + token.2) _ >>= _)) = _
                cases lexLoop fuel (i + token.2) ((c :: cs).drop token.2) <;> rfl

theorem Separates.closes {c : Char} (h : Separates c) : tokenizer.Closes c := by
  intro a as token rest hnext
  rw [tokenizer, toOption_eq_some_iff] at hnext
  refine toOption_eq_some_iff.2 ((steady_lexToken a _ _ _ _ hnext).2 0 (c :: rest) ?_)
  intro x hx
  cases hx
  exact h

/-! ## One character per byte -/

/-- The bytes of a text, each read as a character. -/
def perByteChars (cs : List Char) : List Char := (Wire.utf8 cs).map charOf

theorem perByteChars_cons (c : Char) (cs : List Char) :
    perByteChars (c :: cs) = (String.utf8EncodeChar c).map charOf ++ perByteChars cs := by
  rw [perByteChars, Wire.utf8, List.flatMap_cons, List.map_append]
  rfl

theorem perByteChars_append (cs ds : List Char) :
    perByteChars (cs ++ ds) = perByteChars cs ++ perByteChars ds := by
  rw [perByteChars, Wire.utf8, List.flatMap_append, List.map_append]
  rfl

theorem toNat_charOf (b : UInt8) : (charOf b).toNat = b.toNat := by
  have hvalid : b.toNat.isValidChar := .inl (by have := b.toNat_lt; omega)
  rw [charOf, Char.ofNat, dif_pos hvalid]
  rfl

/-- The character is in the ASCII range. -/
def IsAscii (c : Char) : Prop := c.toNat < 128

instance (c : Char) : Decidable (IsAscii c) := inferInstanceAs (Decidable (c.toNat < 128))

theorem isAscii_of_isDigit {d : Char} (h : isDigit d = true) : IsAscii d := by
  simp only [isDigit, Bool.and_eq_true, decide_eq_true_eq] at h
  have hle : d.toNat ≤ '9'.toNat := h.2
  exact Nat.lt_of_le_of_lt hle (by decide)

theorem isAscii_of_isIdentContinue {d : Char} (h : isIdentContinue d = true) : IsAscii d := by
  simp only [isIdentContinue, isAlpha, Bool.or_eq_true, Bool.and_eq_true, decide_eq_true_eq,
    beq_iff_eq] at h
  rcases h with ((h | h) | h) | h
  · have hle : d.toNat ≤ 'z'.toNat := h.2
    exact Nat.lt_of_le_of_lt hle (by decide)
  · have hle : d.toNat ≤ 'Z'.toNat := h.2
    exact Nat.lt_of_le_of_lt hle (by decide)
  · exact isAscii_of_isDigit h
  · subst h
    decide

/-- An ASCII character is its own byte. -/
theorem map_charOf_of_isAscii {c : Char} (h : IsAscii c) :
    (String.utf8EncodeChar c).map charOf = [c] := by
  have hlt : c.toNat < 128 := h
  rw [utf8EncodeChar_of_ascii hlt, List.map_singleton, List.cons_eq_cons]
  refine ⟨Char.toNat_inj.1 ?_, rfl⟩
  rw [toNat_charOf, UInt8.toNat_ofNat', Nat.mod_eq_of_lt (by omega)]

/-- The bytes of any other character are two or more, and none of them is in the ASCII range. -/
theorem map_charOf_of_not_isAscii {c : Char} (h : ¬IsAscii c) :
    2 ≤ ((String.utf8EncodeChar c).map charOf).length ∧
      ∀ d ∈ (String.utf8EncodeChar c).map charOf, ¬IsAscii d := by
  obtain ⟨lead, more, henc, hne, hlead, hmore⟩ := utf8EncodeChar_of_not_ascii h
  have hpos := List.length_pos_iff.2 hne
  rw [henc]
  refine ⟨by rw [List.length_map, List.length_cons]; omega, fun d hd => ?_⟩
  obtain ⟨b, hb, rfl⟩ := List.mem_map.1 hd
  rw [IsAscii, toNat_charOf]
  rcases List.mem_cons.1 hb with rfl | hb
  · omega
  · exact Nat.not_lt.2 (hmore b hb)

theorem perByteChars_cons_of_isAscii {c : Char} (h : IsAscii c) (cs : List Char) :
    perByteChars (c :: cs) = c :: perByteChars cs := by
  rw [perByteChars_cons, map_charOf_of_isAscii h, List.singleton_append]

theorem length_le_perByteChars (cs : List Char) : cs.length ≤ (perByteChars cs).length := by
  induction cs with
  | nil => exact Nat.le_refl _
  | cons c cs ih =>
      rw [perByteChars_cons, List.length_append, List.length_cons]
      by_cases hc : IsAscii c
      · rw [map_charOf_of_isAscii hc, List.length_singleton]
        omega
      · have := (map_charOf_of_not_isAscii hc).1
        omega

/-- A text is its own bytes exactly if it is ASCII: any other character makes it longer. -/
theorem perByteChars_eq_iff {cs : List Char} : perByteChars cs = cs ↔ ∀ c ∈ cs, IsAscii c := by
  induction cs with
  | nil => exact ⟨fun _ c hc => absurd hc List.not_mem_nil, fun _ => rfl⟩
  | cons c cs ih =>
      rw [List.forall_mem_cons, ← ih]
      by_cases hc : IsAscii c
      · rw [perByteChars_cons_of_isAscii hc, List.cons_eq_cons]
        exact ⟨fun h => ⟨hc, h.2⟩, fun h => ⟨rfl, h.2⟩⟩
      · refine ⟨fun h => ?_, fun h => absurd h.1 hc⟩
        have hlen := congrArg List.length h
        rw [perByteChars_cons, List.length_append, List.length_cons] at hlen
        have := (map_charOf_of_not_isAscii hc).1
        have := length_le_perByteChars cs
        omega

/-! ## Spellings -/

/-- The quotes. -/
def IsQuote (quote : Char) : Prop := quote = '\x22' ∨ quote = '\x27'

theorem IsQuote.isAscii {quote : Char} (h : IsQuote quote) : IsAscii quote := by
  rcases h with rfl | rfl <;> decide

theorem IsQuote.separates {quote : Char} (h : IsQuote quote) : Separates quote := by
  rcases h with rfl | rfl <;> exact ⟨by decide, by decide, by decide, by decide⟩

/-- The ways to write a text between quotes: each character as it is, unless it is the quote or a
backslash, or as an escape. -/
inductive Spells (quote : Char) : List Char → List Char → Prop where
  | nil : Spells quote [] []
  | plain {c : Char} {text body : List Char} (hquote : c ≠ quote) (hslash : c ≠ '\\')
      (h : Spells quote text body) : Spells quote (c :: text) (c :: body)
  | escape {e c : Char} {text body : List Char} (he : unescape e = some c)
      (h : Spells quote text body) : Spells quote (c :: text) ('\\' :: e :: body)

/-- A character with an escape for a backslash, the quote, a new line and a tab. -/
def escapeChar (quote c : Char) : List Char :=
  if c = '\\' ∨ c = quote then ['\\', c]
  else if c = '\n' then ['\\', 'n']
  else if c = '\t' then ['\\', 't']
  else [c]

theorem spells_escapeChar {quote : Char} (hquote : IsQuote quote) (text : List Char) :
    Spells quote text (text.flatMap (escapeChar quote)) := by
  induction text with
  | nil => exact .nil
  | cons c text ih =>
      rw [List.flatMap_cons, escapeChar]
      split
      · rename_i hc
        refine .escape ?_ ih
        rcases hc with rfl | rfl
        · rfl
        · rcases hquote with rfl | rfl <;> rfl
      · rename_i hc
        obtain ⟨hslash, hne⟩ := not_or.1 hc
        split
        · rename_i hc
          subst hc
          exact .escape rfl ih
        · split
          · rename_i hc
            subst hc
            exact .escape rfl ih
          · exact .plain hne hslash ih

/-- An escape stands for an ASCII character. -/
theorem isAscii_of_unescape {e c : Char} (h : unescape e = some c) : IsAscii e ∧ IsAscii c := by
  unfold unescape at h
  split at h <;> cases h <;> exact ⟨by decide, by decide⟩

variable {quote : Char} {start i : Nat}

/-- Characters that are neither the quote nor a backslash are collected. -/
theorem scanString_append {ds : List Char} (cs : List Char) :
    ∀ {i : Nat}, (∀ d ∈ ds, d ≠ quote ∧ d ≠ '\\') →
      scanString start quote i (ds ++ cs) = (scanString start quote (i + ds.length) cs).map
        fun r => (ds ++ r.1, r.2 + ds.length) := by
  induction ds with
  | nil =>
      intro i _
      rw [List.nil_append, List.length_nil, Nat.add_zero]
      cases scanString start quote i cs <;> rfl
  | cons d ds ih =>
      intro i h
      obtain ⟨⟨hquote, hslash⟩, hds⟩ := List.forall_mem_cons.1 h
      rw [List.cons_append, scanString_plain hquote hslash, ih hds, List.length_cons,
        Nat.add_assoc i 1, Nat.add_comm 1]
      cases scanString start quote (i + (ds.length + 1)) cs <;> rfl

/-- A spelling is read as the bytes of its text. -/
theorem scanString_spells (hquote : IsQuote quote) {text body : List Char}
    (h : Spells quote text body) (rest : List Char) : ∀ {i : Nat},
      scanString start quote i (perByteChars body ++ quote :: rest) =
        .ok (perByteChars text, (perByteChars body).length + 1) := by
  have hslash' : '\\' ≠ quote := by
    rcases hquote with rfl | rfl <;> decide
  induction h with
  | nil => exact scanString_quote
  | @plain c text body hne hslash _ ih =>
      intro i
      -- the bytes of the character are itself, or none of them is in the ASCII range
      have hbytes : ∀ d ∈ (String.utf8EncodeChar c).map charOf, d ≠ quote ∧ d ≠ '\\' := by
        intro d hd
        by_cases hc : IsAscii c
        · rw [map_charOf_of_isAscii hc, List.mem_singleton] at hd
          subst hd
          exact ⟨hne, hslash⟩
        · have hd := (map_charOf_of_not_isAscii hc).2 d hd
          exact ⟨fun heq => hd (heq ▸ hquote.isAscii), fun heq => hd (heq ▸ by decide)⟩
      rw [perByteChars_cons, perByteChars_cons, List.append_assoc, scanString_append _ hbytes, ih,
        List.length_append]
      generalize (String.utf8EncodeChar c).map charOf = bytes
      have hlen : (perByteChars body).length + 1 + bytes.length =
          bytes.length + (perByteChars body).length + 1 := by omega
      exact congrArg (fun n => Except.ok (bytes ++ perByteChars text, n)) hlen
  | @escape e c text body he _ ih =>
      intro i
      obtain ⟨hesc, hc⟩ := isAscii_of_unescape he
      have hslash : IsAscii '\\' := by decide
      rw [perByteChars_cons_of_isAscii hslash, perByteChars_cons_of_isAscii hesc,
        perByteChars_cons_of_isAscii hc, List.cons_append, List.cons_append,
        scanString_escape hslash' he, ih]
      rfl

/-- The token of a literal. -/
theorem lexToken_spells (hquote : IsQuote quote) {text body : List Char}
    (h : Spells quote text body) (rest : List Char) :
    lexToken start quote (perByteChars body ++ quote :: rest) =
      .ok (.string (String.ofList (perByteChars text)), (perByteChars body).length + 2) := by
  have hquoted : lexToken start quote (perByteChars body ++ quote :: rest) =
      scanString start quote (start + 1) (perByteChars body ++ quote :: rest) >>= fun r =>
        pure (.string (String.ofList r.1), r.2 + 1) := by
    rcases hquote with rfl | rfl <;> rfl
  rw [hquoted, scanString_spells hquote h]
  rfl

end Lexer

open Lexer

/-! ## Literals in a query -/

/-- The tokens of a text. -/
def tokensOf (s : String) : Option (List Token) :=
  (lex s).toOption.map (List.map Spanned.token)

theorem tokensOf_eq (s : String) : tokensOf s = tokenizer.tokens (perByteChars s.toList) :=
  lexLoop_eq_run _ 0 _

/-- The text with one character per byte of its UTF-8 encoding. -/
def perByte (s : String) : String := String.ofList (perByteChars s.toList)

theorem perByte_eq_iff {s : String} : perByte s = s ↔ ∀ c ∈ s.toList, IsAscii c := by
  rw [← perByteChars_eq_iff, perByte, ← String.toList_inj, String.toList_ofList]

/-- The literal is the text, spelled in some way between quotes. -/
structure IsLiteral (text lit : String) : Prop where
  spelled : ∃ quote body, IsQuote quote ∧ Spells quote text.toList body ∧
    lit.toList = quote :: (body ++ [quote])

/-- The literal with an escape for each backslash, quote, new line and tab. -/
def escapedLiteral (quote : Char) (text : String) : String :=
  String.ofList (quote :: (text.toList.flatMap (escapeChar quote) ++ [quote]))

theorem isLiteral_escapedLiteral {quote : Char} (hquote : IsQuote quote) (text : String) :
    IsLiteral text (escapedLiteral quote text) :=
  ⟨quote, _, hquote, spells_escapeChar hquote text.toList, String.toList_ofList⟩

/-- A literal is one token, whatever follows. -/
theorem IsLiteral.tokens_append {text lit : String} (h : IsLiteral text lit) (rest : List Char) :
    tokenizer.tokens (perByteChars lit.toList ++ rest) =
      (tokenizer.tokens rest).map (.string (perByte text) :: ·) := by
  obtain ⟨quote, body, hquote, hbody, hlit⟩ := h.spelled
  have hascii := hquote.isAscii
  have hskip : tokenizer.skip quote = false := by
    rcases hquote with rfl | rfl <;> decide
  have hchars : perByteChars lit.toList ++ rest =
      quote :: (perByteChars body ++ quote :: rest) := by
    rw [hlit, perByteChars_cons_of_isAscii hascii, perByteChars_append,
      perByteChars_cons_of_isAscii hascii]
    simp [perByteChars, Wire.utf8]
  have hnext : tokenizer.next quote (perByteChars body ++ quote :: rest) =
      some (.string (perByte text), (perByteChars body).length + 2) :=
    toOption_eq_some_iff.2 (lexToken_spells hquote hbody rest)
  rw [hchars, Tokenizer.tokens_cons hskip, hnext, Option.bind_some]
  simp

/-- A quote closes every token, so a literal is read in the same way anywhere. -/
theorem IsLiteral.tokensOf_embedded {text lit pre post : String} (h : IsLiteral text lit)
    {before after : List Token} (hpre : tokensOf pre = some before)
    (hpost : tokensOf post = some after) :
    tokensOf (pre ++ lit ++ post) = some (before ++ .string (perByte text) :: after) := by
  rw [tokensOf_eq] at hpre hpost ⊢
  have hlit := h.tokens_append (perByteChars post.toList)
  rw [hpost] at hlit
  obtain ⟨quote, body, hquote, -, hchars⟩ := h.spelled
  have hascii := hquote.isAscii
  rw [hchars, perByteChars_cons_of_isAscii hascii, List.cons_append] at hlit
  rw [String.toList_append, String.toList_append, perByteChars_append, perByteChars_append,
    List.append_assoc, hchars, perByteChars_cons_of_isAscii hascii, List.cons_append,
    Tokenizer.tokens_append hquote.separates.closes _ _ (le_refl _) hpre, hlit]
  rfl

end Morceau
