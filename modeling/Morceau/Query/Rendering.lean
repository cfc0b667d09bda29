import Mathlib.Data.List.TakeWhile
import Morceau.Query.Lexing

/-!
# Lexing undoes rendering

A token is rendered as its text: a keyword in any letter case, a parameter after its sign, an
integer in decimal, a string between quotes with escapes, anything else as it is. A text of such
words with white space between them is read as the tokens (`lex_undoes_rendering`).

Each kind of word is read as its token, from the first character to the last (`tokens_of_renders`).
White space in the ASCII range is skipped and closes every token, so the words do not run into each
other, and the rule of the library for words and gaps applies (`tokens_of_spaced`).
-/

set_option autoImplicit false

namespace Morceau

open Lib Lexer

/-! ## Rendering -/

/-- The keywords. -/
def keywords : List (String × Token) :=
  [("CREATE", .create), ("MATCH", .matchKw), ("MERGE", .merge), ("WHERE", .whereKw),
    ("RETURN", .returnKw), ("DELETE", .delete), ("DETACH", .detach), ("LIMIT", .limit),
    ("ORDER", .order), ("BY", .byKw), ("ASC", .asc), ("DESC", .desc), ("AND", .and), ("OR", .or),
    ("NOT", .not), ("TRUE", .trueKw), ("FALSE", .falseKw), ("NULL", .null)]

/-- Punctuation and operators; `=` has two spellings. -/
def symbols : List (String × Token) :=
  [("(", .lParen), (")", .rParen), ("\x7b", .lBrace), ("\x7d", .rBrace), ("[", .lBracket),
    ("]", .rBracket), (",", .comma), (":", .colon), (".", .dot), ("->", .arrow), ("-", .dash),
    ("=", .eq), ("==", .eq), ("!=", .notEq), ("<", .lt), (">", .gt), ("<=", .ltEq), (">=", .gtEq)]

/-- The word in capital letters. -/
def upper (word : List Char) : String := String.ofList (word.map toAsciiUppercase)

/-- A letter or an underscore, and then letters, digits and underscores. -/
def IsIdent : List Char → Prop
  | [] => False
  | c :: cs => isIdentStart c = true ∧ ∀ d ∈ cs, isIdentContinue d = true

/-- An integer in decimal. -/
def decimal (n : Int64) : List Char :=
  if n.toInt < 0 then '-' :: Nat.toDigits 10 n.toInt.natAbs else Nat.toDigits 10 n.toInt.natAbs

/-- The tokens that can be rendered: identifiers that are no keyword in any letter case, parameters
with a name, strings in the ASCII range, and everything else but floats. -/
def Renderable : Token → Prop
  | .ident name => IsIdent name.toList ∧ ∀ k ∈ keywords, upper name.toList ≠ k.1
  | .param name => name.toList ≠ [] ∧ ∀ d ∈ name.toList, isIdentContinue d = true
  | .string s => ∀ c ∈ s.toList, IsAscii c
  | .float _ => False
  | _ => True

/-- The word is a text of the token. For a string this is any of its literals, the one with an
escape for each backslash, quote, new line and tab among them (`isLiteral_escapedLiteral`). -/
inductive Renders : Token → List Char → Prop where
  | keyword {k : String × Token} (hk : k ∈ keywords) {word : List Char} (h : upper word = k.1) :
      Renders k.2 word
  | symbol {k : String × Token} (hk : k ∈ symbols) : Renders k.2 k.1.toList
  | ident (name : String) : Renders (.ident name) name.toList
  | param (name : String) : Renders (.param name) ('$' :: name.toList)
  | integer (n : Int64) : Renders (.integer n) (decimal n)
  | string {s lit : String} (h : IsLiteral s lit) : Renders (.string s) lit.toList

/-- White space in the ASCII range. -/
def IsAsciiSpace (c : Char) : Prop := isWhitespace c = true ∧ IsAscii c

/-- The text is white space and then the words of the tokens with white space after them. -/
def Rendered (ts : List Token) (text : String) : Prop :=
  ∃ lead body, text.toList = lead ++ body ∧ (∀ c ∈ lead, IsAsciiSpace c) ∧
    Tokenizer.Spaced IsAsciiSpace Renders ts body

/-! ## One word -/

/-- What a name is made of is neither white space nor outside of the ASCII range. -/
theorem toNat_of_isIdentContinue {c : Char} (h : isIdentContinue c = true) :
    48 ≤ c.toNat ∧ c.toNat ≤ 122 := by
  simp only [isIdentContinue, isAlpha, isDigit, Bool.or_eq_true, Bool.and_eq_true,
    decide_eq_true_eq, beq_iff_eq] at h
  rcases h with ((⟨hge, hle⟩ | ⟨hge, hle⟩) | ⟨hge, hle⟩) | rfl
  · exact ⟨Nat.le_trans (by decide) hge, hle⟩
  · exact ⟨Nat.le_trans (by decide) hge, Nat.le_trans hle (by decide)⟩
  · exact ⟨hge, Nat.le_trans hle (by decide)⟩
  · decide

theorem isWhitespace_of_isIdentContinue {c : Char} (h : isIdentContinue c = true) :
    isWhitespace c = false := by
  obtain ⟨hge, hle⟩ := toNat_of_isIdentContinue h
  rw [← Bool.not_eq_true, isWhitespace]
  simp only [Bool.or_eq_true, Bool.and_eq_true, decide_eq_true_eq, beq_iff_eq]
  omega

theorem IsAsciiSpace.separates {c : Char} (h : IsAsciiSpace c) : Separates c where
  ident := by
    rw [← Bool.not_eq_true]
    intro hident
    exact absurd h.1 (by rw [isWhitespace_of_isIdentContinue hident]; decide)
  dot := by
    rintro rfl
    exact absurd h.1 (by decide)
  eq := by
    rintro rfl
    exact absurd h.1 (by decide)
  gt := by
    rintro rfl
    exact absurd h.1 (by decide)

/-- A word that is a token from its first character to its last. -/
theorem tokens_of_lexToken {c : Char} {cs : List Char} {t : Token} (hc : isWhitespace c = false)
    (h : lexToken 0 c cs = .ok (t, cs.length + 1)) : tokenizer.tokens (c :: cs) = some [t] := by
  have hnext : tokenizer.next c cs = some (t, cs.length + 1) := toOption_eq_some_iff.2 h
  rw [Tokenizer.tokens_cons hc, hnext, Option.bind_some]
  dsimp only
  rw [List.drop_eq_nil_of_le (List.length_cons ▸ Nat.le_refl _)]
  rfl

theorem tokens_symbols : ∀ k ∈ symbols, k.1.toList.all (fun c => decide (IsAscii c)) = true ∧
    tokenizer.tokens k.1.toList = some [k.2] := by
  decide

theorem tokens_symbol {k : String × Token} (hk : k ∈ symbols) :
    (∀ c ∈ k.1.toList, IsAscii c) ∧ tokenizer.tokens k.1.toList = some [k.2] := by
  obtain ⟨hascii, htokens⟩ := tokens_symbols k hk
  exact ⟨fun c hc => of_decide_eq_true (List.all_eq_true.1 hascii c hc), htokens⟩

theorem tokens_param {name : List Char} (hne : name ≠ [])
    (h : ∀ d ∈ name, isIdentContinue d = true) :
    tokenizer.tokens ('$' :: name) = some [.param (String.ofList name)] := by
  refine tokens_of_lexToken (by decide) ?_
  have htake : name.takeWhile isIdentContinue = name := List.takeWhile_eq_self_iff.2 h
  show (if (name.takeWhile isIdentContinue).isEmpty = true then _ else _) = _
  rw [htake, if_neg (by simpa using hne), Nat.add_comm]

/-- A token that starts with a letter, a digit or an underscore is a number or a name. -/
theorem lexToken_word {start : Nat} {c : Char} (cs : List Char) (hc : isIdentContinue c = true) :
    lexToken start c cs = if isDigit c then scanNumber start (c :: cs)
      else if isIdentStart c then
        .ok (keywordOrIdent ((c :: cs).takeWhile isIdentContinue),
          ((c :: cs).takeWhile isIdentContinue).length)
      else .error (.unexpected c start) := by
  have hne : ∀ {x : Char}, isIdentContinue x = false → c ≠ x := by
    rintro x hx rfl
    rw [hc] at hx
    cases hx
  have hpunct : punctuation c = none := by
    unfold punctuation
    split <;> first | rfl | exact absurd hc (by decide)
  rw [lexToken, hpunct]
  dsimp only
  rw [if_neg (hne (by decide)), if_neg (hne (by decide)), if_neg (hne (by decide)),
    if_neg (hne (by decide)), if_neg (not_or.2 ⟨hne (by decide), hne (by decide)⟩),
    if_neg (hne (by decide)), if_neg (hne (by decide))]

/-! ## Names and keywords -/

theorem isDigit_of_isIdentStart {c : Char} (h : isIdentStart c = true) : isDigit c = false := by
  rw [← Bool.not_eq_true]
  intro hdigit
  simp only [isDigit, Bool.and_eq_true, decide_eq_true_eq] at hdigit
  simp only [isIdentStart, isAlpha, Bool.or_eq_true, Bool.and_eq_true, decide_eq_true_eq,
    beq_iff_eq] at h
  rcases h with (⟨hge, -⟩ | ⟨hge, -⟩) | rfl
  · exact absurd (Char.le_trans hge hdigit.2) (by decide)
  · exact absurd (Char.le_trans hge hdigit.2) (by decide)
  · exact absurd hdigit.2 (by decide)

theorem tokens_name {word : List Char} (h : IsIdent word) :
    tokenizer.tokens word = some [keywordOrIdent word] := by
  cases word with
  | nil => exact h.elim
  | cons c cs =>
      obtain ⟨hc, hcs⟩ := h
      have hcontinue := isIdentContinue_of_isIdentStart hc
      have htake : (c :: cs).takeWhile isIdentContinue = c :: cs :=
        List.takeWhile_eq_self_iff.2 (List.forall_mem_cons.2 ⟨hcontinue, hcs⟩)
      refine tokens_of_lexToken (isWhitespace_of_isIdentContinue hcontinue) ?_
      rw [lexToken_word cs hcontinue, isDigit_of_isIdentStart hc, if_neg Bool.false_ne_true,
        if_pos hc, htake, List.length_cons]

theorem IsIdent.isIdentContinue {word : List Char} (h : IsIdent word) :
    ∀ c ∈ word, isIdentContinue c = true := by
  cases word with
  | nil => exact h.elim
  | cons c cs => exact List.forall_mem_cons.2 ⟨isIdentContinue_of_isIdentStart h.1, h.2⟩

theorem keywordOrIdent_eq (word : List Char) :
    keywordOrIdent word = (keywords.lookup (upper word)).getD (.ident (String.ofList word)) := by
  unfold keywordOrIdent
  change _ = (keywords.lookup (String.ofList (word.map toAsciiUppercase))).getD _
  generalize String.ofList (word.map toAsciiUppercase) = u
  split
  case h_19 =>
    have hnone : keywords.lookup u = none := by
      rw [List.lookup_eq_none_iff]
      simp only [keywords, List.forall_mem_cons]
      simp_all
    rw [hnone]
    rfl
  all_goals rfl

theorem keywordOrIdent_of_ne {name : String} (h : ∀ k ∈ keywords, upper name.toList ≠ k.1) :
    keywordOrIdent name.toList = .ident name := by
  have hnone : keywords.lookup (upper name.toList) = none := by
    rw [List.lookup_eq_none_iff]
    exact fun k hk => by simpa using h k hk
  rw [keywordOrIdent_eq, hnone, String.ofList_toList]
  rfl

theorem lookup_of_mem_keywords : ∀ k ∈ keywords, keywords.lookup k.1 = some k.2 := by
  decide

theorem keywordOrIdent_of_mem {k : String × Token} (hk : k ∈ keywords) {word : List Char}
    (h : upper word = k.1) : keywordOrIdent word = k.2 := by
  rw [keywordOrIdent_eq, h, lookup_of_mem_keywords k hk]
  rfl

theorem isAlpha_keywords : ∀ k ∈ keywords, k.1 ≠ "" ∧ k.1.toList.all isAlpha = true := by
  decide

/-- Only a letter is a letter in capitals. -/
theorem isAlpha_of_toAsciiUppercase {c : Char} (h : isAlpha (toAsciiUppercase c) = true) :
    isAlpha c = true := by
  rw [toAsciiUppercase] at h
  split at h
  · rename_i hlower
    rw [isAlpha, hlower, Bool.true_or]
  · exact h

/-- A keyword in any letter case has the form of a name. -/
theorem isIdent_of_upper {k : String × Token} (hk : k ∈ keywords) {word : List Char}
    (h : upper word = k.1) : IsIdent word := by
  obtain ⟨hne, hall⟩ := isAlpha_keywords k hk
  rw [← h, upper] at hne hall
  rw [String.toList_ofList, List.all_eq_true] at hall
  have halpha : ∀ c ∈ word, isAlpha c = true := fun c hc =>
    isAlpha_of_toAsciiUppercase (hall _ (List.mem_map_of_mem hc))
  cases word with
  | nil => exact absurd rfl hne
  | cons c cs =>
      obtain ⟨hc, hcs⟩ := List.forall_mem_cons.1 halpha
      refine ⟨by rw [isIdentStart, hc, Bool.true_or], fun d hd => ?_⟩
      rw [Lexer.isIdentContinue, hcs d hd, Bool.true_or, Bool.true_or]

/-! ## Integers -/

theorem digitsValue_toDigits (m : Nat) : digitsValue (Nat.toDigits 10 m) = m :=
  Nat.ofDigitChars_ten_toDigits

theorem isDigit_of_mem_toDigits {m : Nat} {c : Char} (h : c ∈ Nat.toDigits 10 m) :
    isDigit c = true :=
  Nat.isDigit_of_mem_toDigits (by decide) (by decide) h

/-- The digits of an integer are within its range, down to the least one. -/
theorem parseI64_toDigits (n : Int64) :
    parseI64 (decide (n.toInt < 0)) (Nat.toDigits 10 n.toInt.natAbs) = some n := by
  have hge := n.le_toInt
  have hlt := n.toInt_lt
  have hvalue : (if decide (n.toInt < 0) = true then -(n.toInt.natAbs : Int)
      else (n.toInt.natAbs : Int)) = n.toInt := by
    simp only [decide_eq_true_eq]
    split <;> omega
  rw [parseI64, digitsValue_toDigits, hvalue, if_pos ⟨hge, hlt⟩, Int64.ofInt_toInt]

theorem scanUnsigned_digits {start sign : Nat} {neg : Bool} {ds : List Char} {n : Int64}
    (hne : ds ≠ []) (hds : ∀ d ∈ ds, isDigit d = true) (h : parseI64 neg ds = some n) :
    Lexer.scanUnsigned start neg sign ds = .ok (.integer n, sign + ds.length) := by
  rw [Lexer.scanUnsigned, List.takeWhile_eq_self_iff.2 hds]
  dsimp only
  have hnone : afterDot [] = none := rfl
  rw [if_neg (by simpa using hne), List.drop_length, hnone]
  dsimp only
  rw [h]

theorem tokens_decimal (n : Int64) : tokenizer.tokens (decimal n) = some [.integer n] := by
  have hparse := parseI64_toDigits n
  have hds : ∀ d ∈ Nat.toDigits 10 n.toInt.natAbs, isDigit d = true :=
    fun d hd => isDigit_of_mem_toDigits hd
  have hne := Nat.toDigits_ne_nil (n := n.toInt.natAbs) (b := 10)
  rw [decimal]
  generalize Nat.toDigits 10 n.toInt.natAbs = digits at hparse hds hne ⊢
  obtain ⟨d, ds, rfl⟩ := List.exists_cons_of_ne_nil hne
  have hd := hds d (List.mem_cons_self ..)
  have hcontinue : isIdentContinue d = true := by
    rw [isIdentContinue, hd, Bool.or_true, Bool.true_or]
  by_cases hneg : n.toInt < 0
  · -- a minus sign before a digit is the sign of the number
    rw [decide_eq_true hneg] at hparse
    rw [if_pos hneg]
    refine tokens_of_lexToken (by decide) ?_
    have hminus : lexToken 0 '-' (d :: ds) = scanNumber 0 ('-' :: d :: ds) := by
      have hgt : ¬some d = some '>' := by
        rintro ⟨⟩
        cases hd
      show (if some d = some '>' then _ else if isDigit d = true then _ else _) = _
      rw [if_neg hgt, if_pos hd]
    rw [hminus, scanNumber_eq]
    show Lexer.scanUnsigned 0 true 1 (d :: ds) = _
    rw [scanUnsigned_digits hne hds hparse, Nat.add_comm]
  · rw [decide_eq_false hneg] at hparse
    rw [if_neg hneg]
    have hsign : (some d == some '-') = false := by
      rw [← Bool.not_eq_true, beq_iff_eq]
      rintro ⟨⟩
      cases hd
    refine tokens_of_lexToken (isWhitespace_of_isIdentContinue hcontinue) ?_
    rw [lexToken_word ds hcontinue, if_pos hd, scanNumber_eq, List.head?_cons, hsign,
      if_neg Bool.false_ne_true, List.drop_zero, scanUnsigned_digits hne hds hparse, Nat.zero_add]
    rfl

theorem isAscii_decimal (n : Int64) : ∀ c ∈ decimal n, IsAscii c := by
  have hdigits : ∀ c ∈ Nat.toDigits 10 n.toInt.natAbs, IsAscii c :=
    fun c hc => isAscii_of_isDigit (isDigit_of_mem_toDigits hc)
  rw [decimal]
  split
  · exact List.forall_mem_cons.2 ⟨by decide, hdigits⟩
  · exact hdigits

/-! ## Texts -/

/-- A literal of an ASCII text is ASCII. -/
theorem isAscii_of_spells {quote : Char} {text body : List Char} (h : Spells quote text body)
    (htext : ∀ c ∈ text, IsAscii c) : ∀ c ∈ body, IsAscii c := by
  induction h with
  | nil => exact fun c hc => nomatch hc
  | plain hquote hslash h ih =>
      obtain ⟨hc, htext⟩ := List.forall_mem_cons.1 htext
      exact List.forall_mem_cons.2 ⟨hc, ih htext⟩
  | escape he h ih =>
      obtain ⟨-, htext⟩ := List.forall_mem_cons.1 htext
      exact List.forall_mem_cons.2 ⟨by decide,
        List.forall_mem_cons.2 ⟨(isAscii_of_unescape he).1, ih htext⟩⟩

theorem tokens_literal {s lit : String} (h : IsLiteral s lit) (hs : ∀ c ∈ s.toList, IsAscii c) :
    (∀ c ∈ lit.toList, IsAscii c) ∧ tokenizer.tokens lit.toList = some [.string s] := by
  have hlit : ∀ c ∈ lit.toList, IsAscii c := by
    obtain ⟨quote, body, hquote, hbody, heq⟩ := h.spelled
    rw [heq]
    refine List.forall_mem_cons.2 ⟨hquote.isAscii, List.forall_mem_append.2 ⟨?_, ?_⟩⟩
    · exact isAscii_of_spells hbody hs
    · exact List.forall_mem_singleton.2 hquote.isAscii
  have htokens := h.tokens_append []
  rw [List.append_nil, perByteChars_eq_iff.2 hlit, perByte_eq_iff.2 hs] at htokens
  exact ⟨hlit, htokens⟩

/-- A word of a token is an ASCII text and is read as the token. -/
theorem tokens_of_renders {t : Token} {word : List Char} (ht : Renderable t)
    (h : Renders t word) :
    (∀ c ∈ word, IsAscii c) ∧ tokenizer.tokens word = some [t] := by
  cases h with
  | keyword hk h =>
      have hident := isIdent_of_upper hk h
      refine ⟨fun c hc => isAscii_of_isIdentContinue (hident.isIdentContinue c hc), ?_⟩
      rw [tokens_name hident, keywordOrIdent_of_mem hk h]
  | symbol hk => exact tokens_symbol hk
  | ident name =>
      obtain ⟨hident, hkeyword⟩ := ht
      refine ⟨fun c hc => isAscii_of_isIdentContinue (hident.isIdentContinue c hc), ?_⟩
      rw [tokens_name hident, keywordOrIdent_of_ne hkeyword]
  | param name =>
      obtain ⟨hne, hall⟩ := ht
      refine ⟨List.forall_mem_cons.2 ⟨by decide, fun c hc => ?_⟩, ?_⟩
      · exact isAscii_of_isIdentContinue (hall c hc)
      · rw [tokens_param hne hall, String.ofList_toList]
  | integer n => exact ⟨isAscii_decimal n, tokens_decimal n⟩
  | string h => exact tokens_literal h ht

theorem upper_keywords : ∀ k ∈ keywords, upper k.1.toList = k.1 := by
  decide

theorem exists_renders_of_listed {t : Token} (h : t ∈ (keywords ++ symbols).map Prod.snd) :
    ∃ word, Renders t word := by
  obtain ⟨k, hk, rfl⟩ := List.mem_map.1 h
  rcases List.mem_append.1 hk with hk | hk
  · exact ⟨_, .keyword hk (upper_keywords k hk)⟩
  · exact ⟨_, .symbol hk⟩

theorem exists_renders {t : Token} (ht : Renderable t) : ∃ word, Renders t word := by
  cases t with
  | ident name => exact ⟨_, .ident name⟩
  | param name => exact ⟨_, .param name⟩
  | integer n => exact ⟨_, .integer n⟩
  | float x => exact ht.elim
  | string s => exact ⟨_, .string (isLiteral_escapedLiteral (.inl rfl) s)⟩
  | _ => exact exists_renders_of_listed (by decide)

theorem exists_rendered {ts : List Token} (hts : ∀ t ∈ ts, Renderable t) :
    ∃ text, Rendered ts text := by
  have hspaced : ∃ body, Tokenizer.Spaced IsAsciiSpace Renders ts body := by
    induction ts with
    | nil => exact ⟨[], .nil fun c hc => nomatch hc⟩
    | cons t ts ih =>
        obtain ⟨ht, hts⟩ := List.forall_mem_cons.1 hts
        obtain ⟨word, hword⟩ := exists_renders ht
        obtain ⟨rest, hrest⟩ := ih hts
        have hspace : ∀ c ∈ [' '], IsAsciiSpace c := List.forall_mem_singleton.2 ⟨rfl, by decide⟩
        exact ⟨_, .cons hword hspace (fun _ => List.cons_ne_nil _ _) hrest⟩
  obtain ⟨body, hbody⟩ := hspaced
  exact ⟨String.ofList body, [], body, String.toList_ofList, by simp, hbody⟩

theorem isAscii_of_rendered {ts : List Token} {text : String} (hts : ∀ t ∈ ts, Renderable t)
    (h : Rendered ts text) : ∀ c ∈ text.toList, IsAscii c := by
  obtain ⟨lead, body, htext, hlead, hbody⟩ := h
  rw [htext]
  refine List.forall_mem_append.2 ⟨fun c hc => (hlead c hc).2, hbody.forall_mem ?_ ?_⟩
  · intro c hc
    exact hc.2
  · intro t ht word hword
    exact (tokens_of_renders (hts t ht) hword).1

theorem tokensOf_eq_some_iff {s : String} {ts : List Token} :
    tokensOf s = some ts ↔ (lex s).map (List.map Spanned.token) = .ok ts := by
  rw [tokensOf]
  cases lex s with
  | error err => simp [Except.toOption, Except.map]
  | ok out => simp [Except.toOption, Except.map]

/-- Tokens can be rendered, and the tokens of a text in which they are, in whatever way, are these
tokens. -/
theorem lex_undoes_rendering {ts : List Token} (hts : ∀ t ∈ ts, Renderable t) :
    (∃ text, Rendered ts text) ∧
      ∀ text, Rendered ts text → (lex text).map (List.map Spanned.token) = .ok ts := by
  refine ⟨exists_rendered hts, fun text h => ?_⟩
  have hascii := isAscii_of_rendered hts h
  obtain ⟨lead, body, htext, hlead, hbody⟩ := h
  have hspace : ∀ c, IsAsciiSpace c → tokenizer.skip c = true ∧ tokenizer.Closes c :=
    fun c hc => ⟨hc.1, hc.separates.closes⟩
  have hbodyTokens : tokenizer.tokens body = some ts := by
    apply Tokenizer.tokens_of_spaced hspace hbody
    intro t ht word hword
    exact (tokens_of_renders (hts t ht) hword).2
  rw [← tokensOf_eq_some_iff, tokensOf_eq, perByteChars_eq_iff.2 hascii, htext,
    Tokenizer.tokens_gap (fun c hc => (hlead c hc).1), hbodyTokens]

/-- A keyword in small letters, a dash before a negative number, and the least one. -/
theorem least_integer_is_read_back :
    Rendered [.matchKw, .dash, .integer Int64.minValue] " match - \t-9223372036854775808" ∧
      (lex " match - \t-9223372036854775808").map (List.map Spanned.token) =
        .ok [.matchKw, .dash, .integer Int64.minValue] := by
  have hspace : IsAsciiSpace ' ' := ⟨rfl, by decide⟩
  have htab : IsAsciiSpace '\t' := ⟨rfl, by decide⟩
  have hlast : Tokenizer.Spaced IsAsciiSpace Renders [.integer Int64.minValue]
      (decimal Int64.minValue ++ ([] ++ [])) :=
    .cons (.integer _) (by simp) (by simp) (.nil (by simp))
  have hdash : Tokenizer.Spaced IsAsciiSpace Renders [.dash, .integer Int64.minValue]
      ("-".toList ++ ([' ', '\t'] ++ (decimal Int64.minValue ++ ([] ++ [])))) :=
    .cons (.symbol (k := ("-", .dash)) (by decide)) (by simp [hspace, htab]) (by simp) hlast
  have hkeyword : Renders .matchKw "match".toList :=
    .keyword (k := ("MATCH", .matchKw)) (by decide) rfl
  have hrendered : Rendered [.matchKw, .dash, .integer Int64.minValue]
      " match - \t-9223372036854775808" := by
    refine ⟨[' '], "match".toList ++ ([' '] ++ _), ?_, by simp [hspace],
      .cons hkeyword (by simp [hspace]) (by simp) hdash⟩
    decide +kernel
  refine ⟨hrendered, (lex_undoes_rendering ?_).2 _ hrendered⟩
  simp [Renderable]

end Morceau
