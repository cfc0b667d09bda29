import Morceau.Query.Rendering
import Morceau.Query.Unparsing

/-!
# Printing a parsed statement

A statement that was parsed from a text can be printed as a text again: its tokens are names,
numbers and strings of the first text and punctuation. For a text in the ASCII range every token
that the lexer returns can be rendered, but for floats, whose decimals are not modelled. So whatever
way the tokens of the statement are rendered, the text parses back to the statement
(`printed_statement_parses_back`).
-/

set_option autoImplicit false

namespace Morceau

open Lib Lexer

/-! ## What the lexer returns -/

/-- The token can be rendered, or it is a float. -/
def Lexed (t : Token) : Prop := Renderable t ∨ ∃ x, t = .float x

/-- A token without text of its own. -/
def Token.isFixed : Token → Bool
  | .ident _ | .param _ | .string _ | .integer _ | .float _ => false
  | _ => true

theorem Token.lexed_of_isFixed {t : Token} (h : t.isFixed = true) : Lexed t := by
  cases t <;> first | exact .inl trivial | cases h

/-- A name that is no keyword, or a keyword. -/
theorem lexed_keywordOrIdent {word : List Char} (h : IsIdent word) :
    Lexed (keywordOrIdent word) := by
  rw [keywordOrIdent_eq]
  cases hk : keywords.lookup (upper word) with
  | none =>
      left
      rw [List.lookup_eq_none_iff] at hk
      refine ⟨by rwa [String.toList_ofList], fun k hmem => ?_⟩
      rw [String.toList_ofList]
      simpa using hk k hmem
  | some t =>
      obtain ⟨before, after, hsplit, -⟩ := List.lookup_eq_some_iff.1 hk
      have hmem : (upper word, t) ∈ keywords := by simp [hsplit]
      have hfixed : ∀ k ∈ keywords, k.2.isFixed = true := by decide
      exact Token.lexed_of_isFixed (hfixed _ hmem)

theorem isAscii_of_scanString {start : Nat} {quote : Char} (cs : List Char) :
    ∀ {i : Nat} {out : List Char} {n : Nat}, scanString start quote i cs = .ok (out, n) →
      (∀ c ∈ cs, IsAscii c) → ∀ c ∈ out, IsAscii c := by
  intro i
  induction i, cs using scanString.induct quote with
  | case1 i =>
      intro out n h
      cases h
  | case2 i cs =>
      intro out n h _
      rw [scanString_quote] at h
      cases h
      simp
  | case3 i hquote =>
      intro out n h
      rw [scanString, if_neg hquote, if_pos rfl] at h
      cases h
  | case4 i e cs hesc hquote =>
      intro out n h
      rw [scanString, if_neg hquote, if_pos rfl, hesc] at h
      cases h
  | case5 i e cs d hesc hquote ih =>
      intro out n h hascii
      rw [scanString_escape hquote hesc] at h
      cases hrest : scanString start quote (i + 2) cs with
      | error err =>
          rw [hrest] at h
          cases h
      | ok r =>
          rw [hrest] at h
          cases h
          have htail := ih hrest fun c hc => hascii c (by simp [hc])
          exact List.forall_mem_cons.2 ⟨(isAscii_of_unescape hesc).2, htail⟩
  | case6 i c cs hquote hslash ih =>
      intro out n h hascii
      rw [scanString_plain hquote hslash] at h
      cases hrest : scanString start quote (i + 1) cs with
      | error err =>
          rw [hrest] at h
          cases h
      | ok r =>
          rw [hrest] at h
          cases h
          have htail := ih hrest fun c hc => hascii c (by simp [hc])
          exact List.forall_mem_cons.2 ⟨hascii c (by simp), htail⟩

/-- A way to read a token that returns such tokens only. -/
def ReadsLexed (x : Except LexError (Token × Nat)) : Prop := ∀ r, x = .ok r → Lexed r.1

namespace ReadsLexed

theorem error (err : LexError) : ReadsLexed (.error err) := fun _ h => nomatch h

theorem ok {t : Token} (n : Nat) (h : Lexed t) : ReadsLexed (.ok (t, n)) := by
  intro r hr
  cases hr
  exact h

theorem ite {p : Prop} [Decidable p] {x y : Except LexError (Token × Nat)}
    (hx : p → ReadsLexed x) (hy : ¬p → ReadsLexed y) : ReadsLexed (if p then x else y) := by
  by_cases hp : p
  · rw [if_pos hp]
    exact hx hp
  · rw [if_neg hp]
    exact hy hp

/-- An integer, or a float. -/
theorem number (start : Nat) (cs : List Char) : ReadsLexed (scanNumber start cs) := by
  rw [scanNumber_eq]
  generalize (cs.drop (if cs.head? == some '-' then 1 else 0)) = rest
  refine ite (fun _ => error _) fun _ => ?_
  cases afterDot (rest.drop (rest.takeWhile isDigit).length) with
  | some frac => exact ite (fun _ => error _) fun _ => ok _ (.inr ⟨_, rfl⟩)
  | none =>
      dsimp only
      cases parseI64 (cs.head? == some '-') (rest.takeWhile isDigit) with
      | some n => exact ok _ (.inl trivial)
      | none => exact error _

theorem string (start : Nat) (c : Char) {cs : List Char} (hascii : ∀ d ∈ cs, IsAscii d) :
    ReadsLexed (scanString start c (start + 1) cs >>= fun r =>
      pure (.string (String.ofList r.1), r.2 + 1)) := by
  intro token h
  cases hscan : scanString start c (start + 1) cs with
  | error err =>
      rw [hscan] at h
      cases h
  | ok r =>
      rw [hscan] at h
      cases h
      left
      show ∀ d ∈ (String.ofList r.1).toList, IsAscii d
      rw [String.toList_ofList]
      exact isAscii_of_scanString cs hscan hascii

theorem param (start : Nat) (cs : List Char) :
    ReadsLexed (let name := cs.takeWhile isIdentContinue
      if name.isEmpty then .error (.unexpected '$' start)
      else .ok (.param (String.ofList name), 1 + name.length)) := by
  refine ite (fun _ => error _) fun hne => ok _ (.inl ?_)
  show _ ≠ [] ∧ _
  rw [String.toList_ofList]
  exact ⟨by simpa using hne, fun d hd => List.mem_takeWhile_imp hd⟩

theorem name {c : Char} (cs : List Char) (hc : isIdentStart c = true) :
    ReadsLexed (let name := (c :: cs).takeWhile isIdentContinue
      .ok (keywordOrIdent name, name.length)) := by
  refine ok _ (lexed_keywordOrIdent ?_)
  rw [List.takeWhile_cons_of_pos (isIdentContinue_of_isIdentStart hc)]
  exact ⟨hc, fun d hd => List.mem_takeWhile_imp hd⟩

end ReadsLexed

/-- Each of the tokens can be rendered, or is a float. -/
def AllLexed (ts : List Token) : Prop := ∀ t ∈ ts, Lexed t

namespace AllLexed

@[simp] theorem nil_iff : AllLexed [] ↔ True := by simp [AllLexed]

@[simp] theorem cons_iff {t : Token} {ts : List Token} :
    AllLexed (t :: ts) ↔ Lexed t ∧ AllLexed ts := List.forall_mem_cons

@[simp] theorem append_iff {ts us : List Token} :
    AllLexed (ts ++ us) ↔ AllLexed ts ∧ AllLexed us := List.forall_mem_append

end AllLexed

theorem lexed_star {α : Type} {D : List Token → α → Prop} {f : α → List Token} {used : List Token}
    {as : List α} (h : Star D used as) (hused : AllLexed used)
    (hD : ∀ {used a}, D used a → AllLexed used → AllLexed (f a)) : AllLexed (as.flatMap f) := by
  induction h with
  | nil => simp
  | cons ha _ ih =>
      obtain ⟨hfirst, hrest⟩ := AllLexed.append_iff.1 hused
      rw [List.flatMap_cons]
      exact AllLexed.append_iff.2 ⟨hD ha hfirst, ih hrest⟩

/-- Every phrase of a separated list is a part of the tokens. -/
theorem lexed_sepBy {α : Type} {D : List Token → α → Prop} {f : α → List Token} {used : List Token}
    {as : List α} (h : SepBy .comma D used as) (hused : AllLexed used)
    (hD : ∀ {used a}, D used a → AllLexed used → AllLexed (f a)) : ∀ a ∈ as, AllLexed (f a) := by
  induction h with
  | one ha => exact List.forall_mem_singleton.2 (hD ha hused)
  | cons ha _ ih =>
      obtain ⟨hfirst, hrest⟩ := AllLexed.append_iff.1 hused
      exact List.forall_mem_cons.2 ⟨hD ha hfirst, ih (AllLexed.cons_iff.1 hrest).2⟩

theorem lexed_commaTokens : ∀ {tss : List (List Token)}, (∀ ts ∈ tss, AllLexed ts) →
    AllLexed (commaTokens tss)
  | [], _ => by simp [commaTokens]
  | [ts], h => h ts (by simp)
  | ts :: us :: tss, h => by
      obtain ⟨hts, hrest⟩ := List.forall_mem_cons.1 h
      rw [commaTokens]
      · exact AllLexed.append_iff.2 ⟨hts, AllLexed.cons_iff.2
          ⟨Token.lexed_of_isFixed rfl, lexed_commaTokens hrest⟩⟩
      · exact List.cons_ne_nil us tss

/-- The phrases of a separated list, printed with commas. -/
theorem lexed_commaTokens_map {α : Type} {D : List Token → α → Prop} {f : α → List Token}
    {used : List Token} {as : List α} (h : SepBy .comma D used as) (hused : AllLexed used)
    (hD : ∀ {used a}, D used a → AllLexed used → AllLexed (f a)) :
    AllLexed (commaTokens (as.map f)) :=
  lexed_commaTokens (List.forall_mem_map.2 (lexed_sepBy h hused hD))

theorem lexed_path {used : List Token} {path : List String} (h : PathPhrase used path)
    (hused : AllLexed used) : AllLexed (pathTokens path) :=
  lexed_star h.keys hused fun hkey hk => by
    obtain ⟨key⟩ := hkey
    exact hk

theorem ExprPhrase.lexed {l : Precedence} {used : List Token} {e : Expr} (h : ExprPhrase l used e)
    (hused : AllLexed used) : AllLexed e.tokens := by
  -- the tokens of a binary expression are those of its operands and fixed ones
  have hbinary : ∀ {op : BinOp} {lhs rhs : Expr}, AllLexed lhs.tokens → AllLexed rhs.tokens →
      AllLexed (Expr.binary op lhs rhs).tokens := by
    intro op lhs rhs hl hr
    have hop : Lexed op.token := Token.lexed_of_isFixed (by cases op <;> rfl)
    have hopen : Lexed .lParen := Token.lexed_of_isFixed rfl
    have hclose : Lexed .rParen := Token.lexed_of_isFixed rfl
    simp [Expr.tokens, hl, hr, hop, hopen, hclose]
  induction h with
  | parens _ ih =>
      simp only [List.cons_append, AllLexed.cons_iff, AllLexed.append_iff] at hused
      exact ih hused.2.1
  | literal ht =>
      rw [Expr.tokens, literalToken_eq_some_iff.2 ht]
      exact hused
  | param _ => exact hused
  | idOf _ => exact hused
  | property var hpath =>
      obtain ⟨hvar, hrest⟩ := AllLexed.cons_iff.1 hused
      exact AllLexed.cons_iff.2 ⟨hvar, lexed_path hpath hrest⟩
  | compare _ _ _ ihl ihr | and _ _ ihl ihr | or _ _ ihl ihr =>
      obtain ⟨hl, hr⟩ := AllLexed.append_iff.1 hused
      exact hbinary (ihl hl) (ihr (AllLexed.cons_iff.1 hr).2)
  | not _ ih =>
      obtain ⟨hnot, hrest⟩ := AllLexed.cons_iff.1 hused
      have hopen : Lexed .lParen := Token.lexed_of_isFixed rfl
      have hclose : Lexed .rParen := Token.lexed_of_isFixed rfl
      simp [Expr.tokens, ih hrest, hnot, hopen, hclose]
  | ofPrimary _ ih | ofComparison _ ih | ofNot _ ih | ofAnd _ ih => exact ih hused

/-- The entries of a map are entries of the block that it was read from. -/
theorem PropertyMapPhrase.lexed {used : List Token} {props : BTreeMap String Expr}
    (h : PropertyMapPhrase used props) (hused : AllLexed used) :
    ∀ entry ∈ props.toList, AllLexed (entryTokens entry) := by
  cases h with
  | empty => simp
  | @entries _ entries _ hentries hlast =>
      simp only [List.cons_append, AllLexed.cons_iff, AllLexed.append_iff] at hused
      have hall := lexed_sepBy (f := entryTokens) hentries hused.2.1 (by
        rintro _ _ ⟨key, hexpr⟩ hentry
        simp only [AllLexed.cons_iff] at hentry
        simp [entryTokens, hentry, hexpr.lexed hentry.2.2])
      rintro ⟨key, e⟩ hmem
      have he := Std.ExtTreeMap.mem_toList_iff_getElem?_eq_some.1 hmem
      rw [hlast] at he
      obtain ⟨before, after, hsplit, -⟩ := List.lookup_eq_some_iff.1 he
      exact hall _ (List.mem_reverse.1 (by simp [hsplit]))

theorem BlockPhrase.lexed {used : List Token} {label : Option String}
    {props : BTreeMap String Expr} (h : BlockPhrase used (label, props)) (hused : AllLexed used) :
    AllLexed (blockTokens label props) := by
  obtain ⟨hlabel, hprops⟩ := h
  obtain ⟨hfirst, hrest⟩ := AllLexed.append_iff.1 hused
  refine AllLexed.append_iff.2 ⟨?_, ?_⟩
  · cases hlabel with
    | none => exact hfirst
    | some label => exact hfirst
  · split
    · simp
    · cases hprops with
      | none => rename_i hne; exact absurd rfl hne
      | map hmap =>
          have hopen : Lexed .lBrace := Token.lexed_of_isFixed rfl
          have hclose : Lexed .rBrace := Token.lexed_of_isFixed rfl
          have hentries := lexed_commaTokens (List.forall_mem_map.2 (hmap.lexed hrest))
          simp [hentries, hopen, hclose]

theorem NodePhrase.lexed {used : List Token} {np : NodePattern} (h : NodePhrase used np)
    (hused : AllLexed used) : AllLexed np.tokens := by
  obtain ⟨var, hblock⟩ := h
  simp only [List.cons_append, AllLexed.cons_iff, AllLexed.append_iff] at hused
  simp [NodePattern.tokens, hused, hblock.lexed hused.2.2.1]

theorem HopPhrase.lexed {used : List Token} {hop : EdgePattern × NodePattern}
    (h : HopPhrase used hop) (hused : AllLexed used) :
    AllLexed (hop.1.tokens ++ hop.2.tokens) := by
  obtain ⟨⟨var, hblock⟩, hnode⟩ := h
  simp only [List.cons_append, AllLexed.cons_iff, AllLexed.append_iff] at hused
  obtain ⟨hdash, hopen, hvar, ⟨hinner, hclose, harrow, -⟩, hmore⟩ := hused
  simp [EdgePattern.tokens, hdash, hopen, hvar, hclose, harrow, hblock.lexed hinner,
    hnode.lexed hmore]

theorem PatternPhrase.lexed {used : List Token} {pattern : Pattern}
    (h : PatternPhrase used pattern) (hused : AllLexed used) : AllLexed pattern.tokens := by
  cases h with
  | node hnode => exact hnode.lexed hused
  | path hstart hchain _ =>
      obtain ⟨hfirst, hrest⟩ := AllLexed.append_iff.1 hused
      exact AllLexed.append_iff.2 ⟨hstart.lexed hfirst,
        lexed_star hchain hrest fun hhop hh => hhop.lexed hh⟩

theorem CollectPhrase.lexed {used : List Token} {target : CollectTarget}
    (h : CollectPhrase used target) (hused : AllLexed used) : AllLexed target.tokens := by
  cases h with
  | var _ => exact hused
  | property _ hpath =>
      obtain ⟨hvar, hrest⟩ := AllLexed.cons_iff.1 hused
      exact AllLexed.cons_iff.2 ⟨hvar, lexed_path hpath hrest⟩

theorem ReturnItemPhrase.lexed {used : List Token} {item : ReturnItem}
    (h : ReturnItemPhrase used item) (hused : AllLexed used) : AllLexed item.tokens := by
  cases h with
  | var _ => exact hused
  | count _ => exact hused
  | property _ hpath =>
      obtain ⟨hvar, hrest⟩ := AllLexed.cons_iff.1 hused
      exact AllLexed.cons_iff.2 ⟨hvar, lexed_path hpath hrest⟩
  | collect htarget =>
      simp only [List.cons_append, AllLexed.cons_iff, AllLexed.append_iff] at hused
      obtain ⟨hname, hopen, hinner, hclose, -⟩ := hused
      simp [ReturnItem.tokens, hname, hopen, hclose, htarget.lexed hinner]

theorem MatchPhrase.lexed {used : List Token} {patterns : List Pattern} {whereClause : Option Expr}
    (h : MatchPhrase used (patterns, whereClause)) (hused : AllLexed used) :
    AllLexed (matchTokens patterns whereClause) := by
  obtain ⟨hpatterns, hwhere⟩ := h
  simp only [List.cons_append, AllLexed.cons_iff, AllLexed.append_iff] at hused
  obtain ⟨hkw, hfirst, hrest⟩ := hused
  have hlist := lexed_commaTokens_map hpatterns hfirst fun hp => hp.lexed
  have hcond : AllLexed (whereTokens whereClause) := by
    cases hwhere with
    | none => exact hrest
    | some he =>
        obtain ⟨hkw, hexpr⟩ := AllLexed.cons_iff.1 hrest
        exact AllLexed.cons_iff.2 ⟨hkw, he.lexed hexpr⟩
  simp [matchTokens, hkw, hlist, hcond]

theorem OrderByPhrase.lexed {used : List Token} {orderBy : Option OrderBy}
    (h : OrderByPhrase used orderBy) (hused : AllLexed used) :
    AllLexed (orderByTokens orderBy) := by
  cases h with
  | none => exact hused
  | @some _ _ e direction he hd =>
      simp only [List.cons_append, AllLexed.cons_iff, AllLexed.append_iff] at hused
      have hdirection : Lexed direction.token := Token.lexed_of_isFixed (by cases direction <;> rfl)
      simp [orderByTokens, hused, he.lexed hused.2.2.1, hdirection]

theorem LimitPhrase.lexed {used : List Token} {limit : Option Nat} (h : LimitPhrase used limit) :
    AllLexed (limitTokens limit) := by
  have hkw : Lexed .limit := Token.lexed_of_isFixed rfl
  have hint : ∀ i, Lexed (.integer i) := fun _ => .inl trivial
  cases h <;> simp [limitTokens, hkw, hint]

/-- A statement is printed with tokens that it was read from and fixed ones. -/
theorem StatementPhrase.lexed {used : List Token} {s : Statement} (h : StatementPhrase used s)
    (hused : AllLexed used) : AllLexed s.tokens := by
  cases h with
  | create hnode | merge hnode =>
      obtain ⟨hkw, hrest⟩ := AllLexed.cons_iff.1 hused
      exact AllLexed.cons_iff.2 ⟨hkw, hnode.lexed hrest⟩
  | matchReturn hm hi ho hl =>
      simp only [AllLexed.cons_iff, AllLexed.append_iff] at hused
      obtain ⟨hmatch, hkw, ⟨hitems, horder⟩, -⟩ := hused
      have hlist := lexed_commaTokens_map hi hitems fun hitem => hitem.lexed
      simp [Statement.tokens, hm.lexed hmatch, hkw, hlist, ho.lexed horder, hl.lexed]
  | @matchDelete _ _ _ _ detach var hm hd =>
      simp only [AllLexed.cons_iff, AllLexed.append_iff] at hused
      obtain ⟨⟨hmatch, -⟩, hkw, hvar, -⟩ := hused
      have hdetach : Lexed .detach := Token.lexed_of_isFixed rfl
      cases detach <;> simp [Statement.tokens, hm.lexed hmatch, hkw, hvar, hdetach]

/-! ## Printing -/

end Morceau
