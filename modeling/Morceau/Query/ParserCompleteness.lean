import Morceau.Query.ParserSoundness

/-!
# The parser accepts what is in the grammar

Each function of the parser reads every phrase of its kind, with enough fuel and before a token that
does not carry the phrase on. What may follow an expression depends on its level
(`Precedence.Ends`); the other phrases end in a token of their own, or before one of a few. With
soundness, `parse_tokens` accepts exactly the statements of the grammar.
-/

set_option autoImplicit false

namespace Morceau

open Lib TokenStream

/-- The tokens that carry an expression of a level on. -/
def Precedence.continuations : Precedence → List Token
  | .primary => [.dot]
  | .comparison => [.dot, .eq, .notEq, .lt, .gt, .ltEq, .gtEq]
  | .not => [.dot, .eq, .notEq, .lt, .gt, .ltEq, .gtEq]
  | .and => [.dot, .eq, .notEq, .lt, .gt, .ltEq, .gtEq, .and]
  | .or => [.dot, .eq, .notEq, .lt, .gt, .ltEq, .gtEq, .and, .or]

/-- An expression of the level ends before this token. -/
def Precedence.Ends (l : Precedence) (next : Option Token) : Prop :=
  ∀ t ∈ l.continuations, next ≠ some t

instance (l : Precedence) (next : Option Token) : Decidable (l.Ends next) :=
  inferInstanceAs (Decidable (∀ t ∈ l.continuations, next ≠ some t))

theorem Precedence.Ends.tighter {l m : Precedence} {next : Option Token} (h : l.Ends next)
    (hlm : m.continuations ⊆ l.continuations) : m.Ends next :=
  fun t ht => h t (hlm ht)

namespace Parser

/-! ## Completeness of the tokens and paths -/

variable {p p' : Parser} {used : List Token}

theorem expect_of_next {t : Token} (label : String) (h : next p = some t) :
    expect t label p = .ok () (tail p) := by
  rw [expect, bind_of_ok (peek_apply p), if_pos h]
  rfl

theorem expectIdent_of_next {name : String} (label : String) (h : next p = some (.ident name)) :
    expectIdent label p = .ok name (tail p) := by
  rw [expectIdent, bind_of_ok (peek_apply p), h]
  rfl

theorem parsePropertyPath_of_phrase {path : List String} (h : PathPhrase used path)
    (hc : Consumes p used p') (hnext : next p' ≠ some .dot) :
    parsePropertyPath p = .ok path p' := by
  have hkey : Complete (size p) (do advance; expectIdent "property key") KeyPhrase
      fun next => next = some .dot ∨ next ≠ some .dot := by
    rintro q _ _ q' - hc ⟨key⟩ -
    obtain ⟨-, hident, rfl⟩ := hc
    rw [bind_of_ok (advance_apply q), expectIdent_of_next _ hident]
  rw [parsePropertyPath, bind_of_ok (tokensLeft_apply p)]
  exact isMany_parsePropertyPathLoop.complete (by rintro _ _ ⟨_⟩; rfl) (fun _ h => h) hkey le_rfl
    le_rfl hc h.keys hnext

/-! ## Completeness of the expressions -/

section CompleteExpressions

variable {expr : ParseM Expr} {n : Nat}
  (hexpr : Complete n expr (ExprPhrase .or) Precedence.or.Ends)

include hexpr

theorem complete_parsePrimary :
    Complete (n + 1) (parsePrimary expr) (ExprPhrase .primary) Precedence.primary.Ends := by
  intro p used e p' hsize hc he hnext
  cases he with
  | @parens inner _ he =>
      obtain ⟨hopen, p₁, hinner, hclose, rfl⟩ : next p = some .lParen ∧
          ∃ p₁, Consumes (tail p) inner p₁ ∧ next p₁ = some .rParen ∧
            p' = tail p₁ := by
        simpa using hc
      have hless := size_tail p (by simp [hopen])
      rw [parsePrimary, bind_of_ok (peek_apply p), hopen]
      refine (bind_of_ok (advance_apply p)).trans ?_
      rw [bind_of_ok (hexpr (by omega) hinner he (by rw [hclose]; decide)),
        bind_of_ok (expect_of_next _ hclose)]
      rfl
  | literal ht =>
      obtain ⟨htoken, rfl⟩ := hc
      rw [parsePrimary, bind_of_ok (peek_apply p), htoken]
      cases ht <;> rfl
  | param name =>
      obtain ⟨htoken, rfl⟩ := hc
      rw [parsePrimary, bind_of_ok (peek_apply p), htoken]
      rfl
  | idOf var =>
      obtain ⟨hid, hopen, hvar, hclose, rfl⟩ := hc
      rw [parsePrimary, bind_of_ok (peek_apply p), hid]
      refine (bind_of_ok (advance_apply p)).trans ?_
      rw [bind_of_ok (peek_apply _), if_pos ⟨rfl, hopen⟩, bind_of_ok (advance_apply _),
        bind_of_ok (expectIdent_of_next _ hvar), bind_of_ok (expect_of_next _ hclose)]
      rfl
  | property var hpath =>
      obtain ⟨hvar, hrest⟩ := hc
      have hdot : next (tail p) = some .dot := by simp [hrest.next, hpath.head]
      rw [parsePrimary, bind_of_ok (peek_apply p), hvar]
      refine (bind_of_ok (advance_apply p)).trans ?_
      rw [bind_of_ok (peek_apply _), if_neg (by simp [hdot]), if_pos hdot,
        bind_of_ok (parsePropertyPath_of_phrase hpath hrest (hnext _ (by decide)))]
      rfl

theorem complete_parseComparison :
    Complete (n + 1) (parseComparison expr) (ExprPhrase .comparison)
      Precedence.comparison.Ends := by
  intro p used e p' hsize hc he hnext
  cases he with
  | ofPrimary he =>
      -- no comparison follows, so the primary is the whole phrase
      have hnone : (next p').bind comparisonOp = none := by
        cases hn : next p' with
        | none => rfl
        | some t =>
            cases hop : comparisonOp t with
            | none => simp [hop]
            | some op =>
                have := hnext t (by cases comparisonOp_eq_some_iff.1 hop <;> decide)
                exact absurd hn this
      rw [parseComparison,
        bind_of_ok (complete_parsePrimary hexpr hsize hc he (hnext.tighter (by decide))),
        bind_of_ok (peek_apply p'), hnone]
      rfl
  | @compare t op left right lhs rhs ht hl hr =>
      obtain ⟨p₁, hleft, htoken, hright⟩ := consumes_append.1 hc
      have hsize₁ := hleft.size
      have hsize₂ := size_tail p₁ (by simp [htoken])
      have hop : (next p₁).bind comparisonOp = some op := by
        rw [htoken]
        exact comparisonOp_eq_some_iff.2 ht
      have hends : Precedence.primary.Ends (next p₁) := by
        rw [htoken]
        cases ht <;> decide
      rw [parseComparison, bind_of_ok (complete_parsePrimary hexpr hsize hleft hl hends),
        bind_of_ok (peek_apply p₁), hop]
      refine (bind_of_ok (advance_apply p₁)).trans ?_
      rw [bind_of_ok (complete_parsePrimary hexpr (by omega) hright hr (hnext.tighter (by decide)))]
      rfl

theorem complete_parseNot {fuel : Nat} (hfuel : fuel ≤ n + 1) :
    Complete fuel (parseNot expr fuel) (ExprPhrase .not) Precedence.not.Ends := by
  induction fuel with
  | zero =>
      intro p used e p' hsize hc he hnext
      cases he with
      | ofComparison he => exact complete_parseComparison hexpr (by omega) hc he hnext
      | not _ =>
          have hnone := next_eq_none_of_size (Nat.le_zero.1 hsize)
          rw [hc.1] at hnone
          cases hnone
  | succ fuel ih =>
      intro p used e p' hsize hc he hnext
      rw [parseNot, peek_ite]
      cases he with
      | ofComparison he =>
          -- a comparison does not begin with `NOT`, so the test of the next token fails
          obtain ⟨t, more, rfl, ht⟩ := he.head_of_comparison
          rw [if_neg (by simp [hc.1, ht])]
          exact complete_parseComparison hexpr (by omega) hc he hnext
      | not he =>
          have hless := size_tail p (by simp [hc.1])
          rw [if_pos hc.1, bind_of_ok (advance_apply p),
            bind_of_ok (ih (by omega) (by omega) hc.2 he hnext)]
          rfl

theorem complete_parseAnd :
    Complete (n + 1) (parseAnd expr) (ExprPhrase .and) Precedence.and.Ends := by
  refine (isChain_parseAnd expr).complete (D := ExprPhrase .not) (fun _ h => h _ (by decide)) ?_ ?_
  · intro p used e p' hsize hc he hnext
    have hends : Precedence.not.Ends (next p') := by
      rcases hnext with hnext | hnext
      · rw [hnext]
        decide
      · exact hnext.tighter (by decide)
    rw [bind_of_ok (tokensLeft_apply p)]
    exact complete_parseNot hexpr hsize le_rfl hc he hends
  · rintro used e (_ | _)
    · exact Or.inl ‹_›
    · exact Or.inr ⟨_, _, _, _, rfl, rfl, ‹_›, ‹_›⟩

theorem complete_parseOr :
    Complete (n + 1) (parseOr expr) (ExprPhrase .or) Precedence.or.Ends := by
  refine (isChain_parseOr expr).complete (D := ExprPhrase .and) (fun _ h => h _ (by decide)) ?_ ?_
  · intro p used e p' hsize hc he hnext
    have hends : Precedence.and.Ends (next p') := by
      rcases hnext with hnext | hnext
      · rw [hnext]
        decide
      · exact hnext.tighter (by decide)
    exact complete_parseAnd hexpr hsize hc he hends
  · rintro used e (_ | _)
    · exact Or.inl ‹_›
    · exact Or.inr ⟨_, _, _, _, rfl, rfl, ‹_›, ‹_›⟩

end CompleteExpressions

theorem complete_parseExprFuel (fuel : Nat) :
    Complete fuel (parseExprFuel fuel) (ExprPhrase .or) Precedence.or.Ends := by
  induction fuel with
  | zero =>
      intro p used e p' hsize hc he _
      obtain ⟨t, more, rfl⟩ := he.exists_cons
      have hnone := next_eq_none_of_size (Nat.le_zero.1 hsize)
      rw [hc.1] at hnone
      cases hnone
  | succ fuel ih => exact complete_parseOr ih

theorem parseExpr_of_phrase {e : Expr} (h : ExprPhrase .or used e) (hc : Consumes p used p')
    (hnext : Precedence.or.Ends (next p')) : parseExpr p = .ok e p' := by
  rw [parseExpr, bind_of_ok (tokensLeft_apply p)]
  exact complete_parseExprFuel _ le_rfl hc h hnext

/-! ## Completeness of the patterns -/

/-- A turn of the loop over a property block reads one entry. -/
theorem parsePropertyMapLoop_of_entry {entry : String × Expr} (h : EntryPhrase used entry)
    (hc : Consumes p used p') (hnext : Precedence.or.Ends (next p')) (fuel : Nat)
    (props : BTreeMap String Expr) :
    parsePropertyMapLoop (fuel + 1) props p = (do
      match ← peek with
      | some .comma => do
          advance
          parsePropertyMapLoop fuel (insertAll props [entry])
      | some .rBrace => do
          advance
          pure (insertAll props [entry])
      | _ => failExpecting ", or \x7d" : ParseM (BTreeMap String Expr)) p' := by
  obtain ⟨key, he⟩ := h
  obtain ⟨hkey, hcolon, hvalue⟩ := hc
  rw [parsePropertyMapLoop, bind_of_ok (expectIdent_of_next _ hkey),
    bind_of_ok (expect_of_next _ hcolon), bind_of_ok (parseExpr_of_phrase he hvalue hnext)]
  rfl

theorem parsePropertyMapLoop_of_phrase {entries : List (String × Expr)}
    (h : SepBy .comma EntryPhrase used entries) {fuel : Nat} {props : BTreeMap String Expr}
    (hsize : size p ≤ fuel) (hc : Consumes p used p') (hclose : next p' = some .rBrace) :
    parsePropertyMapLoop fuel props p = .ok (insertAll props entries) (tail p') := by
  induction h generalizing p fuel props with
  | @one used entry hentry =>
      obtain ⟨key, more, rfl⟩ := exists_ident_of_entries (.one hentry)
      have hlen := hc.size
      obtain ⟨fuel, rfl⟩ : ∃ k, fuel = k + 1 := ⟨fuel - 1, by simp at hlen; omega⟩
      rw [parsePropertyMapLoop_of_entry hentry hc (by rw [hclose]; decide),
        bind_of_ok (peek_apply p'), hclose]
      rfl
  | @cons used more entry entries hentry _ ih =>
      obtain ⟨p₁, hfirst, hcomma, hmore⟩ := consumes_append.1 hc
      have hlen := hfirst.size
      have hless := size_tail p₁ (by simp [hcomma])
      obtain ⟨fuel, rfl⟩ : ∃ k, fuel = k + 1 := ⟨fuel - 1, by omega⟩
      rw [parsePropertyMapLoop_of_entry hentry hfirst (by rw [hcomma]; decide),
        bind_of_ok (peek_apply p₁), hcomma]
      refine (bind_of_ok (advance_apply p₁)).trans ?_
      exact ih (by omega) hmore

theorem parsePropertyMap_of_phrase {props : BTreeMap String Expr}
    (h : PropertyMapPhrase used props) (hc : Consumes p used p') :
    parsePropertyMap p = .ok props p' := by
  cases h with
  | empty =>
      obtain ⟨hopen, hclose, rfl⟩ := hc
      rw [parsePropertyMap, bind_of_ok (expect_of_next _ hopen), peek_ite, if_pos hclose]
      rfl
  | @entries body entries _ hbody hlast =>
      obtain ⟨hopen, p₁, hentries, hclose, rfl⟩ : next p = some .lBrace ∧
          ∃ p₁, Consumes (tail p) body p₁ ∧ next p₁ = some .rBrace ∧
            p' = tail p₁ := by
        simpa using hc
      have hne : next (tail p) ≠ some .rBrace := by
        obtain ⟨key, more, rfl⟩ := exists_ident_of_entries hbody
        simp [hentries.1]
      -- the last value of each key determines the map
      have hprops : insertAll ∅ entries = props :=
        Std.ExtTreeMap.ext_getElem? fun key => by simp [getElem?_insertAll, hlast]
      rw [parsePropertyMap, bind_of_ok (expect_of_next _ hopen), peek_ite, if_neg hne,
        bind_of_ok (tokensLeft_apply _),
        parsePropertyMapLoop_of_phrase hbody le_rfl hentries hclose, hprops]

theorem parseLabelAndProperties_of_phrase {label : Option String} {props : BTreeMap String Expr}
    (h : BlockPhrase used (label, props)) (hc : Consumes p used p')
    (hcolon : next p' ≠ some .colon) (hbrace : next p' ≠ some .lBrace) (what : String) :
    parseLabelAndProperties what p = .ok (label, props) p' := by
  cases h with
  | intro hl hp =>
      obtain ⟨p₁, hlabel, hprops⟩ := consumes_append.1 hc
      -- what is next after the label decides whether there is a block, and is no colon
      have hrun : optional .lBrace parsePropertyMap ∅ p₁ = .ok props p' ∧
          next p₁ ≠ some .colon := by
        cases hp with
        | none =>
            rw [consumes_nil] at hprops
            rw [← hprops]
            exact ⟨optional_of_ne hbrace, hcolon⟩
        | map hmap =>
            have hnext : next p₁ = some .lBrace := by simp [hprops.next, hmap.head]
            rw [optional_of_next hnext]
            exact ⟨parsePropertyMap_of_phrase hmap hprops, by simp [hnext]⟩
      rw [parseLabelAndProperties_eq]
      cases hl with
      | none =>
          rw [consumes_nil] at hlabel
          rw [← hlabel, bind_of_ok (optional_of_ne hrun.2), bind_of_ok hrun.1]
          rfl
      | some name =>
          obtain ⟨hc, hname, rfl⟩ := hlabel
          have hlabel : optional .colon (do
              advance
              let name ← expectIdent what
              pure (some name)) none p =
                .ok (some name) (tail (tail p)) := by
            rw [optional_of_next hc, bind_of_ok (advance_apply p),
              bind_of_ok (expectIdent_of_next _ hname)]
            rfl
          rw [bind_of_ok hlabel, bind_of_ok hrun.1]
          rfl

theorem parseNodePattern_of_phrase {np : NodePattern} (h : NodePhrase used np)
    (hc : Consumes p used p') : parseNodePattern p = .ok np p' := by
  cases h with
  | @intro block label props var h =>
      obtain ⟨hopen, hvar, p₁, hblock, hclose, rfl⟩ : next p = some .lParen ∧
          next (tail p) = some (.ident var) ∧
          ∃ p₁, Consumes (tail (tail p)) block p₁ ∧
            next p₁ = some .rParen ∧ p' = tail p₁ := by
        simpa using hc
      rw [parseNodePattern, bind_of_ok (expect_of_next _ hopen),
        bind_of_ok (expectIdent_of_next _ hvar),
        bind_of_ok (parseLabelAndProperties_of_phrase h hblock (by simp [hclose]) (by simp [hclose])
          _)]
      refine (bind_of_ok (expect_of_next _ hclose)).trans ?_
      rfl

theorem parseEdgePattern_of_phrase {ep : EdgePattern} (h : EdgePhrase used ep)
    (hc : Consumes p used p') : parseEdgePattern p = .ok ep p' := by
  cases h with
  | @intro block label props var h =>
      obtain ⟨hdash, hopen, hvar, p₁, hblock, hclose, harrow, rfl⟩ : next p = some .dash ∧
          next (tail p) = some .lBracket ∧
          next (tail (tail p)) = some (.ident var) ∧
          ∃ p₁, Consumes (tail (tail (tail p))) block
              p₁ ∧
            next p₁ = some .rBracket ∧ next (tail p₁) = some .arrow ∧
            p' = tail (tail p₁) := by
        simpa using hc
      rw [parseEdgePattern, bind_of_ok (expect_of_next _ hdash),
        bind_of_ok (expect_of_next _ hopen), bind_of_ok (expectIdent_of_next _ hvar),
        bind_of_ok (parseLabelAndProperties_of_phrase h hblock (by simp [hclose]) (by simp [hclose])
          _)]
      refine (bind_of_ok (expect_of_next _ hclose)).trans ?_
      rw [bind_of_ok (expect_of_next _ harrow)]
      rfl

theorem parseChain_of_phrase {chain : List (EdgePattern × NodePattern)}
    (h : Star HopPhrase used chain) (hc : Consumes p used p') (hnext : next p' ≠ some .dash) :
    parseChain (size p) p = .ok chain p' := by
  refine isMany_parseChain.complete (fun _ _ h => h.head) (fun _ h => h) ?_ le_rfl le_rfl hc h hnext
  rintro q _ _ q' - hc ⟨he, ht⟩ -
  obtain ⟨q₁, hedge, htarget⟩ := consumes_append.1 hc
  rw [bind_of_ok (parseEdgePattern_of_phrase he hedge),
    bind_of_ok (parseNodePattern_of_phrase ht htarget)]
  rfl

theorem parsePattern_of_phrase {pattern : Pattern} (h : PatternPhrase used pattern)
    (hc : Consumes p used p') (hnext : next p' ≠ some .dash) :
    parsePattern p = .ok pattern p' := by
  cases h with
  | node h =>
      rw [parsePattern, bind_of_ok (parseNodePattern_of_phrase h hc),
        bind_of_ok (tokensLeft_apply p'),
        bind_of_ok (parseChain_of_phrase Star.nil (consumes_nil.2 rfl) hnext)]
      rfl
  | path hs hchain hne =>
      obtain ⟨p₁, hstart, hmore⟩ := consumes_append.1 hc
      rw [parsePattern, bind_of_ok (parseNodePattern_of_phrase hs hstart),
        bind_of_ok (tokensLeft_apply p₁), bind_of_ok (parseChain_of_phrase hchain hmore hnext),
        if_neg (by simpa using hne)]
      rfl

theorem parsePatternList_of_phrase {patterns : List Pattern}
    (h : SepBy .comma PatternPhrase used patterns) (hc : Consumes p used p')
    (hcomma : next p' ≠ some .comma) (hdash : next p' ≠ some .dash) :
    parsePatternList p = .ok patterns p' := by
  obtain ⟨first, pattern, more, rest, rfl, rfl, hpattern, hrest⟩ := h.star
  obtain ⟨p₁, hfirst, hmore⟩ := consumes_append.1 hc
  have hnext : next p₁ ≠ some .dash := by
    cases hrest with
    | nil =>
        rw [consumes_nil] at hmore
        rwa [← hmore]
    | cons head _ =>
        obtain ⟨_⟩ := head
        simp [hmore.1]
  have hitem : Complete (size p₁) (do advance; parsePattern) (After .comma PatternPhrase)
      fun o => o = some .comma ∨ (o ≠ some .comma ∧ o ≠ some .dash) := by
    rintro q _ _ q' - hc ⟨hpattern⟩ hnext
    have hdash : next q' ≠ some .dash := by
      rcases hnext with hnext | hnext
      · simp [hnext]
      · exact hnext.2
    rw [bind_of_ok (advance_apply q), parsePattern_of_phrase hpattern hc.2 hdash]
  rw [parsePatternList, bind_of_ok (parsePattern_of_phrase hpattern hfirst hnext),
    bind_of_ok (tokensLeft_apply p₁),
    bind_of_ok (isMany_parsePatternListLoop.complete (by rintro _ _ ⟨_⟩; rfl) (fun _ h => h.1) hitem
      le_rfl le_rfl hmore hrest ⟨hcomma, hdash⟩)]
  rfl

/-! ## Completeness of the statements -/

theorem parseReturnItem_of_phrase {item : ReturnItem} (h : ReturnItemPhrase used item)
    (hc : Consumes p used p') (hparen : next p' ≠ some .lParen) (hdot : next p' ≠ some .dot) :
    parseReturnItem p = .ok item p' := by
  rw [parseReturnItem_eq]
  cases h with
  | var v =>
      obtain ⟨hvar, rfl⟩ := hc
      rw [bind_of_ok (expectIdent_of_next _ hvar), bind_of_ok (peek_apply _),
        if_neg fun h => hparen h.2, if_neg fun h => hparen h.2, if_neg hdot]
      rfl
  | property v hpath =>
      obtain ⟨hvar, hrest⟩ := hc
      -- a dot follows, so `count` and `collect` are variables here
      have hnext : next (tail p) = some .dot := by simp [hrest.next, hpath.head]
      rw [bind_of_ok (expectIdent_of_next _ hvar), bind_of_ok (peek_apply _),
        if_neg (by simp [hnext]), if_neg (by simp [hnext]), if_pos hnext,
        bind_of_ok (parsePropertyPath_of_phrase hpath hrest hdot)]
      rfl
  | count v =>
      obtain ⟨hcount, hopen, hvar, hclose, rfl⟩ := hc
      rw [bind_of_ok (expectIdent_of_next _ hcount), bind_of_ok (peek_apply _),
        if_pos ⟨rfl, hopen⟩, bind_of_ok (advance_apply _), bind_of_ok (expectIdent_of_next _ hvar),
        bind_of_ok (expect_of_next _ hclose)]
      rfl
  | @collect body target htarget =>
      obtain ⟨hcollect, hopen, p₁, hbody, hclose, rfl⟩ : next p = some (.ident "collect") ∧
          next (tail p) = some .lParen ∧
          ∃ p₁, Consumes (tail (tail p)) body p₁ ∧
            next p₁ = some .rParen ∧ p' = tail p₁ := by
        simpa using hc
      rw [bind_of_ok (expectIdent_of_next _ hcollect), bind_of_ok (peek_apply _),
        if_neg (by simp), if_pos ⟨rfl, hopen⟩, bind_of_ok (advance_apply _)]
      cases htarget with
      | var v =>
          obtain ⟨hvar, rfl⟩ := hbody
          rw [bind_of_ok (expectIdent_of_next _ hvar),
            bind_of_ok (optional_of_ne (by simp [hclose])), bind_of_ok (expect_of_next _ hclose)]
          rfl
      | @property _ path v hpath =>
          obtain ⟨hvar, hrest⟩ := hbody
          have hrun : optional .dot (do
              let path ← parsePropertyPath
              pure (CollectTarget.property v path)) (CollectTarget.var v)
              (tail (tail (tail p))) =
                .ok (.property v path) p₁ := by
            rw [optional_of_next (by simp [hrest.next, hpath.head]),
              bind_of_ok (parsePropertyPath_of_phrase hpath hrest (by simp [hclose]))]
            rfl
          rw [bind_of_ok (expectIdent_of_next _ hvar), bind_of_ok hrun,
            bind_of_ok (expect_of_next _ hclose)]
          rfl

theorem parseReturnItemsLoop_of_phrase {items : List ReturnItem}
    (h : SepBy .comma ReturnItemPhrase used items) {fuel : Nat} (hsize : size p ≤ fuel)
    (hc : Consumes p used p') (hcomma : next p' ≠ some .comma) (hparen : next p' ≠ some .lParen)
    (hdot : next p' ≠ some .dot) : parseReturnItemsLoop fuel p = .ok items p' := by
  induction h generalizing p fuel with
  | one hitem =>
      obtain ⟨name, more, rfl⟩ := hitem.exists_ident
      have hlen := hc.size
      obtain ⟨fuel, rfl⟩ : ∃ k, fuel = k + 1 := ⟨fuel - 1, by simp at hlen; omega⟩
      rw [parseReturnItemsLoop, bind_of_ok (parseReturnItem_of_phrase hitem hc hparen hdot),
        peek_ite, if_neg hcomma]
      rfl
  | cons hitem _ ih =>
      obtain ⟨p₁, hfirst, hnext, hmore⟩ := consumes_append.1 hc
      have hlen := hfirst.size
      have hless := size_tail p₁ (by simp [hnext])
      obtain ⟨fuel, rfl⟩ : ∃ k, fuel = k + 1 := ⟨fuel - 1, by omega⟩
      rw [parseReturnItemsLoop,
        bind_of_ok (parseReturnItem_of_phrase hitem hfirst (by simp [hnext]) (by simp [hnext])),
        peek_ite, if_pos hnext, bind_of_ok (advance_apply p₁), bind_of_ok (ih (by omega) hmore)]
      rfl

theorem parseOrderBy_of_phrase {order : OrderBy} (h : OrderByPhrase used (some order))
    (hc : Consumes p used p') (hnext : next p' = none ∨ next p' = some .limit) :
    parseOrderBy p = .ok order p' := by
  cases h with
  | @some body dir e direction he hd =>
      obtain ⟨horder, hby, p₁, hexpr, hdir⟩ : next p = some .order ∧
          next (tail p) = some .byKw ∧
          ∃ p₁, Consumes (tail (tail p)) body p₁ ∧
            Consumes p₁ dir p' := by
        simpa using hc
      -- what follows the key is a direction, `LIMIT` or the end
      have hends : Precedence.or.Ends (next p₁) := by
        cases hd with
        | none =>
            rw [consumes_nil] at hdir
            rw [← hdir]
            rcases hnext with hnext | hnext <;> rw [hnext] <;> decide
        | asc | desc =>
            rw [hdir.1]
            decide
      rw [parseOrderBy, bind_of_ok (expect_of_next _ horder), bind_of_ok (expect_of_next _ hby),
        bind_of_ok (parseExpr_of_phrase he hexpr hends), bind_of_ok (peek_apply p₁)]
      cases hd with
      | none =>
          rw [consumes_nil] at hdir
          subst hdir
          rcases hnext with hnext | hnext <;> rw [hnext] <;> rfl
      | asc | desc =>
          obtain ⟨htoken, rfl⟩ := hdir
          rw [htoken]
          rfl

theorem expectEnd_of_next (h : next p = none) : expectEnd p = .ok () p := by
  rw [expectEnd, bind_of_ok (peek_apply p), h]
  rfl

theorem optional_limit_of_phrase {n : Option Nat} (h : LimitPhrase used n) (hc : Consumes p used p')
    (hend : next p' = none) :
    optional .limit (do
      advance
      let n ← parseUnsignedInt
      pure (some n)) none p = .ok n p' ∧ (next p = none ∨ next p = some .limit) := by
  cases h with
  | none =>
      rw [consumes_nil] at hc
      subst hc
      exact ⟨optional_of_ne (by simp [hend]), Or.inl hend⟩
  | @some i hi =>
      obtain ⟨hlimit, hint, rfl⟩ := hc
      have hrun : parseUnsignedInt (tail p) =
          .ok i.toInt.toNat (tail (tail p)) := by
        rw [parseUnsignedInt, bind_of_ok (peek_apply _), hint]
        simp only [if_pos hi]
        rfl
      refine ⟨?_, Or.inr hlimit⟩
      rw [optional_of_next hlimit, bind_of_ok (advance_apply p), bind_of_ok hrun]
      rfl

theorem optional_order_of_phrase {orderBy : Option OrderBy} (h : OrderByPhrase used orderBy)
    (hc : Consumes p used p') (hnext : next p' = none ∨ next p' = some .limit) :
    optional .order (do
      let o ← parseOrderBy
      pure (some o)) none p = .ok orderBy p' ∧
        (next p = none ∨ next p = some .limit ∨ next p = some .order) := by
  cases orderBy with
  | none =>
      cases h
      rw [consumes_nil] at hc
      subst hc
      refine ⟨optional_of_ne ?_, hnext.imp_right Or.inl⟩
      rcases hnext with hnext | hnext <;> simp [hnext]
  | some order =>
      have horder : next p = some .order := by
        cases h
        exact hc.1
      refine ⟨?_, Or.inr (Or.inr horder)⟩
      rw [optional_of_next horder, bind_of_ok (parseOrderBy_of_phrase h hc hnext)]
      rfl

theorem parseReturn_of_phrase {items order limit : List Token} {returnItems : List ReturnItem}
    {orderBy : Option OrderBy} {n : Option Nat} (patterns : List Pattern)
    (whereClause : Option Expr) (hi : SepBy .comma ReturnItemPhrase items returnItems)
    (ho : OrderByPhrase order orderBy) (hl : LimitPhrase limit n)
    (hc : Consumes p (.returnKw :: (items ++ order ++ limit)) p') (hend : next p' = none) :
    parseReturn patterns whereClause p =
      .ok (.matchReturn patterns whereClause returnItems orderBy n) p' := by
  obtain ⟨-, hc⟩ := hc
  obtain ⟨p₂, hc, hlimit⟩ := consumes_append.1 hc
  obtain ⟨p₁, hitems, horder⟩ := consumes_append.1 hc
  obtain ⟨hrunLimit, hnext₂⟩ := optional_limit_of_phrase hl hlimit hend
  obtain ⟨hrunOrder, hnext₁⟩ := optional_order_of_phrase ho horder hnext₂
  have hrunItems : parseReturnItems (tail p) = .ok returnItems p₁ := by
    rw [parseReturnItems, bind_of_ok (tokensLeft_apply _)]
    refine parseReturnItemsLoop_of_phrase hi le_rfl hitems ?_ ?_ ?_ <;>
      rcases hnext₁ with hnext₁ | hnext₁ | hnext₁ <;> simp [hnext₁]
  rw [parseReturn_eq, bind_of_ok (advance_apply p), bind_of_ok hrunItems, bind_of_ok hrunOrder,
    bind_of_ok hrunLimit, bind_of_ok (expectEnd_of_next hend)]
  rfl

theorem parseDelete_of_phrase {mode : List Token} {detach : Bool} {var : String}
    (patterns : List Pattern) (whereClause : Option Expr) (hd : DetachPhrase mode detach)
    (hc : Consumes p (mode ++ [.delete, .ident var]) p') (hend : next p' = none) :
    parseDelete patterns whereClause p = .ok (.matchDelete patterns whereClause var detach) p' := by
  obtain ⟨p₁, hmode, hdelete, hvar, rfl⟩ := consumes_append.1 hc
  have hrun : optional .detach (do
      advance
      pure true) false p = .ok detach p₁ := by
    cases hd with
    | none =>
        rw [consumes_nil] at hmode
        subst hmode
        exact optional_of_ne (by simp [hdelete])
    | detach =>
        obtain ⟨hdetach, rfl⟩ := hmode
        rw [optional_of_next hdetach]
        rfl
  rw [parseDelete_eq, bind_of_ok hrun, bind_of_ok (expect_of_next _ hdelete),
    bind_of_ok (expectIdent_of_next _ hvar), bind_of_ok (expectEnd_of_next hend)]
  rfl

/-- The patterns and the condition of a `MATCH`, before the rest of the statement. -/
theorem parseStatement_of_match {patterns : List Pattern} {whereClause : Option Expr}
    (h : MatchPhrase used (patterns, whereClause)) (hc : Consumes p used p')
    (hnext : next p' = some .returnKw ∨ next p' = some .delete ∨ next p' = some .detach) :
    parseStatement p = parseMatchEnd patterns whereClause p' := by
  cases h with
  | @intro list cond _ _ hp hw =>
      obtain ⟨hmatch, p₁, hlist, hcond⟩ : next p = some .matchKw ∧
          ∃ p₁, Consumes (tail p) list p₁ ∧ Consumes p₁ cond p' := by
        simpa using hc
      have hrun : optional .whereKw (do
          advance
          let expr ← parseExpr
          pure (some expr)) none p₁ = .ok whereClause p' ∧
            next p₁ ≠ some .comma ∧ next p₁ ≠ some .dash := by
        cases hw with
        | none =>
            rw [consumes_nil] at hcond
            subst hcond
            refine ⟨optional_of_ne ?_, ?_, ?_⟩ <;>
              rcases hnext with hnext | hnext | hnext <;> simp [hnext]
        | some he =>
            have hends : Precedence.or.Ends (next p') := by
              rcases hnext with hnext | hnext | hnext <;> rw [hnext] <;> decide
            refine ⟨?_, by simp [hcond.1], by simp [hcond.1]⟩
            rw [optional_of_next hcond.1, bind_of_ok (advance_apply p₁),
              bind_of_ok (parseExpr_of_phrase he hcond.2 hends)]
            rfl
      rw [parseStatement_eq, bind_of_ok (peek_apply p), hmatch]
      refine (bind_of_ok (advance_apply p)).trans ?_
      rw [bind_of_ok (parsePatternList_of_phrase hp hlist hrun.2.1 hrun.2.2), bind_of_ok hrun.1]

theorem parseStatement_of_phrase {s : Statement} (h : StatementPhrase used s)
    (hc : Consumes p used p') (hend : next p' = none) : parseStatement p = .ok s p' := by
  cases h with
  | create h | merge h =>
      obtain ⟨htoken, hnode⟩ := hc
      rw [parseStatement_eq, bind_of_ok (peek_apply p), htoken]
      refine (bind_of_ok (advance_apply p)).trans ?_
      rw [bind_of_ok (parseNodePattern_of_phrase h hnode), bind_of_ok (expectEnd_of_next hend)]
      rfl
  | matchReturn hm hi ho hl =>
      obtain ⟨p₁, hmatch, hrest⟩ := consumes_append.1 hc
      rw [parseStatement_of_match hm hmatch (Or.inl hrest.1), parseMatchEnd,
        bind_of_ok (peek_apply p₁), hrest.1]
      exact parseReturn_of_phrase _ _ hi ho hl hrest hend
  | @matchDelete _ mode patterns whereClause detach var hm hd =>
      rw [List.append_assoc] at hc
      obtain ⟨p₁, hmatch, hrest⟩ := consumes_append.1 hc
      have hrun := parseDelete_of_phrase patterns whereClause hd hrest hend
      cases hd with
      | none | detach =>
          rw [parseStatement_of_match hm hmatch (by simp [hrest.1]), parseMatchEnd,
            bind_of_ok (peek_apply p₁), hrest.1]
          exact hrun

/-- The tokens consumed are a prefix of the tokens. -/
theorem map_token_of_consumes (h : Consumes p used p') :
    p.rest.map Spanned.token = used ++ p'.rest.map Spanned.token := by
  induction used generalizing p with
  | nil =>
      rw [consumes_nil.1 h]
      rfl
  | cons t used ih =>
      obtain ⟨hnext, hrest⟩ := h
      obtain ⟨_ | ⟨spanned, rest⟩, last⟩ := p
      · cases hnext
      · rw [List.cons_append, ← ih hrest]
        cases hnext
        rfl

/-- All tokens can be consumed. -/
theorem consumes_all (p : Parser) :
    Consumes p (p.rest.map Spanned.token) { p with rest := [] } := by
  obtain ⟨rest, last⟩ := p
  induction rest with
  | nil => exact consumes_nil.2 rfl
  | cons spanned rest ih => exact ⟨rfl, ih⟩

end Parser

/-- The parser accepts the phrases of the grammar. -/
theorem parseTokens_of_phrase {tokens : List Spanned} {s : Statement}
    (h : StatementPhrase (tokens.map Spanned.token) s) : parseTokens tokens = .ok s := by
  rw [parseTokens, Parser.parseStatement_of_phrase h (Parser.consumes_all _) rfl]

/-- The parser accepts exactly the grammar: `parse_tokens` returns a statement exactly if the tokens
derive it. -/
theorem parse_tokens_iff_derives (tokens : List Spanned) (s : Statement) :
    parseTokens tokens = .ok s ↔ StatementPhrase (tokens.map Spanned.token) s := by
  constructor
  · intro h
    rw [parseTokens] at h
    split at h
    next s' p' hrun =>
      cases h
      -- the statement derives from the tokens it consumed, and those are all tokens
      obtain ⟨used, hused, hs⟩ := Parser.sound_parseStatement _ _ _ hrun
      have hend := Parser.exhausts_parseStatement _ _ _ hrun
      have hall := Parser.map_token_of_consumes hused
      have hnil : p'.rest = [] := by simpa [next] using hend
      rw [hnil, List.map_nil, List.append_nil] at hall
      rwa [hall]
    next => cases h
  · exact parseTokens_of_phrase

end Morceau
