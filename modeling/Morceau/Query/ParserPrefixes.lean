import Morceau.Lib.Prefixes
import Morceau.Query.ParserCompleteness

/-!
# What the parser has read when it fails

Each function of the parser reads phrases in the sense of `Reads`: on a success it has consumed a
phrase and returns its tree, and when it fails, what it has consumed is the beginning of a phrase
and the error is about the token that it stopped at (`ParseError.points`). Where a function fails,
the proof shows a phrase that could have stood there.
-/

set_option autoImplicit false

namespace Morceau

open Lib TokenStream

/-- What an error says about the tokens consumed before it and the state it stops at. An identifier
that is neither called nor followed by a path is named after it was consumed, with the offset of
what comes next. -/
def ParseError.points (used : List Token) (err : ParseError) (p : Parser) : Prop :=
  match err with
  | .unexpected (.token t) _ offset => p.rest.head? = some ⟨t, offset⟩
  | .unexpected (.name name) _ offset => used.getLast? = some (.ident name) ∧
      offset = (p.rest.head?.map Spanned.offset).getD p.last
  | .unexpectedEnd _ => p.rest = []
  | .unsupported _ => False
  | .lex _ => False

instance : Reports ParseError Parser Token where
  points := ParseError.points
  points_append := by
    intro used more err p h
    cases err with
    | unexpected text expected offset =>
        cases text with
        | token t => exact h
        | name name =>
            refine ⟨?_, h.2⟩
            rw [List.getLast?_append, h.1]
            rfl
    | unexpectedEnd expected => exact h
    | unsupported text => exact h
    | lex err => exact h

namespace Parser

/-! ## Reading phrases -/

theorem readsAt_failExpecting {α : Type} {D : List Token → α → Prop} (label : String)
    (h : ∃ more a, D more a) (p : Parser) : ReadsAt p (failExpecting label : ParseM α) D := by
  refine ReadsAt.look (peek_apply p) ?_
  obtain ⟨rest, last⟩ := p
  cases rest with
  | nil => exact ReadsAt.throw rfl h
  | cons spanned rest => exact ReadsAt.look rfl (ReadsAt.throw rfl h)

theorem reads_expect (t : Token) (label : String) :
    Reads (expect t label) fun used _ => used = [t] := by
  intro p
  refine ReadsAt.look (peek_apply p) ?_
  split
  next h => exact ⟨[t], ⟨h, rfl⟩, rfl⟩
  next => exact readsAt_failExpecting label ⟨[t], (), rfl⟩ p

theorem reads_expectIdent (label : String) :
    Reads (expectIdent label) fun used s => used = [.ident s] := by
  intro p
  refine ReadsAt.look (peek_apply p) ?_
  split
  next h => exact ReadsAt.step (advance_apply p) h (ReadsAt.pure rfl)
  next => exact readsAt_failExpecting label ⟨_, "n", rfl⟩ p

theorem reads_parseUnsignedInt :
    Reads parseUnsignedInt fun used n => LimitPhrase (.limit :: used) (some n) := by
  have hsome : ∃ more n, LimitPhrase (.limit :: more) (some n) :=
    ⟨[.integer 0], 0, .some (i := 0) (by decide)⟩
  intro p
  refine ReadsAt.look (peek_apply p) ?_
  split
  next h =>
    split
    next hi => exact ReadsAt.step (advance_apply p) h (ReadsAt.pure (.some hi))
    next => exact readsAt_failExpecting _ hsome p
  next => exact readsAt_failExpecting _ hsome p

/-- A path that is begun with a dot has a key. -/
theorem reads_parsePropertyPath {p : Parser} (h : next p = some .dot) :
    ReadsAt p parsePropertyPath PathPhrase := by
  have hkey : ∀ p : Parser, next p = some .dot →
      ReadsAt p (do advance; expectIdent "property key") KeyPhrase := by
    intro p h
    refine ReadsAt.step (advance_apply p) h ((reads_expectIdent _ _).mono ?_)
    rintro _ key rfl
    exact .intro key
  refine ReadsAt.look (tokensLeft_apply p) ?_
  have hloop := isMany_parsePropertyPathLoop.reads hkey (size p) p
  unfold ReadsAt at hloop ⊢
  cases hrun : parsePropertyPathLoop (size p) p with
  | ok path p' =>
      rw [hrun] at hloop
      obtain ⟨used, hused, hkeys⟩ := hloop
      exact ⟨used, hused, hkeys, isMany_parsePropertyPathLoop.ne_nil h hrun⟩
  | error err p' =>
      rw [hrun] at hloop
      obtain ⟨used, hused, hpoints, more, path, hkeys⟩ := hloop
      refine ⟨used, hused, hpoints, more ++ [.dot, .ident "key"], path ++ ["key"], ?_, by simp⟩
      rw [← List.append_assoc]
      exact hkeys.snoc (.intro "key")

/-- An identifier is the function `id`, the variable of a path, or out of place. Out of place it
could still have been the variable of a path, so the error comes after it. -/
theorem readsAt_ident {p : Parser} {name : String} (h : next p = some (.ident name)) :
    ReadsAt p (do
      advance
      let next ← peek
      if name = "id" ∧ next = some .lParen then
        advance
        let arg ← expectIdent "variable inside id(...)"
        expect .rParen ")"
        pure (.idOf arg)
      else if next = some .dot then
        let path ← parsePropertyPath
        pure (.property name path)
      else
        let offset ← peekOffset
        throw (.unexpected (.name name) "function call or property access" offset))
      (ExprPhrase .primary) := by
  by_cases hid : name = "id" ∧ next (tail p) = some .lParen
  · refine ReadsAt.step (advance_apply p) h (ReadsAt.look (peek_apply _) ?_)
    rw [if_pos hid]
    obtain ⟨rfl, hparen⟩ := hid
    refine ReadsAt.step (advance_apply _) hparen ?_
    refine ReadsAt.bind (reads_expectIdent _ _) ?_
    rintro var _ rfl p₁
    refine ReadsAt.bind (reads_expect _ _ p₁) ?_
    rintro _ _ rfl p₂
    exact ReadsAt.pure (.idOf var)
  · by_cases hdot : next (tail p) = some .dot
    · refine ReadsAt.step (advance_apply p) h (ReadsAt.look (peek_apply _) ?_)
      rw [if_neg hid, if_pos hdot]
      refine ReadsAt.bind (reads_parsePropertyPath hdot) fun path used hpath _ => ?_
      exact ReadsAt.pure (by simpa using ExprPhrase.property name hpath)
    · unfold ReadsAt
      rw [bind_of_ok (advance_apply p), bind_of_ok (peek_apply _), if_neg hid, if_neg hdot]
      have hpath : PathPhrase [.dot, .ident "key"] ["key"] :=
        ⟨Star.cons (KeyPhrase.intro "key") Star.nil, by simp⟩
      exact ⟨[.ident name], ⟨h, rfl⟩, ⟨rfl, rfl⟩, _, _, .property name hpath⟩

section ReadExpressions

variable {expr : ParseM Expr} (hexpr : Reads expr (ExprPhrase .or))

include hexpr

theorem reads_parsePrimary : Reads (parsePrimary expr) (ExprPhrase .primary) := by
  have hnull : ∃ more e, ExprPhrase .primary more e := ⟨_, _, .literal .null⟩
  intro p
  refine ReadsAt.look (peek_apply p) ?_
  cases h : next p with
  | none => exact readsAt_failExpecting _ hnull p
  | some t =>
      cases t
      case lParen =>
        refine ReadsAt.step (advance_apply p) h ?_
        refine ReadsAt.bind (hexpr (tail p)) fun e used he p₁ => ?_
        refine ReadsAt.bind (reads_expect _ _ p₁) ?_
        rintro _ _ rfl p₂
        exact ReadsAt.pure (.parens he)
      case integer =>
        exact ReadsAt.step (advance_apply p) h (ReadsAt.pure (.literal (.integer _)))
      case float =>
        exact ReadsAt.step (advance_apply p) h (ReadsAt.pure (.literal (.float _)))
      case string =>
        exact ReadsAt.step (advance_apply p) h (ReadsAt.pure (.literal (.string _)))
      case trueKw =>
        exact ReadsAt.step (advance_apply p) h (ReadsAt.pure (.literal .trueKw))
      case falseKw =>
        exact ReadsAt.step (advance_apply p) h (ReadsAt.pure (.literal .falseKw))
      case null => exact ReadsAt.step (advance_apply p) h (ReadsAt.pure (.literal .null))
      case param => exact ReadsAt.step (advance_apply p) h (ReadsAt.pure (.param _))
      case ident name => exact readsAt_ident h
      -- no other token begins a primary expression
      all_goals exact readsAt_failExpecting _ hnull p

theorem reads_parseComparison : Reads (parseComparison expr) (ExprPhrase .comparison) := by
  intro p
  refine ReadsAt.bind (reads_parsePrimary hexpr p) fun lhs left hl p₁ => ?_
  refine ReadsAt.look (peek_apply p₁) ?_
  split
  next op hop =>
    obtain ⟨t, hnext, ht⟩ := Option.bind_eq_some_iff.1 hop
    refine ReadsAt.step (advance_apply p₁) hnext ?_
    refine ReadsAt.bind (reads_parsePrimary hexpr _) fun rhs right hr _ => ReadsAt.pure ?_
    rw [List.append_nil]
    exact .compare (comparisonOp_eq_some_iff.1 ht) hl hr
  next => exact ReadsAt.pure (by simpa using ExprPhrase.ofPrimary hl)

theorem reads_parseNot (fuel : Nat) : Reads (parseNot expr fuel) (ExprPhrase .not) := by
  have hcomparison : Reads (parseComparison expr) (ExprPhrase .not) := fun p =>
    (reads_parseComparison hexpr p).mono fun _ _ he => .ofComparison he
  induction fuel with
  | zero => exact hcomparison
  | succ fuel ih =>
      intro p
      refine ReadsAt.look (peek_apply p) ?_
      split
      next h =>
        refine ReadsAt.step (advance_apply p) h ?_
        refine ReadsAt.bind (ih _) fun e used he _ => ReadsAt.pure ?_
        rw [List.append_nil]
        exact .not he
      next => exact hcomparison p

theorem reads_parseAnd : Reads (parseAnd expr) (ExprPhrase .and) := by
  have hnot : Reads (do parseNot expr (← tokensLeft)) (ExprPhrase .not) := fun p =>
    ReadsAt.look (tokensLeft_apply p) (reads_parseNot hexpr _ p)
  exact (isChain_parseAnd expr).reads hnot (fun _ _ h => .ofNot h) fun _ _ _ _ hl hr => .and hl hr

theorem reads_parseOr : Reads (parseOr expr) (ExprPhrase .or) :=
  (isChain_parseOr expr).reads (reads_parseAnd hexpr) (fun _ _ h => .ofAnd h)
    fun _ _ _ _ hl hr => .or hl hr

end ReadExpressions

/-- A parenthesis or a literal is an expression. -/
theorem exists_exprPhrase : ExprPhrase .or [.null] (.literal .null) :=
  .ofAnd (.ofNot (.ofComparison (.ofPrimary (.literal .null))))

theorem reads_parseExprFuel (fuel : Nat) : Reads (parseExprFuel fuel) (ExprPhrase .or) := by
  induction fuel with
  | zero => exact readsAt_failExpecting _ ⟨_, _, exists_exprPhrase⟩
  | succ fuel ih => exact reads_parseOr ih

theorem reads_parseExpr : Reads parseExpr (ExprPhrase .or) := by
  intro p
  exact ReadsAt.look (tokensLeft_apply p) (reads_parseExprFuel _ p)

/-! ## Reading patterns -/

theorem reads_parsePropertyMapLoop (fuel : Nat) (props : BTreeMap String Expr) :
    Reads (parsePropertyMapLoop fuel props) fun used m => ∃ body entries,
      used = body ++ [.rBrace] ∧ SepBy .comma EntryPhrase body entries ∧
        m = insertAll props entries := by
  induction fuel generalizing props with
  | zero =>
      have hentry : EntryPhrase _ _ := .intro "key" exists_exprPhrase
      exact readsAt_failExpecting _ ⟨_, _, _, _, rfl, SepBy.one hentry, rfl⟩
  | succ fuel ih =>
      intro p
      refine ReadsAt.bind (reads_expectIdent _ p) ?_
      rintro key _ rfl p₁
      refine ReadsAt.bind (reads_expect _ _ p₁) ?_
      rintro _ _ rfl p₂
      refine ReadsAt.bind (reads_parseExpr p₂) fun e used he p₃ => ?_
      refine ReadsAt.look (peek_apply p₃) ?_
      have hentry : EntryPhrase (.ident key :: .colon :: used) (key, e) := .intro key he
      split
      next h =>
        refine ReadsAt.step (advance_apply p₃) h ((ih _ _).mono ?_)
        rintro _ m ⟨body, entries, rfl, hbody, rfl⟩
        exact ⟨_, _, by simp, SepBy.cons hentry hbody, rfl⟩
      next h =>
        refine ReadsAt.step (advance_apply p₃) h (ReadsAt.pure ?_)
        exact ⟨_, _, by simp, SepBy.one hentry, rfl⟩
      next =>
        -- the block could end here
        refine readsAt_failExpecting _ ⟨[.rBrace], _, _, _, ?_, SepBy.one hentry, rfl⟩ p₃
        simp

theorem reads_parsePropertyMap : Reads parsePropertyMap PropertyMapPhrase := by
  intro p
  refine ReadsAt.bind (reads_expect _ _ p) ?_
  rintro _ _ rfl p₁
  refine ReadsAt.look (peek_apply p₁) ?_
  split
  next h => exact ReadsAt.step (advance_apply p₁) h (ReadsAt.pure .empty)
  next =>
    refine ReadsAt.look (tokensLeft_apply p₁) ((reads_parsePropertyMapLoop _ _ p₁).mono ?_)
    rintro _ m ⟨body, entries, rfl, hbody, rfl⟩
    exact .entries hbody fun key => by simp [getElem?_insertAll]

theorem reads_parseLabelAndProperties (label : String) :
    Reads (parseLabelAndProperties label) BlockPhrase := by
  have hlabel : Reads (optional .colon (do
      advance
      let name ← expectIdent label
      pure (some name)) none) LabelPhrase := by
    refine reads_optional (fun p h => ?_) .none
    refine ReadsAt.step (advance_apply p) h ?_
    refine ReadsAt.bind (reads_expectIdent _ _) ?_
    rintro name _ rfl p₂
    exact ReadsAt.pure (.some name)
  have hprops : Reads (optional .lBrace parsePropertyMap ∅) PropertiesPhrase :=
    reads_optional (fun p _ => (reads_parsePropertyMap p).mono fun _ _ h => .map h) .none
  intro p
  rw [parseLabelAndProperties_eq]
  refine ReadsAt.bind (hlabel p) fun l used hl p₁ => ?_
  refine ReadsAt.bind (hprops p₁) fun props more hp p₂ => ReadsAt.pure ?_
  rw [List.append_nil]
  exact .intro hl hp

theorem reads_parseNodePattern : Reads parseNodePattern NodePhrase := by
  intro p
  refine ReadsAt.bind (reads_expect _ _ p) ?_
  rintro _ _ rfl p₁
  refine ReadsAt.bind (reads_expectIdent _ p₁) ?_
  rintro var _ rfl p₂
  refine ReadsAt.bind (reads_parseLabelAndProperties _ p₂) ?_
  rintro ⟨label, props⟩ used hblock p₃
  refine ReadsAt.bind (reads_expect _ _ p₃) ?_
  rintro _ _ rfl p₄
  exact ReadsAt.pure (.intro var hblock)

theorem reads_parseEdgePattern : Reads parseEdgePattern EdgePhrase := by
  intro p
  refine ReadsAt.bind (reads_expect _ _ p) ?_
  rintro _ _ rfl p₁
  refine ReadsAt.bind (reads_expect _ _ p₁) ?_
  rintro _ _ rfl p₂
  refine ReadsAt.bind (reads_expectIdent _ p₂) ?_
  rintro var _ rfl p₃
  refine ReadsAt.bind (reads_parseLabelAndProperties _ p₃) ?_
  rintro ⟨label, props⟩ used hblock p₄
  refine ReadsAt.bind (reads_expect _ _ p₄) ?_
  rintro _ _ rfl p₅
  refine ReadsAt.bind (reads_expect _ _ p₅) ?_
  rintro _ _ rfl p₆
  exact ReadsAt.pure (.intro var hblock)

theorem reads_hop : Reads (do
    let edge ← parseEdgePattern
    let target ← parseNodePattern
    pure (edge, target)) HopPhrase := by
  intro p
  refine ReadsAt.bind (reads_parseEdgePattern p) fun edge used he p₁ => ?_
  refine ReadsAt.bind (reads_parseNodePattern p₁) fun target more ht p₂ => ReadsAt.pure ?_
  rw [List.append_nil]
  exact .intro he ht

theorem reads_parsePattern : Reads parsePattern PatternPhrase := by
  intro p
  refine ReadsAt.bind (reads_parseNodePattern p) fun start used hstart p₁ => ?_
  refine ReadsAt.look (tokensLeft_apply p₁) ?_
  refine ReadsAt.bind (isMany_parseChain.reads (fun p _ => reads_hop p) _ p₁) ?_
  intro chain more hchain p₂
  split
  next hempty =>
    refine ReadsAt.pure ?_
    rw [List.isEmpty_iff.1 hempty] at hchain
    cases hchain
    simpa using PatternPhrase.node hstart
  next hne =>
    refine ReadsAt.pure ?_
    rw [List.append_nil]
    exact .path hstart hchain fun h => hne (List.isEmpty_iff.2 h)

theorem reads_parsePatternList : Reads parsePatternList (SepBy .comma PatternPhrase) := by
  have hitem : ∀ p : Parser, next p = some .comma →
      ReadsAt p (do advance; parsePattern) (After .comma PatternPhrase) := fun p h =>
    ReadsAt.step (advance_apply p) h
      ((reads_parsePattern _).mono fun _ _ hpattern => .intro hpattern)
  intro p
  refine ReadsAt.bind (reads_parsePattern p) fun pattern used hpattern p₁ => ?_
  refine ReadsAt.look (tokensLeft_apply p₁) ?_
  refine ReadsAt.bind (isMany_parsePatternListLoop.reads hitem _ p₁) ?_
  intro patterns more hrest p₂
  refine ReadsAt.pure ?_
  rw [List.append_nil]
  exact SepBy.of_star hpattern hrest

/-! ## Reading statements -/

theorem reads_parseReturnItem : Reads parseReturnItem ReturnItemPhrase := by
  intro p
  rw [parseReturnItem_eq]
  refine ReadsAt.bind (reads_expectIdent _ p) ?_
  rintro name _ rfl p₁
  refine ReadsAt.look (peek_apply p₁) ?_
  split
  next h =>
    obtain ⟨rfl, hparen⟩ := h
    refine ReadsAt.step (advance_apply p₁) hparen ?_
    refine ReadsAt.bind (reads_expectIdent _ _) ?_
    rintro var _ rfl p₃
    refine ReadsAt.bind (reads_expect _ _ p₃) ?_
    rintro _ _ rfl p₄
    exact ReadsAt.pure (.count var)
  next =>
    split
    next h =>
      obtain ⟨rfl, hparen⟩ := h
      refine ReadsAt.step (advance_apply p₁) hparen ?_
      refine ReadsAt.bind (reads_expectIdent _ _) ?_
      rintro var _ rfl p₃
      have htarget : Reads (optional .dot (do
          let path ← parsePropertyPath
          pure (CollectTarget.property var path)) (CollectTarget.var var))
          fun used => CollectPhrase (.ident var :: used) := by
        refine reads_optional (fun p h => ?_) (.var var)
        refine ReadsAt.bind (reads_parsePropertyPath h) fun path used hpath _ => ReadsAt.pure ?_
        rw [List.append_nil]
        exact .property var hpath
      refine ReadsAt.bind (htarget p₃) fun target used ht p₄ => ?_
      refine ReadsAt.bind (reads_expect _ _ p₄) ?_
      rintro _ _ rfl p₅
      exact ReadsAt.pure (.collect ht)
    next =>
      split
      next hdot =>
        refine ReadsAt.bind (reads_parsePropertyPath hdot) fun path used hpath _ => ReadsAt.pure ?_
        simpa using ReturnItemPhrase.property name hpath
      next => exact ReadsAt.pure (.var name)

theorem reads_parseReturnItemsLoop (fuel : Nat) :
    Reads (parseReturnItemsLoop fuel) (SepBy .comma ReturnItemPhrase) := by
  induction fuel with
  | zero => exact readsAt_failExpecting _ ⟨_, _, SepBy.one (.var "n")⟩
  | succ fuel ih =>
      intro p
      refine ReadsAt.bind (reads_parseReturnItem p) fun item used hitem p₁ => ?_
      refine ReadsAt.look (peek_apply p₁) ?_
      split
      next h =>
        refine ReadsAt.step (advance_apply p₁) h ?_
        refine ReadsAt.bind (ih _) fun items more hitems _ => ReadsAt.pure ?_
        rw [List.append_nil]
        exact .cons hitem hitems
      next =>
        refine ReadsAt.pure ?_
        rw [List.append_nil]
        exact .one hitem

theorem reads_parseReturnItems : Reads parseReturnItems (SepBy .comma ReturnItemPhrase) := by
  intro p
  exact ReadsAt.look (tokensLeft_apply p) (reads_parseReturnItemsLoop _ p)

theorem reads_parseOrderBy :
    Reads parseOrderBy fun used order => OrderByPhrase used (some order) := by
  intro p
  refine ReadsAt.bind (reads_expect _ _ p) ?_
  rintro _ _ rfl p₁
  refine ReadsAt.bind (reads_expect _ _ p₁) ?_
  rintro _ _ rfl p₂
  refine ReadsAt.bind (reads_parseExpr p₂) fun e used he p₃ => ?_
  have hphrase : ∀ more direction, DirectionPhrase more direction →
      OrderByPhrase (.order :: .byKw :: (used ++ more)) (some ⟨e, direction⟩) :=
    fun _ _ hd => .some he hd
  refine ReadsAt.look (peek_apply p₃) ?_
  split
  next h => exact ReadsAt.step (advance_apply p₃) h (ReadsAt.pure (hphrase _ _ .asc))
  next h => exact ReadsAt.step (advance_apply p₃) h (ReadsAt.pure (hphrase _ _ .desc))
  next => exact ReadsAt.pure (hphrase _ _ .none)

theorem reads_expectEnd : Reads expectEnd fun used _ => used = [] := by
  intro p
  refine ReadsAt.look (peek_apply p) ?_
  obtain ⟨rest, last⟩ := p
  cases rest with
  | nil => exact ReadsAt.pure rfl
  | cons spanned rest => exact ReadsAt.look rfl (ReadsAt.throw rfl ⟨[], (), rfl⟩)

theorem reads_whereClause : Reads (optional .whereKw (do
    advance
    let expr ← parseExpr
    pure (some expr)) none) WherePhrase := by
  refine reads_optional (fun p h => ReadsAt.step (advance_apply p) h ?_) .none
  refine ReadsAt.bind (reads_parseExpr _) fun e used he _ => ReadsAt.pure ?_
  rw [List.append_nil]
  exact .some he

theorem reads_orderByClause : Reads (optional .order (do
    let o ← parseOrderBy
    pure (some o)) none) OrderByPhrase := by
  refine reads_optional (fun p _ => ?_) .none
  refine ReadsAt.bind (reads_parseOrderBy p) fun o order ho _ => ReadsAt.pure ?_
  rwa [List.append_nil]

theorem reads_limitClause : Reads (optional .limit (do
    advance
    let n ← parseUnsignedInt
    pure (some n)) none) LimitPhrase := by
  refine reads_optional (fun p h => ReadsAt.step (advance_apply p) h ?_) .none
  refine ReadsAt.bind (reads_parseUnsignedInt _) fun n limit hn _ => ReadsAt.pure ?_
  rwa [List.append_nil]

theorem reads_detachClause : Reads (optional .detach (do
    advance
    pure true) false) DetachPhrase :=
  reads_optional (fun p h => ReadsAt.step (advance_apply p) h (ReadsAt.pure .detach)) .none

section ReadStatements

variable {used : List Token} {patterns : List Pattern} {whereClause : Option Expr}
  (hm : MatchPhrase used (patterns, whereClause))

include hm

theorem reads_parseReturn {p : Parser} (h : next p = some .returnKw) :
    ReadsAt p (parseReturn patterns whereClause) fun more => StatementPhrase (used ++ more) := by
  rw [parseReturn_eq]
  refine ReadsAt.step (advance_apply p) h ?_
  refine ReadsAt.bind (reads_parseReturnItems _) fun returnItems items hi p₂ => ?_
  refine ReadsAt.bind (reads_orderByClause p₂) fun orderBy order ho p₃ => ?_
  refine ReadsAt.bind (reads_limitClause p₃) fun n limit hl p₄ => ?_
  refine ReadsAt.bind (reads_expectEnd p₄) ?_
  rintro _ _ rfl p₅
  refine ReadsAt.pure ?_
  simpa using StatementPhrase.matchReturn hm hi ho hl

theorem reads_parseDelete : Reads (parseDelete patterns whereClause)
    fun more => StatementPhrase (used ++ more) := by
  intro p
  rw [parseDelete_eq]
  refine ReadsAt.bind (reads_detachClause p) fun detach mode hd p₁ => ?_
  refine ReadsAt.bind (reads_expect _ _ p₁) ?_
  rintro _ _ rfl p₂
  refine ReadsAt.bind (reads_expectIdent _ p₂) ?_
  rintro var _ rfl p₃
  refine ReadsAt.bind (reads_expectEnd p₃) ?_
  rintro _ _ rfl p₄
  refine ReadsAt.pure ?_
  simpa using StatementPhrase.matchDelete var hm hd

theorem reads_parseMatchEnd : Reads (parseMatchEnd patterns whereClause)
    fun more => StatementPhrase (used ++ more) := by
  intro p
  refine ReadsAt.look (peek_apply p) ?_
  split
  next h => exact reads_parseReturn hm h
  next => exact reads_parseDelete hm p
  next => exact reads_parseDelete hm p
  next =>
    have hdelete := StatementPhrase.matchDelete "n" hm .none
    rw [List.append_assoc] at hdelete
    exact readsAt_failExpecting _ ⟨[.delete, .ident "n"], _, hdelete⟩ p

end ReadStatements

/-- A statement that begins with one of the three keywords. -/
theorem reads_parseStatement {p : Parser} {t : Token} (h : next p = some t)
    (ht : t = .create ∨ t = .merge ∨ t = .matchKw) : ReadsAt p parseStatement StatementPhrase := by
  rw [parseStatement_eq]
  refine ReadsAt.look (peek_apply p) ?_
  rw [h]
  rcases ht with rfl | rfl | rfl
  · refine ReadsAt.step (advance_apply p) h ?_
    refine ReadsAt.bind (reads_parseNodePattern _) fun np used hnp p₂ => ?_
    refine ReadsAt.bind (reads_expectEnd p₂) ?_
    rintro _ _ rfl p₃
    exact ReadsAt.pure (by simpa using StatementPhrase.create hnp)
  · refine ReadsAt.step (advance_apply p) h ?_
    refine ReadsAt.bind (reads_parseNodePattern _) fun np used hnp p₂ => ?_
    refine ReadsAt.bind (reads_expectEnd p₂) ?_
    rintro _ _ rfl p₃
    exact ReadsAt.pure (by simpa using StatementPhrase.merge hnp)
  · refine ReadsAt.step (advance_apply p) h ?_
    refine ReadsAt.bind (reads_parsePatternList _) fun patterns used hp p₂ => ?_
    refine ReadsAt.bind (reads_whereClause p₂) fun whereClause more hw p₃ => ?_
    simpa using reads_parseMatchEnd (.intro hp hw) p₃

end Parser

end Morceau
