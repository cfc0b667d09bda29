import Morceau.Query.Grammar
import Morceau.Query.Parser

/-!
# What the parser accepts is in the grammar

Each function of the parser is sound for its kind of phrase: the tokens that it consumes on a
success derive the tree that it returns. No fuel is needed for this, since a loop that stops early
has read a shorter list. A statement also consumes every token (`exhausts_parseStatement`).

Optional clauses are tests of the next token with the rest of the function in both branches; the
equations `parseReturn_eq` and so on say which clause is optional.
-/

set_option autoImplicit false

namespace Morceau

open Lib TokenStream

/-- The parser's state is a stream of tokens. -/
instance : TokenStream Parser Token where
  next p := p.rest.head?.map Spanned.token
  tail p := { p with rest := p.rest.tail }
  size p := p.rest.length
  size_tail := by
    rintro ⟨_ | ⟨t, rest⟩, last⟩ h
    · cases h
    · rfl

namespace Parser

theorem peek_apply (p : Parser) : peek p = .ok (next p) p := rfl

theorem advance_apply (p : Parser) : advance p = .ok () (tail p) := rfl

theorem tokensLeft_apply (p : Parser) : tokensLeft p = .ok (size p) p := rfl

/-- A test of the next token. -/
theorem peek_ite {α : Type} (t : Token) (x y : ParseM α) (p : Parser) :
    (do if (← peek) = some t then x else y) p = if next p = some t then x p else y p := by
  rw [bind_of_ok (peek_apply p)]
  split <;> rfl

/-- An optional phrase and what comes after it, as the source tests for it. -/
theorem optional_bind {α β : Type} (t : Token) (x : ParseM α) (d : α) (f : α → ParseM β) :
    (optional t x d >>= f) = (do if (← peek) = some t then x >>= f else f d) := by
  funext p
  rw [peek_ite]
  split
  next h =>
    show EStateM.bind _ _ _ = EStateM.bind _ _ _
    rw [EStateM.bind, EStateM.bind, optional_of_next h]
  next h => rw [bind_of_ok (optional_of_ne h)]

/-! ## Soundness of the tokens and paths -/

theorem sound_failExpecting {α : Type} {D : List Token → α → Prop} (label : String) :
    Sound (failExpecting label : ParseM α) D := by
  intro p
  refine SoundAt.look (peek_apply p) ?_
  cases next p with
  | none => exact SoundAt.throw _
  | some t => exact SoundAt.look rfl (SoundAt.throw _)

theorem sound_expect (t : Token) (label : String) :
    Sound (expect t label) fun used _ => used = [t] := by
  intro p
  refine SoundAt.look (peek_apply p) ?_
  split
  next h =>
    rintro _ _ ⟨⟩
    exact ⟨[t], ⟨h, rfl⟩, rfl⟩
  next => exact sound_failExpecting label p

theorem sound_expectIdent (label : String) :
    Sound (expectIdent label) fun used s => used = [.ident s] := by
  intro p
  refine SoundAt.look (peek_apply p) ?_
  split
  next h => exact SoundAt.step (advance_apply p) h fun _ => SoundAt.pure rfl
  next => exact sound_failExpecting label p

theorem sound_parseUnsignedInt :
    Sound parseUnsignedInt fun used n => LimitPhrase (.limit :: used) (some n) := by
  intro p
  refine SoundAt.look (peek_apply p) ?_
  split
  next h =>
    split
    next hi => exact SoundAt.step (advance_apply p) h fun _ => SoundAt.pure (.some hi)
    next => exact sound_failExpecting _ p
  next => exact sound_failExpecting _ p

theorem isMany_parsePropertyPathLoop :
    IsMany .dot (do advance; expectIdent "property key") parsePropertyPathLoop where
  stop _ := rfl
  turn n p := by
    rw [parsePropertyPathLoop, peek_ite, bind_assoc]
    rfl

theorem sound_parsePropertyPath {p : Parser} (h : next p = some .dot) :
    SoundAt p parsePropertyPath PathPhrase := by
  intro path p' hrun
  rw [parsePropertyPath, bind_of_ok (tokensLeft_apply p)] at hrun
  have hkey : ∀ p : Parser, next p = some .dot →
      SoundAt p (do advance; expectIdent "property key") KeyPhrase := by
    intro p h
    refine SoundAt.step (advance_apply p) h fun p₁ => (sound_expectIdent _ p₁).mono ?_
    rintro _ key rfl
    exact .intro key
  obtain ⟨used, hused, hkeys⟩ := isMany_parsePropertyPathLoop.sound hkey _ p path p' hrun
  exact ⟨used, hused, hkeys, isMany_parsePropertyPathLoop.ne_nil h hrun⟩

/-! ## Soundness of the expressions -/

theorem comparisonOp_eq_some_iff {t : Token} {op : BinOp} :
    comparisonOp t = some op ↔ ComparisonToken t op := by
  constructor
  · intro h
    cases t <;> simp only [comparisonOp, reduceCtorEq, Option.some.injEq] at h <;> subst h <;>
      constructor
  · rintro ⟨⟩ <;> rfl

section SoundExpressions

variable {expr : ParseM Expr} (hexpr : Sound expr (ExprPhrase .or))

include hexpr

theorem sound_parsePrimary : Sound (parsePrimary expr) (ExprPhrase .primary) := by
  intro p
  refine SoundAt.look (peek_apply p) ?_
  cases h : next p with
  | none => exact sound_failExpecting _ p
  | some t =>
      cases t
      case lParen =>
        refine SoundAt.step (advance_apply p) h fun p₁ => ?_
        refine SoundAt.bind (hexpr p₁) fun e used he p₂ => ?_
        refine SoundAt.bind (sound_expect _ _ p₂) ?_
        rintro _ _ rfl p₃
        exact SoundAt.pure (.parens he)
      case integer =>
        exact SoundAt.step (advance_apply p) h fun _ => SoundAt.pure (.literal (.integer _))
      case float =>
        exact SoundAt.step (advance_apply p) h fun _ => SoundAt.pure (.literal (.float _))
      case string =>
        exact SoundAt.step (advance_apply p) h fun _ => SoundAt.pure (.literal (.string _))
      case trueKw =>
        exact SoundAt.step (advance_apply p) h fun _ => SoundAt.pure (.literal .trueKw)
      case falseKw =>
        exact SoundAt.step (advance_apply p) h fun _ => SoundAt.pure (.literal .falseKw)
      case null => exact SoundAt.step (advance_apply p) h fun _ => SoundAt.pure (.literal .null)
      case param => exact SoundAt.step (advance_apply p) h fun _ => SoundAt.pure (.param _)
      case ident name =>
        -- an identifier is the function `id`, the variable of a path, or out of place
        refine SoundAt.step (advance_apply p) h fun p₁ => SoundAt.look (peek_apply p₁) ?_
        split
        next hid =>
          obtain ⟨rfl, hparen⟩ := hid
          refine SoundAt.step (advance_apply p₁) hparen fun p₂ => ?_
          refine SoundAt.bind (sound_expectIdent _ p₂) ?_
          rintro var _ rfl p₃
          refine SoundAt.bind (sound_expect _ _ p₃) ?_
          rintro _ _ rfl p₄
          exact SoundAt.pure (.idOf var)
        next =>
          split
          next hdot =>
            refine SoundAt.bind (sound_parsePropertyPath hdot) fun path used hpath p₂ => ?_
            exact SoundAt.pure (by simpa using ExprPhrase.property name hpath)
          next => exact SoundAt.look rfl (SoundAt.throw _)
      -- no other token begins a primary expression
      all_goals exact sound_failExpecting _ p

theorem sound_parseComparison : Sound (parseComparison expr) (ExprPhrase .comparison) := by
  intro p
  refine SoundAt.bind (sound_parsePrimary hexpr p) fun lhs left hl p₁ => ?_
  refine SoundAt.look (peek_apply p₁) ?_
  split
  next op hop =>
    obtain ⟨t, hnext, ht⟩ := Option.bind_eq_some_iff.1 hop
    refine SoundAt.step (advance_apply p₁) hnext fun p₂ => ?_
    refine SoundAt.bind (sound_parsePrimary hexpr p₂) fun rhs right hr _ => SoundAt.pure ?_
    rw [List.append_nil]
    exact .compare (comparisonOp_eq_some_iff.1 ht) hl hr
  next => exact SoundAt.pure (by simpa using ExprPhrase.ofPrimary hl)

theorem sound_parseNot (fuel : Nat) : Sound (parseNot expr fuel) (ExprPhrase .not) := by
  have hcomparison : Sound (parseComparison expr) (ExprPhrase .not) := fun p =>
    (sound_parseComparison hexpr p).mono fun _ _ he => .ofComparison he
  induction fuel with
  | zero => exact hcomparison
  | succ fuel ih =>
      intro p
      refine SoundAt.look (peek_apply p) ?_
      split
      next h =>
        refine SoundAt.step (advance_apply p) h fun p₁ => ?_
        refine SoundAt.bind (ih p₁) fun e used he _ => SoundAt.pure ?_
        rw [List.append_nil]
        exact .not he
      next => exact hcomparison p

end SoundExpressions

theorem isChain_parseAnd (expr : ParseM Expr) :
    IsChain .and (do parseNot expr (← tokensLeft)) (.binary .and) (parseAndLoop expr)
      (parseAnd expr) where
  start p := by
    rw [parseAnd, bind_assoc]
    rfl
  stop _ _ := rfl
  turn n lhs p := by
    rw [parseAndLoop, peek_ite, bind_assoc]
    rfl

theorem isChain_parseOr (expr : ParseM Expr) :
    IsChain .or (parseAnd expr) (.binary .or) (parseOrLoop expr) (parseOr expr) where
  start _ := rfl
  stop _ _ := rfl
  turn n lhs p := by
    rw [parseOrLoop, peek_ite]
    rfl

theorem sound_parseOr {expr : ParseM Expr} (hexpr : Sound expr (ExprPhrase .or)) :
    Sound (parseOr expr) (ExprPhrase .or) := by
  have hnot : Sound (do parseNot expr (← tokensLeft)) (ExprPhrase .not) := fun p =>
    SoundAt.look (tokensLeft_apply p) (sound_parseNot hexpr _ p)
  have hand : Sound (parseAnd expr) (ExprPhrase .and) :=
    (isChain_parseAnd expr).sound hnot (fun _ _ h => .ofNot h) fun _ _ _ _ hl hr => .and hl hr
  exact (isChain_parseOr expr).sound hand (fun _ _ h => .ofAnd h) fun _ _ _ _ hl hr => .or hl hr

theorem sound_parseExprFuel (fuel : Nat) : Sound (parseExprFuel fuel) (ExprPhrase .or) := by
  induction fuel with
  | zero => exact sound_failExpecting _
  | succ fuel ih => exact sound_parseOr ih

theorem sound_parseExpr : Sound parseExpr (ExprPhrase .or) := by
  intro p
  exact SoundAt.look (tokensLeft_apply p) (sound_parseExprFuel _ p)

/-! ## Soundness of the patterns -/

/-- Put the entries of a property block into a map, one after the other. -/
def insertAll (props : BTreeMap String Expr) (entries : List (String × Expr)) :
    BTreeMap String Expr :=
  entries.foldl (fun m entry => m.insert entry.1 entry.2) props

/-- A key keeps the value of its last entry. -/
theorem getElem?_insertAll (entries : List (String × Expr)) (key : String) :
    ∀ props : BTreeMap String Expr,
      (insertAll props entries)[key]? = (entries.reverse.lookup key).or props[key]? := by
  induction entries with
  | nil => exact fun _ => rfl
  | cons entry entries ih =>
      obtain ⟨k, v⟩ := entry
      intro props
      rw [insertAll, List.foldl_cons, ← insertAll, ih, Std.ExtTreeMap.getElem?_insert,
        List.reverse_cons, List.lookup_append, List.lookup_cons, List.lookup_nil]
      by_cases h : k = key
      · simp [h]
      · have hne : (key == k) = false := by simpa using Ne.symm h
        simp [h, hne]

theorem sound_parsePropertyMapLoop (fuel : Nat) (props : BTreeMap String Expr) :
    Sound (parsePropertyMapLoop fuel props) fun used m => ∃ body entries,
      used = body ++ [.rBrace] ∧ SepBy .comma EntryPhrase body entries ∧
        m = insertAll props entries := by
  induction fuel generalizing props with
  | zero => exact sound_failExpecting _
  | succ fuel ih =>
      intro p
      refine SoundAt.bind (sound_expectIdent _ p) ?_
      rintro key _ rfl p₁
      refine SoundAt.bind (sound_expect _ _ p₁) ?_
      rintro _ _ rfl p₂
      refine SoundAt.bind (sound_parseExpr p₂) fun e used he p₃ => ?_
      refine SoundAt.look (peek_apply p₃) ?_
      -- after an entry comes another one or the end of the block
      have hentry : EntryPhrase (.ident key :: .colon :: used) (key, e) := .intro key he
      split
      next h =>
        refine SoundAt.step (advance_apply p₃) h fun p₄ => (ih _ p₄).mono ?_
        rintro _ m ⟨body, entries, rfl, hbody, rfl⟩
        exact ⟨_, _, by simp, SepBy.cons hentry hbody, rfl⟩
      next h =>
        refine SoundAt.step (advance_apply p₃) h fun p₄ => SoundAt.pure ?_
        exact ⟨_, _, by simp, SepBy.one hentry, rfl⟩
      next => exact sound_failExpecting _ p₃

theorem sound_parsePropertyMap : Sound parsePropertyMap PropertyMapPhrase := by
  intro p
  refine SoundAt.bind (sound_expect _ _ p) ?_
  rintro _ _ rfl p₁
  refine SoundAt.look (peek_apply p₁) ?_
  split
  next h => exact SoundAt.step (advance_apply p₁) h fun _ => SoundAt.pure .empty
  next =>
    refine SoundAt.look (tokensLeft_apply p₁) ((sound_parsePropertyMapLoop _ _ p₁).mono ?_)
    rintro _ m ⟨body, entries, rfl, hbody, rfl⟩
    exact .entries hbody fun key => by simp [getElem?_insertAll]

theorem parseLabelAndProperties_eq (label : String) :
    parseLabelAndProperties label = (do
      let l ← optional .colon (do
        advance
        let name ← expectIdent label
        pure (some name)) none
      let properties ← optional .lBrace parsePropertyMap ∅
      pure (l, properties)) := by
  simp only [optional_bind, bind_assoc, pure_bind, parseLabelAndProperties]

theorem sound_parseLabelAndProperties (label : String) :
    Sound (parseLabelAndProperties label) BlockPhrase := by
  have hlabel : Sound (optional .colon (do
      advance
      let name ← expectIdent label
      pure (some name)) none) LabelPhrase := by
    refine sound_optional (fun p h => ?_) .none
    refine SoundAt.step (advance_apply p) h fun p₁ => ?_
    refine SoundAt.bind (sound_expectIdent _ p₁) ?_
    rintro name _ rfl p₂
    exact SoundAt.pure (.some name)
  have hprops : Sound (optional .lBrace parsePropertyMap ∅) PropertiesPhrase :=
    sound_optional (fun p _ => (sound_parsePropertyMap p).mono fun _ _ h => .map h) .none
  intro p
  rw [parseLabelAndProperties_eq]
  refine SoundAt.bind (hlabel p) fun l used hl p₁ => ?_
  refine SoundAt.bind (hprops p₁) fun props more hp p₂ => SoundAt.pure ?_
  rw [List.append_nil]
  exact .intro hl hp

theorem sound_parseNodePattern : Sound parseNodePattern NodePhrase := by
  intro p
  refine SoundAt.bind (sound_expect _ _ p) ?_
  rintro _ _ rfl p₁
  refine SoundAt.bind (sound_expectIdent _ p₁) ?_
  rintro var _ rfl p₂
  refine SoundAt.bind (sound_parseLabelAndProperties _ p₂) ?_
  rintro ⟨label, props⟩ used hblock p₃
  refine SoundAt.bind (sound_expect _ _ p₃) ?_
  rintro _ _ rfl p₄
  exact SoundAt.pure (.intro var hblock)

theorem sound_parseEdgePattern : Sound parseEdgePattern EdgePhrase := by
  intro p
  refine SoundAt.bind (sound_expect _ _ p) ?_
  rintro _ _ rfl p₁
  refine SoundAt.bind (sound_expect _ _ p₁) ?_
  rintro _ _ rfl p₂
  refine SoundAt.bind (sound_expectIdent _ p₂) ?_
  rintro var _ rfl p₃
  refine SoundAt.bind (sound_parseLabelAndProperties _ p₃) ?_
  rintro ⟨label, props⟩ used hblock p₄
  refine SoundAt.bind (sound_expect _ _ p₄) ?_
  rintro _ _ rfl p₅
  refine SoundAt.bind (sound_expect _ _ p₅) ?_
  rintro _ _ rfl p₆
  exact SoundAt.pure (.intro var hblock)

theorem isMany_parseChain :
    IsMany .dash (do
      let edge ← parseEdgePattern
      let target ← parseNodePattern
      pure (edge, target)) parseChain where
  stop _ := rfl
  turn n p := by
    rw [parseChain, peek_ite]
    simp only [bind_assoc, pure_bind]
    rfl

theorem sound_parsePattern : Sound parsePattern PatternPhrase := by
  have hhop : Sound (do
      let edge ← parseEdgePattern
      let target ← parseNodePattern
      pure (edge, target)) HopPhrase := by
    intro p
    refine SoundAt.bind (sound_parseEdgePattern p) fun edge used he p₁ => ?_
    refine SoundAt.bind (sound_parseNodePattern p₁) fun target more ht p₂ => SoundAt.pure ?_
    rw [List.append_nil]
    exact .intro he ht
  intro p
  refine SoundAt.bind (sound_parseNodePattern p) fun start used hstart p₁ => ?_
  refine SoundAt.look (tokensLeft_apply p₁) ?_
  refine SoundAt.bind (isMany_parseChain.sound (fun p _ => hhop p) _ p₁) ?_
  intro chain more hchain p₂
  split
  next hempty =>
    refine SoundAt.pure ?_
    -- without a hop the pattern is its first node
    rw [List.isEmpty_iff.1 hempty] at hchain
    cases hchain
    simpa using PatternPhrase.node hstart
  next hne =>
    refine SoundAt.pure ?_
    rw [List.append_nil]
    exact .path hstart hchain fun h => hne (List.isEmpty_iff.2 h)

theorem isMany_parsePatternListLoop :
    IsMany .comma (do advance; parsePattern) parsePatternListLoop where
  stop _ := rfl
  turn n p := by
    rw [parsePatternListLoop, peek_ite, bind_assoc]
    rfl

theorem sound_parsePatternList : Sound parsePatternList (SepBy .comma PatternPhrase) := by
  have hitem : ∀ p : Parser, next p = some .comma →
      SoundAt p (do advance; parsePattern) (After .comma PatternPhrase) := fun p h =>
    SoundAt.step (advance_apply p) h fun p₁ =>
      (sound_parsePattern p₁).mono fun _ _ hpattern => .intro hpattern
  intro p
  refine SoundAt.bind (sound_parsePattern p) fun pattern used hpattern p₁ => ?_
  refine SoundAt.look (tokensLeft_apply p₁) ?_
  refine SoundAt.bind (isMany_parsePatternListLoop.sound hitem _ p₁) ?_
  intro patterns more hrest p₂
  refine SoundAt.pure ?_
  rw [List.append_nil]
  exact SepBy.of_star hpattern hrest

/-! ## Soundness of the statements -/

theorem parseReturnItem_eq :
    parseReturnItem = (do
      let name ← expectIdent "return variable or aggregate"
      let next ← peek
      if name = "count" ∧ next = some .lParen then do
        advance
        let target ← expectIdent "variable inside count(...)"
        expect .rParen ")"
        pure (.count (some target))
      else if name = "collect" ∧ next = some .lParen then do
        advance
        let var ← expectIdent "variable inside collect(...)"
        let inner ← optional .dot (do
          let path ← parsePropertyPath
          pure (CollectTarget.property var path)) (CollectTarget.var var)
        expect .rParen ")"
        pure (.collect inner)
      else if next = some .dot then do
        let path ← parsePropertyPath
        pure (.property name path)
      else pure (.var name)) := by
  simp only [optional_bind, bind_assoc, pure_bind, parseReturnItem]

theorem sound_parseReturnItem : Sound parseReturnItem ReturnItemPhrase := by
  intro p
  rw [parseReturnItem_eq]
  refine SoundAt.bind (sound_expectIdent _ p) ?_
  rintro name _ rfl p₁
  refine SoundAt.look (peek_apply p₁) ?_
  split
  next h =>
    -- `count` before a parenthesis
    obtain ⟨rfl, hparen⟩ := h
    refine SoundAt.step (advance_apply p₁) hparen fun p₂ => ?_
    refine SoundAt.bind (sound_expectIdent _ p₂) ?_
    rintro var _ rfl p₃
    refine SoundAt.bind (sound_expect _ _ p₃) ?_
    rintro _ _ rfl p₄
    exact SoundAt.pure (.count var)
  next =>
    split
    next h =>
      -- `collect` before a parenthesis, of a variable or of a property
      obtain ⟨rfl, hparen⟩ := h
      refine SoundAt.step (advance_apply p₁) hparen fun p₂ => ?_
      refine SoundAt.bind (sound_expectIdent _ p₂) ?_
      rintro var _ rfl p₃
      have htarget : Sound (optional .dot (do
          let path ← parsePropertyPath
          pure (CollectTarget.property var path)) (CollectTarget.var var))
          fun used => CollectPhrase (.ident var :: used) := by
        refine sound_optional (fun p h => ?_) (.var var)
        refine SoundAt.bind (sound_parsePropertyPath h) fun path used hpath _ => SoundAt.pure ?_
        rw [List.append_nil]
        exact .property var hpath
      refine SoundAt.bind (htarget p₃) fun target used ht p₄ => ?_
      refine SoundAt.bind (sound_expect _ _ p₄) ?_
      rintro _ _ rfl p₅
      exact SoundAt.pure (.collect ht)
    next =>
      split
      next hdot =>
        refine SoundAt.bind (sound_parsePropertyPath hdot) fun path used hpath _ => SoundAt.pure ?_
        simpa using ReturnItemPhrase.property name hpath
      next => exact SoundAt.pure (.var name)

theorem sound_parseReturnItemsLoop (fuel : Nat) :
    Sound (parseReturnItemsLoop fuel) (SepBy .comma ReturnItemPhrase) := by
  induction fuel with
  | zero => exact sound_failExpecting _
  | succ fuel ih =>
      intro p
      refine SoundAt.bind (sound_parseReturnItem p) fun item used hitem p₁ => ?_
      refine SoundAt.look (peek_apply p₁) ?_
      split
      next h =>
        refine SoundAt.step (advance_apply p₁) h fun p₂ => ?_
        refine SoundAt.bind (ih p₂) fun items more hitems _ => SoundAt.pure ?_
        rw [List.append_nil]
        exact .cons hitem hitems
      next =>
        refine SoundAt.pure ?_
        rw [List.append_nil]
        exact .one hitem

theorem sound_parseReturnItems : Sound parseReturnItems (SepBy .comma ReturnItemPhrase) := by
  intro p
  exact SoundAt.look (tokensLeft_apply p) (sound_parseReturnItemsLoop _ p)

theorem sound_parseOrderBy :
    Sound parseOrderBy fun used order => OrderByPhrase used (some order) := by
  intro p
  refine SoundAt.bind (sound_expect _ _ p) ?_
  rintro _ _ rfl p₁
  refine SoundAt.bind (sound_expect _ _ p₁) ?_
  rintro _ _ rfl p₂
  refine SoundAt.bind (sound_parseExpr p₂) fun e used he p₃ => ?_
  have hphrase : ∀ more direction, DirectionPhrase more direction →
      OrderByPhrase (.order :: .byKw :: (used ++ more)) (some ⟨e, direction⟩) :=
    fun _ _ hd => .some he hd
  refine SoundAt.look (peek_apply p₃) ?_
  split
  next h =>
    exact SoundAt.step (advance_apply p₃) h fun _ => SoundAt.pure (hphrase _ _ .asc)
  next h =>
    exact SoundAt.step (advance_apply p₃) h fun _ => SoundAt.pure (hphrase _ _ .desc)
  next => exact SoundAt.pure (hphrase _ _ .none)

theorem sound_expectEnd : Sound expectEnd fun used _ => used = [] := by
  intro p
  refine SoundAt.look (peek_apply p) ?_
  cases next p with
  | none => exact SoundAt.pure rfl
  | some t => exact SoundAt.look rfl (SoundAt.throw _)

theorem parseReturn_eq (patterns : List Pattern) (whereClause : Option Expr) :
    parseReturn patterns whereClause = (do
      advance
      let returnItems ← parseReturnItems
      let orderBy ← optional .order (do
        let o ← parseOrderBy
        pure (some o)) none
      let limit ← optional .limit (do
        advance
        let n ← parseUnsignedInt
        pure (some n)) none
      expectEnd
      pure (.matchReturn patterns whereClause returnItems orderBy limit)) := by
  simp only [optional_bind, bind_assoc, pure_bind, parseReturn]

theorem parseDelete_eq (patterns : List Pattern) (whereClause : Option Expr) :
    parseDelete patterns whereClause = (do
      let detach ← optional .detach (do
        advance
        pure true) false
      expect .delete "DELETE"
      let var ← expectIdent "variable to DELETE"
      expectEnd
      pure (.matchDelete patterns whereClause var detach)) := by
  simp only [optional_bind, bind_assoc, pure_bind, parseDelete]

/-- What comes after the condition of a `MATCH`. -/
def parseMatchEnd (patterns : List Pattern) (whereClause : Option Expr) : ParseM Statement := do
  match ← peek with
  | some .returnKw => parseReturn patterns whereClause
  | some .delete => parseDelete patterns whereClause
  | some .detach => parseDelete patterns whereClause
  | _ => failExpecting "RETURN, DELETE, or DETACH DELETE"

theorem parseStatement_eq :
    parseStatement = (do
      match ← peek with
      | some .create => do
          advance
          let pattern ← parseNodePattern
          expectEnd
          pure (.create pattern)
      | some .merge => do
          advance
          let pattern ← parseNodePattern
          expectEnd
          pure (.merge pattern)
      | some .matchKw => do
          advance
          let patterns ← parsePatternList
          let whereClause ← optional .whereKw (do
            advance
            let expr ← parseExpr
            pure (some expr)) none
          parseMatchEnd patterns whereClause
      | some t => throw (.unsupported (.token t))
      | none => throw (.unexpectedEnd "statement")) := by
  simp only [optional_bind, bind_assoc, pure_bind, parseStatement]
  rfl

section SoundStatements

variable {used : List Token} {patterns : List Pattern} {whereClause : Option Expr}
  (hm : MatchPhrase used (patterns, whereClause))

include hm

theorem sound_parseReturn {p : Parser} (h : next p = some .returnKw) :
    SoundAt p (parseReturn patterns whereClause) fun more => StatementPhrase (used ++ more) := by
  have horder : Sound (optional .order (do
      let o ← parseOrderBy
      pure (some o)) none) OrderByPhrase := by
    refine sound_optional (fun p _ => ?_) .none
    refine SoundAt.bind (sound_parseOrderBy p) fun o order ho _ => SoundAt.pure ?_
    rwa [List.append_nil]
  have hlimit : Sound (optional .limit (do
      advance
      let n ← parseUnsignedInt
      pure (some n)) none) LimitPhrase := by
    refine sound_optional (fun p h => ?_) .none
    refine SoundAt.step (advance_apply p) h fun p₁ => ?_
    refine SoundAt.bind (sound_parseUnsignedInt p₁) fun n limit hn _ => SoundAt.pure ?_
    rwa [List.append_nil]
  rw [parseReturn_eq]
  refine SoundAt.step (advance_apply p) h fun p₁ => ?_
  refine SoundAt.bind (sound_parseReturnItems p₁) fun returnItems items hi p₂ => ?_
  refine SoundAt.bind (horder p₂) fun orderBy order ho p₃ => ?_
  refine SoundAt.bind (hlimit p₃) fun n limit hl p₄ => ?_
  refine SoundAt.bind (sound_expectEnd p₄) ?_
  rintro _ _ rfl p₅
  refine SoundAt.pure ?_
  simpa using StatementPhrase.matchReturn hm hi ho hl

theorem sound_parseDelete : Sound (parseDelete patterns whereClause)
    fun more => StatementPhrase (used ++ more) := by
  have hdetach : Sound (optional .detach (do
      advance
      pure true) false) DetachPhrase :=
    sound_optional (fun p h => SoundAt.step (advance_apply p) h fun _ => SoundAt.pure .detach)
      .none
  intro p
  rw [parseDelete_eq]
  refine SoundAt.bind (hdetach p) fun detach mode hd p₁ => ?_
  refine SoundAt.bind (sound_expect _ _ p₁) ?_
  rintro _ _ rfl p₂
  refine SoundAt.bind (sound_expectIdent _ p₂) ?_
  rintro var _ rfl p₃
  refine SoundAt.bind (sound_expectEnd p₃) ?_
  rintro _ _ rfl p₄
  refine SoundAt.pure ?_
  simpa using StatementPhrase.matchDelete var hm hd

theorem sound_parseMatchEnd : Sound (parseMatchEnd patterns whereClause)
    fun more => StatementPhrase (used ++ more) := by
  intro p
  refine SoundAt.look (peek_apply p) ?_
  split
  next h => exact sound_parseReturn hm h
  next => exact sound_parseDelete hm p
  next => exact sound_parseDelete hm p
  next => exact sound_failExpecting _ p

end SoundStatements

theorem sound_parseStatement : Sound parseStatement StatementPhrase := by
  have hwhere : Sound (optional .whereKw (do
      advance
      let expr ← parseExpr
      pure (some expr)) none) WherePhrase := by
    refine sound_optional (fun p h => ?_) .none
    refine SoundAt.step (advance_apply p) h fun p₁ => ?_
    refine SoundAt.bind (sound_parseExpr p₁) fun e used he _ => SoundAt.pure ?_
    rw [List.append_nil]
    exact .some he
  intro p
  rw [parseStatement_eq]
  refine SoundAt.look (peek_apply p) ?_
  split
  next h =>
    refine SoundAt.step (advance_apply p) h fun p₁ => ?_
    refine SoundAt.bind (sound_parseNodePattern p₁) fun np used hnp p₂ => ?_
    refine SoundAt.bind (sound_expectEnd p₂) ?_
    rintro _ _ rfl p₃
    exact SoundAt.pure (by simpa using StatementPhrase.create hnp)
  next h =>
    refine SoundAt.step (advance_apply p) h fun p₁ => ?_
    refine SoundAt.bind (sound_parseNodePattern p₁) fun np used hnp p₂ => ?_
    refine SoundAt.bind (sound_expectEnd p₂) ?_
    rintro _ _ rfl p₃
    exact SoundAt.pure (by simpa using StatementPhrase.merge hnp)
  next h =>
    refine SoundAt.step (advance_apply p) h fun p₁ => ?_
    refine SoundAt.bind (sound_parsePatternList p₁) fun patterns used hp p₂ => ?_
    refine SoundAt.bind (hwhere p₂) fun whereClause more hw p₃ => ?_
    simpa using sound_parseMatchEnd (.intro hp hw) p₃
  next => exact SoundAt.throw _
  next => exact SoundAt.throw _

/-! ## No token is left over -/

theorem exhausts_expectEnd {α : Type} (a : α) :
    Exhausts (do
      expectEnd
      pure a) := by
  intro p b p' h
  obtain ⟨_, p₁, hend, hb⟩ := bind_eq_ok_iff.1 h
  cases hb
  rw [expectEnd, bind_of_ok (peek_apply p)] at hend
  cases hn : next p with
  | none =>
      rw [hn] at hend
      cases hend
      exact hn
  | some t =>
      rw [hn] at hend
      cases hend

theorem exhausts_failExpecting {α : Type} (label : String) :
    Exhausts (failExpecting label : ParseM α) := by
  intro p a p' h
  rw [failExpecting, bind_of_ok (peek_apply p)] at h
  cases hn : next p with
  | none =>
      rw [hn] at h
      cases h
  | some t =>
      rw [hn] at h
      cases h

theorem exhausts_parseMatchEnd (patterns : List Pattern) (whereClause : Option Expr) :
    Exhausts (parseMatchEnd patterns whereClause) := by
  have hdelete : Exhausts (parseDelete patterns whereClause) := by
    rw [parseDelete_eq]
    exact .bind fun _ => .bind fun _ => .bind fun _ => exhausts_expectEnd _
  refine .bind fun next => ?_
  split
  · rw [parseReturn_eq]
    exact .bind fun _ => .bind fun _ => .bind fun _ => .bind fun _ => exhausts_expectEnd _
  · exact hdelete
  · exact hdelete
  · exact exhausts_failExpecting _

theorem exhausts_parseStatement : Exhausts parseStatement := by
  rw [parseStatement_eq]
  refine .bind fun next => ?_
  split
  · exact .bind fun _ => .bind fun _ => exhausts_expectEnd _
  · exact .bind fun _ => .bind fun _ => exhausts_expectEnd _
  · exact .bind fun _ => .bind fun _ => .bind fun _ => exhausts_parseMatchEnd _ _
  · rintro p s p' ⟨⟩
  · rintro p s p' ⟨⟩

end Parser

end Morceau
