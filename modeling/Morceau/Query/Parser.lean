import Morceau.Query.Ast
import Morceau.Query.Lexer

/-!
# The parser

The recursive-descent parser of `query/parser.rs`. Its state is the tokens not yet consumed,
together with the offset of the last token of the query, which `peek_offset` falls back to at the
end of input.

Every loop and every recursive call of the source consumes a token first, so the number of tokens
left bounds them, and with no fuel left no token is left either: the value of each loop at fuel zero
is what the source does at the end of input. The error texts keep the offending token itself where
the source keeps its rendering.
-/

set_option autoImplicit false

namespace Morceau

/-- What an error says it found: a token, or the name of an identifier. -/
inductive TokenText where
  | token (t : Token)
  | name (s : String)
deriving DecidableEq, Repr

/-- `ParseError`. -/
inductive ParseError where
  | lex (err : LexError)
  | unexpected (token : TokenText) (expected : String) (offset : Nat)
  | unexpectedEnd (expected : String)
  | unsupported (token : TokenText)
deriving DecidableEq, Repr

/-- `Parser`: the tokens left, and the offset of the last token. -/
structure Parser where
  rest : List Spanned
  last : Nat
deriving DecidableEq

/-- A parser function: `&mut self` with a `Result`. -/
abbrev ParseM (α : Type) := EStateM ParseError Parser α

namespace Parser

/-- `Parser::peek`. -/
def peek : ParseM (Option Token) := do
  let p ← get
  pure (p.rest.head?.map Spanned.token)

/-- `Parser::peek_offset`. -/
def peekOffset : ParseM Nat := do
  let p ← get
  pure ((p.rest.head?.map Spanned.offset).getD p.last)

/-- `Parser::advance`. -/
def advance : ParseM Unit := modify fun p => { p with rest := p.rest.tail }

/-- The number of tokens left. -/
def tokensLeft : ParseM Nat := do
  let p ← get
  pure p.rest.length

/-- The error of a token that does not fit. -/
def failExpecting {α : Type} (label : String) : ParseM α := do
  match ← peek with
  | some t => do
      let offset ← peekOffset
      throw (.unexpected (.token t) label offset)
  | none => throw (.unexpectedEnd label)

/-- `Parser::expect`. It is only called with tokens that carry nothing, so comparing discriminants
is comparing tokens. -/
def expect (expected : Token) (label : String) : ParseM Unit := do
  let t ← peek
  if t = some expected then advance else failExpecting label

/-- `Parser::expect_ident`. -/
def expectIdent (label : String) : ParseM String := do
  match ← peek with
  | some (.ident s) => do
      advance
      pure s
  | _ => failExpecting label

/-- `Parser::expect_end`. -/
def expectEnd : ParseM Unit := do
  match ← peek with
  | some t => do
      let offset ← peekOffset
      throw (.unexpected (.token t) "end of statement" offset)
  | none => pure ()

/-- The loop of `Parser::parse_property_path`. -/
def parsePropertyPathLoop : Nat → ParseM (List String)
  | 0 => pure []
  | fuel + 1 => do
      if (← peek) = some .dot then
        advance
        let key ← expectIdent "property key"
        let path ← parsePropertyPathLoop fuel
        pure (key :: path)
      else pure []

/-- `Parser::parse_property_path`. -/
def parsePropertyPath : ParseM (List String) := do
  parsePropertyPathLoop (← tokensLeft)

/-- `Parser::parse_unsigned_int`. -/
def parseUnsignedInt : ParseM Nat := do
  match ← peek with
  | some (.integer i) =>
      if 0 ≤ i.toInt then do
        advance
        pure i.toInt.toNat
      else failExpecting "non-negative integer"
  | _ => failExpecting "non-negative integer"

/-! ## Expressions -/

/-- `Parser::parse_primary`, with `expr` for `parse_expr`. -/
def parsePrimary (expr : ParseM Expr) : ParseM Expr := do
  match ← peek with
  | some .lParen => do
      advance
      let inner ← expr
      expect .rParen ")"
      pure inner
  | some (.integer i) => do
      advance
      pure (.literal (.i64 i))
  | some (.float x) => do
      advance
      pure (.literal (.f64 x))
  | some (.string s) => do
      advance
      pure (.literal (.string s))
  | some .trueKw => do
      advance
      pure (.literal (.bool true))
  | some .falseKw => do
      advance
      pure (.literal (.bool false))
  | some .null => do
      advance
      pure (.literal .null)
  | some (.param name) => do
      advance
      pure (.param name)
  | some (.ident name) => do
      advance
      let next ← peek
      if name = "id" ∧ next = some .lParen then
        advance
        let arg ← expectIdent "variable inside id(...)"
        expect .rParen ")"
        pure (.idOf arg)
      else if next = some .dot then
        let path ← parsePropertyPath
        pure (.property name path)
      else
        let offset ← peekOffset
        throw (.unexpected (.name name) "function call or property access" offset)
  | _ => failExpecting "expression"

/-- The operator a comparison token stands for. -/
def comparisonOp : Token → Option BinOp
  | .eq => some .eq
  | .notEq => some .notEq
  | .lt => some .lt
  | .gt => some .gt
  | .ltEq => some .ltEq
  | .gtEq => some .gtEq
  | _ => none

/-- `Parser::parse_comparison`. -/
def parseComparison (expr : ParseM Expr) : ParseM Expr := do
  let lhs ← parsePrimary expr
  match (← peek).bind comparisonOp with
  | some op => do
      advance
      let rhs ← parsePrimary expr
      pure (.binary op lhs rhs)
  | none => pure lhs

/-- `Parser::parse_not`. -/
def parseNot (expr : ParseM Expr) : Nat → ParseM Expr
  | 0 => parseComparison expr
  | fuel + 1 => do
      if (← peek) = some .not then
        advance
        let inner ← parseNot expr fuel
        pure (.not inner)
      else parseComparison expr

/-- The loop of `Parser::parse_and`. -/
def parseAndLoop (expr : ParseM Expr) : Nat → Expr → ParseM Expr
  | 0, lhs => pure lhs
  | fuel + 1, lhs => do
      if (← peek) = some .and then
        advance
        let rhs ← parseNot expr (← tokensLeft)
        parseAndLoop expr fuel (.binary .and lhs rhs)
      else pure lhs

/-- `Parser::parse_and`. -/
def parseAnd (expr : ParseM Expr) : ParseM Expr := do
  let lhs ← parseNot expr (← tokensLeft)
  parseAndLoop expr (← tokensLeft) lhs

/-- The loop of `Parser::parse_or`. -/
def parseOrLoop (expr : ParseM Expr) : Nat → Expr → ParseM Expr
  | 0, lhs => pure lhs
  | fuel + 1, lhs => do
      if (← peek) = some .or then
        advance
        let rhs ← parseAnd expr
        parseOrLoop expr fuel (.binary .or lhs rhs)
      else pure lhs

/-- `Parser::parse_or`. -/
def parseOr (expr : ParseM Expr) : ParseM Expr := do
  let lhs ← parseAnd expr
  parseOrLoop expr (← tokensLeft) lhs

/-- `Parser::parse_expr` with fuel for the parentheses. -/
def parseExprFuel : Nat → ParseM Expr
  | 0 => failExpecting "expression"
  | fuel + 1 => parseOr (parseExprFuel fuel)

/-- `Parser::parse_expr`. -/
def parseExpr : ParseM Expr := do
  parseExprFuel (← tokensLeft)

/-! ## Patterns -/

/-- The loop of `Parser::parse_property_map`. -/
def parsePropertyMapLoop : Nat → BTreeMap String Expr → ParseM (BTreeMap String Expr)
  | 0, _ => failExpecting "property key"
  | fuel + 1, props => do
      let key ← expectIdent "property key"
      expect .colon ":"
      let val ← parseExpr
      match ← peek with
      | some .comma => do
          advance
          parsePropertyMapLoop fuel (props.insert key val)
      | some .rBrace => do
          advance
          pure (props.insert key val)
      | _ => failExpecting ", or \x7d"

/-- `Parser::parse_property_map`. -/
def parsePropertyMap : ParseM (BTreeMap String Expr) := do
  expect .lBrace "\x7b"
  if (← peek) = some .rBrace then
    advance
    pure ∅
  else parsePropertyMapLoop (← tokensLeft) ∅

/-- The optional label and property block of a pattern. -/
def parseLabelAndProperties (label : String) :
    ParseM (Option String × BTreeMap String Expr) := do
  let l ←
    if (← peek) = some .colon then do
      advance
      let name ← expectIdent label
      pure (some name)
    else pure none
  let properties ← if (← peek) = some .lBrace then parsePropertyMap else pure ∅
  pure (l, properties)

/-- `Parser::parse_node_pattern`. -/
def parseNodePattern : ParseM NodePattern := do
  expect .lParen "("
  let var ← expectIdent "pattern variable"
  let (label, properties) ← parseLabelAndProperties "label"
  expect .rParen ")"
  pure ⟨var, label, properties⟩

/-- `Parser::parse_edge_pattern`. -/
def parseEdgePattern : ParseM EdgePattern := do
  expect .dash "-"
  expect .lBracket "["
  let var ← expectIdent "relationship variable"
  let (label, properties) ← parseLabelAndProperties "relationship label"
  expect .rBracket "]"
  expect .arrow "->"
  pure ⟨var, label, properties⟩

/-- The loop of `Parser::parse_pattern`. -/
def parseChain : Nat → ParseM (List (EdgePattern × NodePattern))
  | 0 => pure []
  | fuel + 1 => do
      if (← peek) = some .dash then
        let edge ← parseEdgePattern
        let target ← parseNodePattern
        let chain ← parseChain fuel
        pure ((edge, target) :: chain)
      else pure []

/-- `Parser::parse_pattern`. -/
def parsePattern : ParseM Pattern := do
  let start ← parseNodePattern
  let chain ← parseChain (← tokensLeft)
  if chain.isEmpty then pure (.node start) else pure (.path start chain)

/-- The loop of `Parser::parse_pattern_list`. -/
def parsePatternListLoop : Nat → ParseM (List Pattern)
  | 0 => pure []
  | fuel + 1 => do
      if (← peek) = some .comma then
        advance
        let pattern ← parsePattern
        let patterns ← parsePatternListLoop fuel
        pure (pattern :: patterns)
      else pure []

/-- `Parser::parse_pattern_list`. -/
def parsePatternList : ParseM (List Pattern) := do
  let pattern ← parsePattern
  let patterns ← parsePatternListLoop (← tokensLeft)
  pure (pattern :: patterns)

/-! ## Statements -/

/-- `Parser::parse_return_item`. -/
def parseReturnItem : ParseM ReturnItem := do
  let name ← expectIdent "return variable or aggregate"
  let next ← peek
  if name = "count" ∧ next = some .lParen then
    advance
    let target ← expectIdent "variable inside count(...)"
    expect .rParen ")"
    pure (.count (some target))
  else if name = "collect" ∧ next = some .lParen then
    advance
    let var ← expectIdent "variable inside collect(...)"
    let inner ←
      if (← peek) = some .dot then do
        let path ← parsePropertyPath
        pure (CollectTarget.property var path)
      else pure (CollectTarget.var var)
    expect .rParen ")"
    pure (.collect inner)
  else if next = some .dot then
    let path ← parsePropertyPath
    pure (.property name path)
  else pure (.var name)

/-- The loop of `Parser::parse_return_items`. -/
def parseReturnItemsLoop : Nat → ParseM (List ReturnItem)
  | 0 => failExpecting "return variable or aggregate"
  | fuel + 1 => do
      let item ← parseReturnItem
      if (← peek) = some .comma then
        advance
        let items ← parseReturnItemsLoop fuel
        pure (item :: items)
      else pure [item]

/-- `Parser::parse_return_items`. -/
def parseReturnItems : ParseM (List ReturnItem) := do
  parseReturnItemsLoop (← tokensLeft)

/-- `Parser::parse_order_by`. -/
def parseOrderBy : ParseM OrderBy := do
  expect .order "ORDER"
  expect .byKw "BY"
  let expr ← parseExpr
  match ← peek with
  | some .asc => do
      advance
      pure ⟨expr, .asc⟩
  | some .desc => do
      advance
      pure ⟨expr, .desc⟩
  | _ => pure ⟨expr, .asc⟩

/-- The `RETURN` clause and what follows it. -/
def parseReturn (patterns : List Pattern) (whereClause : Option Expr) : ParseM Statement := do
  advance
  let returnItems ← parseReturnItems
  let orderBy ←
    if (← peek) = some .order then do
      let o ← parseOrderBy
      pure (some o)
    else pure none
  let limit ←
    if (← peek) = some .limit then do
      advance
      let n ← parseUnsignedInt
      pure (some n)
    else pure none
  expectEnd
  pure (.matchReturn patterns whereClause returnItems orderBy limit)

/-- The `[DETACH] DELETE` clause. -/
def parseDelete (patterns : List Pattern) (whereClause : Option Expr) : ParseM Statement := do
  let detach ←
    if (← peek) = some .detach then do
      advance
      pure true
    else pure false
  expect .delete "DELETE"
  let var ← expectIdent "variable to DELETE"
  expectEnd
  pure (.matchDelete patterns whereClause var detach)

/-- `Parser::parse_statement`. -/
def parseStatement : ParseM Statement := do
  match ← peek with
  | some .create => do
      advance
      let pattern ← parseNodePattern
      expectEnd
      pure (.create pattern)
  | some .merge => do
      advance
      let pattern ← parseNodePattern
      expectEnd
      pure (.merge pattern)
  | some .matchKw => do
      advance
      let patterns ← parsePatternList
      let whereClause ←
        if (← peek) = some .whereKw then do
          advance
          let expr ← parseExpr
          pure (some expr)
        else pure none
      match ← peek with
      | some .returnKw => parseReturn patterns whereClause
      | some .delete => parseDelete patterns whereClause
      | some .detach => parseDelete patterns whereClause
      | _ => failExpecting "RETURN, DELETE, or DETACH DELETE"
  | some t => throw (.unsupported (.token t))
  | none => throw (.unexpectedEnd "statement")

end Parser

/-- `parse_tokens`. -/
def parseTokens (tokens : List Spanned) : Except ParseError Statement :=
  match Parser.parseStatement ⟨tokens, (tokens.getLast?.map Spanned.offset).getD 0⟩ with
  | .ok s _ => .ok s
  | .error err _ => .error err

/-- `query::parse`. -/
def parse (src : String) : Except ParseError Statement :=
  match lex src with
  | .error err => .error (.lex err)
  | .ok tokens => parseTokens tokens

/-- `AND` binds tighter than `OR`, and `NOT` tighter than `AND`. -/
example : parse "MATCH (n) WHERE n.a = 1 OR NOT n.b = 2 AND n.c = 3 RETURN n" =
    .ok (.matchReturn [.node ⟨"n", none, ∅⟩]
      (some (.binary .or (.binary .eq (.property "n" ["a"]) (.literal (.i64 1)))
        (.binary .and (.not (.binary .eq (.property "n" ["b"]) (.literal (.i64 2))))
          (.binary .eq (.property "n" ["c"]) (.literal (.i64 3))))))
      [.var "n"] none none) := by
  decide +kernel

end Morceau
