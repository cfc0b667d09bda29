import Morceau.Lib.Parsing
import Morceau.Query.Ast
import Morceau.Query.Lexer

/-!
# The grammar of the query language

The Cypher subset of `query/mod.rs` as relations between the tokens of a phrase and its syntax tree,
one for each kind of phrase. The parser does not occur here: `OR` is looser than `AND`, `AND` than
`NOT`, and `NOT` than a comparison, which does not associate; `OR` and `AND` associate to the left,
which their rules say by left recursion. `id`, `count` and `collect` are identifiers like any other,
so `count` alone is a variable.
-/

set_option autoImplicit false

namespace Morceau

open Lib

/-! ## Expressions -/

/-- A literal token and its value. -/
inductive LiteralToken : Token → Value → Prop where
  | integer (i : Int64) : LiteralToken (.integer i) (.i64 i)
  | float (x : F64) : LiteralToken (.float x) (.f64 x)
  | string (s : String) : LiteralToken (.string s) (.string s)
  | trueKw : LiteralToken .trueKw (.bool true)
  | falseKw : LiteralToken .falseKw (.bool false)
  | null : LiteralToken .null .null

/-- A comparison token and its operator. -/
inductive ComparisonToken : Token → BinOp → Prop where
  | eq : ComparisonToken .eq .eq
  | notEq : ComparisonToken .notEq .notEq
  | lt : ComparisonToken .lt .lt
  | gt : ComparisonToken .gt .gt
  | ltEq : ComparisonToken .ltEq .ltEq
  | gtEq : ComparisonToken .gtEq .gtEq

/-- One step of a dotted path: `.key`. -/
inductive KeyPhrase : List Token → String → Prop where
  | intro (key : String) : KeyPhrase [.dot, .ident key] key

/-- What comes after the variable of a dotted path: one key or more. -/
structure PathPhrase (used : List Token) (path : List String) : Prop where
  keys : Star KeyPhrase used path
  nonempty : path ≠ []

/-- The levels of an expression, from the tightest to the loosest. -/
inductive Precedence where
  | primary
  | comparison
  | not
  | and
  | or
deriving DecidableEq, Repr

/-- An expression of a level. -/
inductive ExprPhrase : Precedence → List Token → Expr → Prop where
  | parens {used : List Token} {e : Expr} (h : ExprPhrase .or used e) :
      ExprPhrase .primary (.lParen :: used ++ [.rParen]) e
  | literal {t : Token} {v : Value} (h : LiteralToken t v) :
      ExprPhrase .primary [t] (.literal v)
  | param (name : String) : ExprPhrase .primary [.param name] (.param name)
  | idOf (var : String) :
      ExprPhrase .primary [.ident "id", .lParen, .ident var, .rParen] (.idOf var)
  | property {used : List Token} {path : List String} (var : String) (h : PathPhrase used path) :
      ExprPhrase .primary (.ident var :: used) (.property var path)
  | ofPrimary {used : List Token} {e : Expr} (h : ExprPhrase .primary used e) :
      ExprPhrase .comparison used e
  | compare {t : Token} {op : BinOp} {left right : List Token} {lhs rhs : Expr}
      (h : ComparisonToken t op) (hl : ExprPhrase .primary left lhs)
      (hr : ExprPhrase .primary right rhs) :
      ExprPhrase .comparison (left ++ t :: right) (.binary op lhs rhs)
  | ofComparison {used : List Token} {e : Expr} (h : ExprPhrase .comparison used e) :
      ExprPhrase .not used e
  | not {used : List Token} {e : Expr} (h : ExprPhrase .not used e) :
      ExprPhrase .not (.not :: used) (.not e)
  | ofNot {used : List Token} {e : Expr} (h : ExprPhrase .not used e) : ExprPhrase .and used e
  | and {left right : List Token} {lhs rhs : Expr} (hl : ExprPhrase .and left lhs)
      (hr : ExprPhrase .not right rhs) :
      ExprPhrase .and (left ++ .and :: right) (.binary .and lhs rhs)
  | ofAnd {used : List Token} {e : Expr} (h : ExprPhrase .and used e) : ExprPhrase .or used e
  | or {left right : List Token} {lhs rhs : Expr} (hl : ExprPhrase .or left lhs)
      (hr : ExprPhrase .and right rhs) :
      ExprPhrase .or (left ++ .or :: right) (.binary .or lhs rhs)

/-! ## Patterns -/

/-- An entry of a property block: `key: expr`. -/
inductive EntryPhrase : List Token → String × Expr → Prop where
  | intro {used : List Token} {e : Expr} (key : String) (h : ExprPhrase .or used e) :
      EntryPhrase (.ident key :: .colon :: used) (key, e)

/-- A property block. A key that is repeated keeps its last value. -/
inductive PropertyMapPhrase : List Token → BTreeMap String Expr → Prop where
  | empty : PropertyMapPhrase [.lBrace, .rBrace] ∅
  | entries {used : List Token} {entries : List (String × Expr)} {props : BTreeMap String Expr}
      (h : SepBy .comma EntryPhrase used entries)
      (last : ∀ key, props[key]? = entries.reverse.lookup key) :
      PropertyMapPhrase (.lBrace :: used ++ [.rBrace]) props

/-- An optional label. -/
inductive LabelPhrase : List Token → Option String → Prop where
  | none : LabelPhrase [] none
  | some (label : String) : LabelPhrase [.colon, .ident label] (some label)

/-- An optional property block. -/
inductive PropertiesPhrase : List Token → BTreeMap String Expr → Prop where
  | none : PropertiesPhrase [] ∅
  | map {used : List Token} {props : BTreeMap String Expr} (h : PropertyMapPhrase used props) :
      PropertiesPhrase used props

/-- What comes after the variable of a pattern: an optional label and an optional block. -/
inductive BlockPhrase : List Token → Option String × BTreeMap String Expr → Prop where
  | intro {used more : List Token} {label : Option String} {props : BTreeMap String Expr}
      (hl : LabelPhrase used label) (hp : PropertiesPhrase more props) :
      BlockPhrase (used ++ more) (label, props)

/-- A node pattern: `(var:Label {...})`. -/
inductive NodePhrase : List Token → NodePattern → Prop where
  | intro {used : List Token} {label : Option String} {props : BTreeMap String Expr} (var : String)
      (h : BlockPhrase used (label, props)) :
      NodePhrase (.lParen :: .ident var :: used ++ [.rParen]) ⟨var, label, props⟩

/-- An edge pattern: `-[var:Label {...}]->`. -/
inductive EdgePhrase : List Token → EdgePattern → Prop where
  | intro {used : List Token} {label : Option String} {props : BTreeMap String Expr} (var : String)
      (h : BlockPhrase used (label, props)) :
      EdgePhrase (.dash :: .lBracket :: .ident var :: used ++ [.rBracket, .arrow])
        ⟨var, label, props⟩

/-- A hop of a path: an edge and its target. -/
inductive HopPhrase : List Token → EdgePattern × NodePattern → Prop where
  | intro {used more : List Token} {edge : EdgePattern} {target : NodePattern}
      (he : EdgePhrase used edge) (ht : NodePhrase more target) :
      HopPhrase (used ++ more) (edge, target)

/-- A node, or a path of one hop or more. -/
inductive PatternPhrase : List Token → Pattern → Prop where
  | node {used : List Token} {np : NodePattern} (h : NodePhrase used np) :
      PatternPhrase used (.node np)
  | path {used more : List Token} {start : NodePattern} {chain : List (EdgePattern × NodePattern)}
      (hs : NodePhrase used start) (hc : Star HopPhrase more chain) (nonempty : chain ≠ []) :
      PatternPhrase (used ++ more) (.path start chain)

/-! ## Statements -/

/-- What `collect` collects. -/
inductive CollectPhrase : List Token → CollectTarget → Prop where
  | var (v : String) : CollectPhrase [.ident v] (.var v)
  | property {used : List Token} {path : List String} (v : String) (h : PathPhrase used path) :
      CollectPhrase (.ident v :: used) (.property v path)

/-- An item of `RETURN`. -/
inductive ReturnItemPhrase : List Token → ReturnItem → Prop where
  | var (v : String) : ReturnItemPhrase [.ident v] (.var v)
  | property {used : List Token} {path : List String} (v : String) (h : PathPhrase used path) :
      ReturnItemPhrase (.ident v :: used) (.property v path)
  | count (v : String) :
      ReturnItemPhrase [.ident "count", .lParen, .ident v, .rParen] (.count (some v))
  | collect {used : List Token} {target : CollectTarget} (h : CollectPhrase used target) :
      ReturnItemPhrase (.ident "collect" :: .lParen :: used ++ [.rParen]) (.collect target)

/-- An optional `WHERE` clause. -/
inductive WherePhrase : List Token → Option Expr → Prop where
  | none : WherePhrase [] none
  | some {used : List Token} {e : Expr} (h : ExprPhrase .or used e) :
      WherePhrase (.whereKw :: used) (some e)

/-- An optional direction. -/
inductive DirectionPhrase : List Token → SortDirection → Prop where
  | none : DirectionPhrase [] .asc
  | asc : DirectionPhrase [.asc] .asc
  | desc : DirectionPhrase [.desc] .desc

/-- An optional `ORDER BY` clause. -/
inductive OrderByPhrase : List Token → Option OrderBy → Prop where
  | none : OrderByPhrase [] none
  | some {used more : List Token} {e : Expr} {direction : SortDirection}
      (he : ExprPhrase .or used e) (hd : DirectionPhrase more direction) :
      OrderByPhrase (.order :: .byKw :: used ++ more) (some ⟨e, direction⟩)

/-- An optional `LIMIT` clause. -/
inductive LimitPhrase : List Token → Option Nat → Prop where
  | none : LimitPhrase [] none
  | some {i : Int64} (h : 0 ≤ i.toInt) : LimitPhrase [.limit, .integer i] (some i.toInt.toNat)

/-- An optional `DETACH`. -/
inductive DetachPhrase : List Token → Bool → Prop where
  | none : DetachPhrase [] false
  | detach : DetachPhrase [.detach] true

/-- The patterns of a `MATCH` and its condition. -/
inductive MatchPhrase : List Token → List Pattern × Option Expr → Prop where
  | intro {used more : List Token} {patterns : List Pattern} {whereClause : Option Expr}
      (hp : SepBy .comma PatternPhrase used patterns) (hw : WherePhrase more whereClause) :
      MatchPhrase (.matchKw :: used ++ more) (patterns, whereClause)

/-- A statement. -/
inductive StatementPhrase : List Token → Statement → Prop where
  | create {used : List Token} {np : NodePattern} (h : NodePhrase used np) :
      StatementPhrase (.create :: used) (.create np)
  | merge {used : List Token} {np : NodePattern} (h : NodePhrase used np) :
      StatementPhrase (.merge :: used) (.merge np)
  | matchReturn {used items order limit : List Token} {patterns : List Pattern}
      {whereClause : Option Expr} {returnItems : List ReturnItem} {orderBy : Option OrderBy}
      {n : Option Nat} (hm : MatchPhrase used (patterns, whereClause))
      (hi : SepBy .comma ReturnItemPhrase items returnItems) (ho : OrderByPhrase order orderBy)
      (hl : LimitPhrase limit n) :
      StatementPhrase (used ++ .returnKw :: (items ++ order ++ limit))
        (.matchReturn patterns whereClause returnItems orderBy n)
  | matchDelete {used mode : List Token} {patterns : List Pattern} {whereClause : Option Expr}
      {detach : Bool} (var : String) (hm : MatchPhrase used (patterns, whereClause))
      (hd : DetachPhrase mode detach) :
      StatementPhrase (used ++ mode ++ [.delete, .ident var])
        (.matchDelete patterns whereClause var detach)

/-! ## How phrases begin -/

/-- An expression has a token. -/
theorem ExprPhrase.exists_cons {l : Precedence} {used : List Token} {e : Expr}
    (h : ExprPhrase l used e) : ∃ t more, used = t :: more := by
  induction h with
  | compare _ _ _ ih _ | and _ _ ih _ | or _ _ ih _ =>
      obtain ⟨t, more, rfl⟩ := ih
      exact ⟨t, _, rfl⟩
  | ofPrimary _ ih | ofComparison _ ih | ofNot _ ih | ofAnd _ ih => exact ih
  | parens _ _ | literal _ | param _ | idOf _ | property _ _ | not _ _ => exact ⟨_, _, rfl⟩

/-- A comparison does not begin with `NOT`. -/
theorem ExprPhrase.head_of_comparison {used : List Token} {e : Expr}
    (h : ExprPhrase .comparison used e) : ∃ t more, used = t :: more ∧ t ≠ .not := by
  -- a comparison begins with a primary
  have hprimary : ∀ {used e}, ExprPhrase .primary used e →
      ∃ t more, used = t :: more ∧ t ≠ .not := by
    intro used e h
    cases h with
    | literal ht => exact ⟨_, _, rfl, by cases ht <;> simp⟩
    | parens _ | param _ | idOf _ | property _ _ => exact ⟨_, _, rfl, by simp⟩
  cases h with
  | ofPrimary h => exact hprimary h
  | compare _ hl _ =>
      obtain ⟨t, more, rfl, ht⟩ := hprimary hl
      exact ⟨t, _, rfl, ht⟩

theorem exists_ident_of_entries {used : List Token} {entries : List (String × Expr)}
    (h : SepBy .comma EntryPhrase used entries) : ∃ key more, used = .ident key :: more := by
  cases h with
  | one h | cons h _ =>
      obtain ⟨key, _⟩ := h
      exact ⟨key, _, rfl⟩

theorem ReturnItemPhrase.exists_ident {used : List Token} {item : ReturnItem}
    (h : ReturnItemPhrase used item) : ∃ name more, used = .ident name :: more := by
  cases h <;> exact ⟨_, _, rfl⟩

theorem PropertyMapPhrase.head {used : List Token} {props : BTreeMap String Expr}
    (h : PropertyMapPhrase used props) : used.head? = some .lBrace := by
  cases h <;> rfl

theorem HopPhrase.head {used : List Token} {hop : EdgePattern × NodePattern}
    (h : HopPhrase used hop) : used.head? = some .dash := by
  obtain ⟨⟨_, _⟩, _⟩ := h
  rfl

theorem PathPhrase.head {used : List Token} {path : List String} (h : PathPhrase used path) :
    used.head? = some .dot := by
  obtain ⟨hkeys, hne⟩ := h
  cases hkeys with
  | nil => exact absurd rfl hne
  | cons head _ =>
      obtain ⟨key⟩ := head
      rfl

end Morceau
