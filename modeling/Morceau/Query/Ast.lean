import Morceau.Data.Graph

/-!
# Syntax of the query language

The syntax tree of `query/ast.rs`: `CREATE`, `MERGE`, `MATCH ... RETURN` and
`MATCH ... [DETACH] DELETE` statements over node and path patterns. `variable` is a keyword of Lean,
so a variable is `var`.
-/

set_option autoImplicit false

namespace Morceau

/-- `BinOp`. -/
inductive BinOp where
  | and
  | or
  | eq
  | notEq
  | lt
  | gt
  | ltEq
  | gtEq
deriving DecidableEq, Repr

/-- `Expr`. -/
inductive Expr where
  | literal (v : Value)
  | param (name : String)
  | property (var : String) (path : List String)
  | idOf (var : String)
  | binary (op : BinOp) (lhs rhs : Expr)
  | not (inner : Expr)
deriving DecidableEq

/-- `NodePattern`: a variable, an optional label and a property block. -/
structure NodePattern where
  var : String
  label : Option String
  properties : BTreeMap String Expr
deriving DecidableEq

/-- `EdgePattern`. -/
structure EdgePattern where
  var : String
  label : Option String
  properties : BTreeMap String Expr
deriving DecidableEq

/-- `Pattern`: a node, or a path from a node over successive edges and their targets. -/
inductive Pattern where
  | node (np : NodePattern)
  | path (start : NodePattern) (chain : List (EdgePattern × NodePattern))
deriving DecidableEq

/-- `CollectTarget`. -/
inductive CollectTarget where
  | var (v : String)
  | property (var : String) (path : List String)
deriving DecidableEq, Repr

/-- `ReturnItem`. -/
inductive ReturnItem where
  | var (v : String)
  | property (var : String) (path : List String)
  | count (target : Option String)
  | collect (target : CollectTarget)
deriving DecidableEq, Repr

/-- `SortDirection`. -/
inductive SortDirection where
  | asc
  | desc
deriving DecidableEq, Repr

/-- `OrderBy`. -/
structure OrderBy where
  expr : Expr
  direction : SortDirection
deriving DecidableEq

/-- `Statement`. A limit is a `u64`, which the parser reads from a non-negative `i64`. -/
inductive Statement where
  | create (pattern : NodePattern)
  | merge (pattern : NodePattern)
  | matchReturn (patterns : List Pattern) (whereClause : Option Expr)
      (returnItems : List ReturnItem) (orderBy : Option OrderBy) (limit : Option Nat)
  | matchDelete (patterns : List Pattern) (whereClause : Option Expr) (var : String)
      (detach : Bool)
deriving DecidableEq

end Morceau
