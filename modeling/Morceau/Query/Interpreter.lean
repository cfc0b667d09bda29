import Morceau.Engine
import Morceau.Query.Parser

/-!
# The interpreter

`query/interpreter.rs`: the interpreter walks the syntax tree and calls the engine. Functions that
only look at the engine return an `Except`; functions that call it are state transformers over the
engine, and an error keeps whatever was changed before it.

An engine error that reaches a query is kept as it is (`Reason.engine`); the source keeps its text.
`Vec::sort_by` is a stable sort.
-/

set_option autoImplicit false

namespace Morceau

open Lib

/-- `Params`. -/
abbrev Params := BTreeMap String Value

/-- What a type mismatch says: a text of the interpreter, or an error of the engine. -/
inductive Reason where
  | text (message : String)
  | engine (err : EngineError)
deriving DecidableEq, Repr

/-- `InterpretError`. The last one is not in the source: it stands for a statement that panics, in
the sort of `ORDER BY`. -/
inductive InterpretError where
  | unknownParam (name : String)
  | unknownVariable (var : String)
  | expectedBool (actual : String)
  | expectedScalar (actual : String)
  | typeMismatch (reason : Reason)
  | mergeMissingId
  | missingLabel
  | deleteVariableMismatch (var : String)
  | deleteEdgeUnsupported
  | nestedPath (path : String)
  | panicked (message : String)
deriving DecidableEq, Repr

/-- `Binding`: the entity a variable is bound to in a row. -/
inductive Binding where
  | node (n : Node)
  | edge (d : Edge)
deriving DecidableEq

/-- `Binding::id`. -/
def Binding.id : Binding → String
  | .node n => n.id
  | .edge d => d.id

/-- `Bindings`: one row. -/
abbrev Bindings := BTreeMap String Binding

/-- `ResultCell`. -/
inductive ResultCell where
  | value (v : Value)
  | node (n : Node)
  | edge (d : Edge)
deriving DecidableEq

/-- `QueryResult`. -/
structure QueryResult where
  columns : List String
  rows : List (List ResultCell)
deriving DecidableEq

/-- `QueryResult::empty`. -/
def QueryResult.empty : QueryResult := ⟨[], []⟩

/-- An interpreter function that calls the engine. -/
abbrev InterpretM (σ α : Type) := EStateM InterpretError (Engine σ) α

namespace Interpreter

variable {σ : Type}

/-- Call the engine; its error becomes a type mismatch. -/
def callEngine {α : Type} (x : EngineM σ α) : InterpretM σ α :=
  x.adaptExcept fun err => .typeMismatch (.engine err)

/-- Run a function that looks at the engine. -/
def look {α : Type} (x : Engine σ → Except InterpretError α) : InterpretM σ α := fun e =>
  match x e with
  | .ok a => .ok a e
  | .error err => .error err e

/-! ## Values and comparisons -/

/-- `values_equal`. -/
def valuesEqual : Value → Value → Bool
  | .null, .null => true
  | .bool a, .bool b => a == b
  | .i64 a, .i64 b => a == b
  | .f64 a, .f64 b => a.eq b
  | .i64 a, .f64 b => (F64.ofInt64 a).eq b
  | .f64 b, .i64 a => (F64.ofInt64 a).eq b
  | .string a, .string b => a == b
  | _, _ => false

/-- Whether an order satisfies a comparison operator. -/
def orderSatisfies : BinOp → Ordering → Bool
  | .lt, .lt => true
  | .ltEq, .lt => true
  | .ltEq, .eq => true
  | .gt, .gt => true
  | .gtEq, .gt => true
  | .gtEq, .eq => true
  | _, _ => false

/-- The result of a comparison whose order is known, or unknown because of a NaN. -/
def compareResult (op : BinOp) : Option Ordering → Value
  | some ord => .bool (orderSatisfies op ord)
  | none => .null

/-- `compare`. Two integers are compared as doubles. -/
def compareValues (op : BinOp) : Value → Value → Except InterpretError Value
  | .i64 a, .i64 b => .ok (compareResult op ((F64.ofInt64 a).partialCmp (F64.ofInt64 b)))
  | .f64 a, .f64 b => .ok (compareResult op (a.partialCmp b))
  | .i64 a, .f64 b => .ok (compareResult op ((F64.ofInt64 a).partialCmp b))
  | .f64 a, .i64 b => .ok (compareResult op (a.partialCmp (F64.ofInt64 b)))
  | .string a, .string b => .ok (compareResult op (some (compare a b)))
  | .null, _ => .ok .null
  | _, .null => .ok .null
  | a, b =>
      .error (.typeMismatch (.text ("cannot compare " ++ a.typeName ++ " and " ++ b.typeName)))

/-- The `And` and `Or` arms of `apply_binop`: `Null` wins over everything. -/
def applyLogic (name : String) (f : Bool → Bool → Bool) :
    Value → Value → Except InterpretError Value
  | .bool a, .bool b => .ok (.bool (f a b))
  | .null, _ => .ok .null
  | _, .null => .ok .null
  | a, b =>
      .error (.typeMismatch
        (.text (name ++ " requires booleans, got " ++ a.typeName ++ " and " ++ b.typeName)))

/-- `apply_binop`. -/
def applyBinop (op : BinOp) (l r : Value) : Except InterpretError Value :=
  match op with
  | .and => applyLogic "AND" (fun a b => a && b) l r
  | .or => applyLogic "OR" (fun a b => a || b) l r
  | .eq => .ok (.bool (valuesEqual l r))
  | .notEq => .ok (.bool (!valuesEqual l r))
  | .lt => compareValues .lt l r
  | .gt => compareValues .gt l r
  | .ltEq => compareValues .ltEq l r
  | .gtEq => compareValues .gtEq l r

/-- The order of two values before the direction is applied: `Null` is last, and values that do not
compare are equal. -/
def naturalOrder : Value → Value → Ordering
  | .null, .null => .eq
  | .null, _ => .gt
  | _, .null => .lt
  | .i64 x, .i64 y => compare x.toInt y.toInt
  | .f64 x, .f64 y => (x.partialCmp y).getD .eq
  | .i64 x, .f64 y => ((F64.ofInt64 x).partialCmp y).getD .eq
  | .f64 x, .i64 y => (x.partialCmp (F64.ofInt64 y)).getD .eq
  | .string x, .string y => compare x y
  | .bool x, .bool y => compare x y
  | .timestamp x, .timestamp y => compare x.toInt y.toInt
  | _, _ => .eq

/-- `compare_for_sort`. -/
def compareForSort (a b : Value) : SortDirection → Ordering
  | .asc => naturalOrder a b
  | .desc => (naturalOrder a b).swap

/-! ## Expressions -/

/-- `eval_const`. -/
def evalConst (params : Params) : Expr → Except InterpretError Value
  | .literal v => .ok v
  | .param name =>
      match params[name]? with
      | some v => .ok v
      | none => .error (.unknownParam name)
  | _ => .error (.expectedScalar "non-constant in constant context")

/-- `eval_property_map`. -/
def evalPropertyMap (props : BTreeMap String Expr) (params : Params) :
    Except InterpretError (BTreeMap String Value) :=
  props.toList.foldlM (fun out (k, v) => do
    let value ← evalConst params v
    pure (out.insert k value)) ∅

/-- `morceau_metadata`. -/
def morceauMetadata (e : Engine σ) (node : Node) : List String → Value
  | ["foreshadow"] => .bool (e.isForeshadow node.id)
  | ["schema", "version"] =>
      match e.currentSchema with
      | some s => .i64 s.version.toInt64
      | none => .null
  | _ => .null

/-- `resolve_node_property_path`. -/
def resolveNodePropertyPath (e : Engine σ) (node : Node) :
    List String → Except InterpretError Value
  | [key] => .ok ((node.properties[key]?).getD .null)
  | "_morceau" :: rest => .ok (morceauMetadata e node rest)
  | path => .error (.nestedPath (".".intercalate path))

/-- `resolve_edge_property_path`. -/
def resolveEdgePropertyPath (edge : Edge) : List String → Except InterpretError Value
  | [key] => .ok ((edge.properties[key]?).getD .null)
  | path => .error (.nestedPath (".".intercalate path))

/-- A property path of whatever a variable is bound to. -/
def resolvePropertyPath (e : Engine σ) (bindings : Bindings) (var : String) (path : List String) :
    Except InterpretError Value :=
  match bindings[var]? with
  | some (.node n) => resolveNodePropertyPath e n path
  | some (.edge d) => resolveEdgePropertyPath d path
  | none => .error (.unknownVariable var)

/-- `eval_expr`. -/
def evalExpr (e : Engine σ) (bindings : Bindings) (params : Params) :
    Expr → Except InterpretError Value
  | .literal v => .ok v
  | .param name =>
      match params[name]? with
      | some v => .ok v
      | none => .error (.unknownParam name)
  | .idOf var =>
      match bindings[var]? with
      | some b => .ok (.string b.id)
      | none => .error (.unknownVariable var)
  | .property var path => resolvePropertyPath e bindings var path
  | .not inner => do
      match ← evalExpr e bindings params inner with
      | .bool b => .ok (.bool (!b))
      | .null => .ok .null
      | other => .error (.expectedBool other.typeName)
  | .binary op lhs rhs => do
      let l ← evalExpr e bindings params lhs
      let r ← evalExpr e bindings params rhs
      applyBinop op l r

/-- `eval_predicate`. -/
def evalPredicate (e : Engine σ) (bindings : Bindings) (params : Params) :
    Option Expr → Except InterpretError Bool
  | none => .ok true
  | some expr => do
      match ← evalExpr e bindings params expr with
      | .bool b => .ok b
      | .null => .ok false
      | other => .error (.expectedBool other.typeName)

/-! ## Candidates -/

/-- The other side of an equation with `id(var)`; the left side is tried first. -/
def idPredicateSide (var : String) (lhs rhs : Expr) : Option Expr :=
  if lhs = .idOf var then some rhs else if rhs = .idOf var then some lhs else none

/-- `extract_id_in_expr`. -/
def extractIdInExpr (var : String) (params : Params) :
    Expr → Except InterpretError (Option String)
  | .binary .eq lhs rhs =>
      match idPredicateSide var lhs rhs with
      | none => .ok none
      | some other => do
          match ← evalConst params other with
          | .string s => .ok (some s)
          | _ => .ok none
  | .binary .and lhs rhs => do
      match ← extractIdInExpr var params lhs with
      | some found => .ok (some found)
      | none => extractIdInExpr var params rhs
  | _ => .ok none

/-- `extract_id_predicate`. -/
def extractIdPredicate (var : String) (params : Params) :
    Option Expr → Except InterpretError (Option String)
  | none => .ok none
  | some expr => extractIdInExpr var params expr

/-- `pattern_matches_node`. -/
def patternMatchesNode (pattern : NodePattern) (node : Node) : Bool :=
  match pattern.label with
  | some label => label == node.label
  | none => true

/-- `edge_pattern_matches`. -/
def edgePatternMatches (pattern : EdgePattern) (edge : Edge) (inlineProps : BTreeMap String Value) :
    Bool :=
  (match pattern.label with
    | some label => label == edge.label
    | none => true) &&
  inlineProps.toList.all fun (k, expected) =>
    match edge.properties[k]? with
    | some actual => valuesEqual actual expected
    | none => false

/-- `unify_bindings`: shared variables must have the same id; the left binding is kept. -/
def unifyBindings (a b : Bindings) : Option Bindings :=
  if b.toList.all (fun (k, v) =>
      match a[k]? with
      | some existing => existing.id == v.id
      | none => true)
  then some (b.toList.foldl (fun out (k, v) => out.insertIfNew k v) a)
  else none

/-- The row that binds one variable to a node. -/
def nodeRow (var : String) (node : Node) : Bindings := (∅ : Bindings).insert var (.node node)

variable [Storage σ] (P : Platform)

/-- `node_candidates`: the index when `WHERE` fixes the id, a scan otherwise. -/
def nodeCandidates (pattern : NodePattern) (whereClause : Option Expr) (params : Params) :
    InterpretM σ (List Bindings) := do
  match ← look fun _ => extractIdPredicate pattern.var params whereClause with
  | some idValue => do
      let byId ← callEngine (Engine.getNode P idValue)
      match byId with
      | some node =>
          pure (if patternMatchesNode pattern node then [nodeRow pattern.var node] else [])
      | none => pure []
  | none => do
      let all ← callEngine (Engine.iterNodes P)
      pure ((all.filter (patternMatchesNode pattern)).map (nodeRow pattern.var))

/-- The edges of one row of a hop: bind the edge, then its target. -/
def hopEdges (edgePat : EdgePattern) (targetPat : NodePattern) (edgeProps : BTreeMap String Value)
    (row : Bindings) : List Edge → InterpretM σ (List Bindings)
  | [] => pure []
  | edge :: edges =>
      if !edgePatternMatches edgePat edge edgeProps then
        hopEdges edgePat targetPat edgeProps row edges
      else do
        let target ← callEngine (Engine.getNode P edge.toId)
        match target with
        | none => hopEdges edgePat targetPat edgeProps row edges
        | some target =>
            if !patternMatchesNode targetPat target then
              hopEdges edgePat targetPat edgeProps row edges
            else do
              let rest ← hopEdges edgePat targetPat edgeProps row edges
              pure (((row.insert edgePat.var (.edge edge)).insert targetPat.var (.node target))
                :: rest)

/-- The rows of one hop. -/
def hopRows (prevVar : String) (edgePat : EdgePattern) (targetPat : NodePattern)
    (edgeProps : BTreeMap String Value) : List Bindings → InterpretM σ (List Bindings)
  | [] => pure []
  | row :: rows => do
      match row[prevVar]? with
      | some (.node prevNode) => do
          let candidateEdges ← callEngine (Engine.iterEdgesFrom P prevNode.id edgePat.label)
          let here ← hopEdges P edgePat targetPat edgeProps row candidateEdges
          let next ← hopRows prevVar edgePat targetPat edgeProps rows
          pure (here ++ next)
      | _ => hopRows prevVar edgePat targetPat edgeProps rows

/-- The hop loop of `path_candidates`; `prevVar` is the variable the next hop starts from. -/
def walkChain (params : Params) :
    String → List (EdgePattern × NodePattern) → List Bindings → InterpretM σ (List Bindings)
  | _, [], rows => pure rows
  | prevVar, (edgePat, targetPat) :: chain, rows => do
      let edgeProps ← look fun _ => evalPropertyMap edgePat.properties params
      let next ← hopRows P prevVar edgePat targetPat edgeProps rows
      walkChain params targetPat.var chain next

/-- `path_candidates`. The rows it starts from are built as in `node_candidates`. -/
def pathCandidates (start : NodePattern) (chain : List (EdgePattern × NodePattern))
    (whereClause : Option Expr) (params : Params) : InterpretM σ (List Bindings) := do
  let rows ← nodeCandidates P start whereClause params
  walkChain P params start.var chain rows

/-- `candidates_for_pattern`. -/
def candidatesForPattern (pattern : Pattern) (whereClause : Option Expr) (params : Params) :
    InterpretM σ (List Bindings) :=
  match pattern with
  | .node np => nodeCandidates P np whereClause params
  | .path start chain => pathCandidates P start chain whereClause params

/-- The nested loops that join the rows so far with the candidates of a pattern. -/
def joinRows (rows candidates : List Bindings) : List Bindings :=
  rows.flatMap fun existing => candidates.filterMap (unifyBindings existing)

/-- The pattern loop of `find_match_rows`; an empty join ends it. -/
def joinPatterns (whereClause : Option Expr) (params : Params) :
    List Pattern → List Bindings → InterpretM σ (List Bindings)
  | [], rows => pure rows
  | pattern :: patterns, rows => do
      let candidates ← candidatesForPattern P pattern whereClause params
      let next := joinRows rows candidates
      if next.isEmpty then pure [] else joinPatterns whereClause params patterns next

/-- The filter loop of `find_match_rows`; `kept` rows are out already. The limit is tested after a
row is pushed. -/
def filterRows (e : Engine σ) (whereClause : Option Expr) (params : Params) (limit : Option Nat) :
    Nat → List Bindings → Except InterpretError (List Bindings)
  | _, [] => .ok []
  | kept, row :: rows => do
      if ← evalPredicate e row params whereClause then
        match limit with
        | some l =>
            if l ≤ kept + 1 then pure [row]
            else do
              let out ← filterRows e whereClause params limit (kept + 1) rows
              pure (row :: out)
        | none => do
            let out ← filterRows e whereClause params limit (kept + 1) rows
            pure (row :: out)
      else filterRows e whereClause params limit kept rows

/-- `find_match_rows`. -/
def findMatchRows (patterns : List Pattern) (whereClause : Option Expr) (params : Params)
    (limit : Option Nat) : InterpretM σ (List Bindings) := do
  let rows ← joinPatterns P whereClause params patterns [∅]
  look fun e => filterRows e whereClause params limit 0 rows

/-! ## Results -/

/-- `is_aggregate`. -/
def isAggregate : ReturnItem → Bool
  | .count _ => true
  | .collect _ => true
  | _ => false

/-- A variable and a path, with dots. -/
def dotted (var : String) (path : List String) : String :=
  path.foldl (fun s seg => s ++ "." ++ seg) var

/-- `return_item_column_name`. -/
def returnItemColumnName : ReturnItem → String
  | .var v => v
  | .property var path => dotted var path
  | .count (some v) => "count(" ++ v ++ ")"
  | .count none => "count(*)"
  | .collect (.var v) => "collect(" ++ v ++ ")"
  | .collect (.property var path) => dotted ("collect(" ++ var) path ++ ")"

/-- `collect_one`. -/
def collectOne (e : Engine σ) (bindings : Bindings) : CollectTarget → Except InterpretError Value
  | .var v =>
      match bindings[v]? with
      | some b => .ok (.string b.id)
      | none => .error (.unknownVariable v)
  | .property var path => resolvePropertyPath e bindings var path

/-- `project_aggregate_row`. -/
def projectAggregateRow (e : Engine σ) (returnItems : List ReturnItem) (rows : List Bindings) :
    Except InterpretError (List (List ResultCell)) := do
  let row ← returnItems.mapM fun item =>
    match item with
    | .count _ => .ok (ResultCell.value (.i64 (Int64.ofInt rows.length)))
    | .collect target => do
        let list ← rows.mapM fun bindings => collectOne e bindings target
        pure (ResultCell.value (.list list))
    | _ =>
        .error (.typeMismatch (.text
          "mixing aggregate and non-aggregate columns is not supported (alpha.4 has no GROUP BY)"))
  pure [row]

/-- `project`. It is not called for aggregates. -/
def project (e : Engine σ) (bindings : Bindings) : ReturnItem → Except InterpretError ResultCell
  | .var v =>
      match bindings[v]? with
      | some (.node n) => .ok (.node n)
      | some (.edge d) => .ok (.edge d)
      | none => .error (.unknownVariable v)
  | .property var path => do
      let v ← resolvePropertyPath e bindings var path
      pure (.value v)
  | .count _ => .error (.typeMismatch (.text "unreachable"))
  | .collect _ => .error (.typeMismatch (.text "unreachable"))

/-- The projection loop of `exec_match_return`; the limit is tested after a row is pushed. -/
def projectRows (e : Engine σ) (returnItems : List ReturnItem) (limit : Option Nat) :
    Nat → List Bindings → Except InterpretError (List (List ResultCell))
  | _, [] => .ok []
  | kept, bindings :: rows => do
      let row ← returnItems.mapM (project e bindings)
      match limit with
      | some l =>
          if l ≤ kept + 1 then pure [row]
          else do
            let out ← projectRows e returnItems limit (kept + 1) rows
            pure (row :: out)
      | none => do
          let out ← projectRows e returnItems limit (kept + 1) rows
          pure (row :: out)

/-- The message of a sort that finds its comparator not to be an order. -/
def orderViolation : String :=
  "user-provided comparison function does not correctly implement a total order"

/-- `sort_rows`. The rows are sorted by `slice::sort_by`: where the comparator is total on the keys
this is the stable sort, and elsewhere whatever the platform does. -/
def sortRows (e : Engine σ) (rows : List Bindings) (order : OrderBy) (params : Params) :
    Except InterpretError (List Bindings) := do
  let keyed ← rows.mapM fun bindings => do
    let key ← evalExpr e bindings params order.expr
    pure (key, bindings)
  match P.sortBy (fun a b => compareForSort a.1 b.1 order.direction) keyed with
  | some sorted => pure (sorted.map Prod.snd)
  | none => throw (.panicked orderViolation)

/-! ## Statements -/

/-- `require_id`. -/
def requireId (props : BTreeMap String Value) : Except InterpretError String :=
  match props["id"]? with
  | some (.string s) => .ok s
  | some _ => .error (.typeMismatch (.text "`id` property must be a string"))
  | none => .error .mergeMissingId

/-- The label of a node to insert. -/
def requireLabel (pattern : NodePattern) : Except InterpretError String :=
  match pattern.label with
  | some label => .ok label
  | none => .error .missingLabel

/-- The label, the properties and the id of a node to insert. -/
def nodeParts (pattern : NodePattern) (params : Params) :
    Except InterpretError (String × BTreeMap String Value × String) := do
  let label ← requireLabel pattern
  let props ← evalPropertyMap pattern.properties params
  let id ← requireId props
  pure (label, props, id)

/-- The node that `CREATE` and `MERGE` insert: every property but the id. -/
def nodeOfParts (label : String) (props : BTreeMap String Value) (id : String) : Node :=
  ⟨id, label, props.filter fun k _ => k != "id"⟩

/-- `exec_create`. -/
def execCreate (pattern : NodePattern) (params : Params) : InterpretM σ QueryResult := do
  let (label, props, id) ← look fun _ => nodeParts pattern params
  callEngine (Engine.insertNode P (nodeOfParts label props id))
  pure .empty

/-- `exec_merge`. -/
def execMerge (pattern : NodePattern) (params : Params) : InterpretM σ QueryResult := do
  let (label, props, id) ← look fun _ => nodeParts pattern params
  let e ← get
  if e.hasNode id then pure .empty
  else do
    callEngine (Engine.insertNode P (nodeOfParts label props id))
    pure .empty

/-- The rows in the order the statement asks for. -/
def orderRows (orderBy : Option OrderBy) (params : Params) (rows : List Bindings) :
    InterpretM σ (List Bindings) :=
  match orderBy with
  | some order => look fun e => sortRows P e rows order params
  | none => pure rows

/-- The cells of the rows: one row of aggregates, or one row each. -/
def outputRows (returnItems : List ReturnItem) (limit : Option Nat) (rows : List Bindings) :
    InterpretM σ (List (List ResultCell)) :=
  if returnItems.any isAggregate then look fun e => projectAggregateRow e returnItems rows
  else look fun e => projectRows e returnItems limit 0 rows

/-- The limit that the match itself may apply: none when an aggregate or an order needs every row.
-/
def inlineLimit (returnItems : List ReturnItem) (orderBy : Option OrderBy) (limit : Option Nat) :
    Option Nat :=
  if returnItems.any isAggregate || orderBy.isSome then none else limit

/-- `exec_match_return`. -/
def execMatchReturn (patterns : List Pattern) (whereClause : Option Expr)
    (returnItems : List ReturnItem) (orderBy : Option OrderBy) (limit : Option Nat)
    (params : Params) : InterpretM σ QueryResult := do
  let rows ← findMatchRows P patterns whereClause params (inlineLimit returnItems orderBy limit)
  let rows ← orderRows P orderBy params rows
  let outRows ← outputRows returnItems limit rows
  pure ⟨returnItems.map returnItemColumnName, outRows⟩

/-- The loop of `exec_match_delete`. -/
def deleteRows (var : String) (detach : Bool) : List Bindings → InterpretM σ Unit
  | [] => pure ()
  | bindings :: rows =>
      match bindings[var]? with
      | none => throw (.deleteVariableMismatch var)
      | some (.edge _) => throw .deleteEdgeUnsupported
      | some (.node n) => do
          if detach then
            let _ ← callEngine (Engine.deleteNodeWithCascade P n.id)
          else
            let _ ← callEngine (Engine.deleteNode P n.id)
          deleteRows var detach rows

/-- `exec_match_delete`. -/
def execMatchDelete (patterns : List Pattern) (whereClause : Option Expr) (var : String)
    (detach : Bool) (params : Params) : InterpretM σ QueryResult := do
  let rows ← findMatchRows P patterns whereClause params none
  deleteRows P var detach rows
  pure .empty

/-- `execute`. -/
def execute (stmt : Statement) (params : Params) : InterpretM σ QueryResult :=
  match stmt with
  | .create pattern => execCreate P pattern params
  | .merge pattern => execMerge P pattern params
  | .matchReturn patterns whereClause returnItems orderBy limit =>
      execMatchReturn P patterns whereClause returnItems orderBy limit params
  | .matchDelete patterns whereClause var detach =>
      execMatchDelete P patterns whereClause var detach params

end Interpreter

/-- `QueryError`, which `Engine::query` wraps into an `EngineError`. -/
inductive QueryError where
  | parse (err : ParseError)
  | interpret (err : InterpretError)
deriving DecidableEq, Repr

/-- `Engine::query`. -/
def Engine.query {σ : Type} [Storage σ] (P : Platform) (cypher : String) (params : Params) :
    EStateM QueryError (Engine σ) QueryResult :=
  match Morceau.parse cypher with
  | .error err => throw (.parse err)
  | .ok stmt => (Interpreter.execute P stmt params).adaptExcept .interpret

end Morceau
