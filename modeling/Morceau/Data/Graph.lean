import Morceau.Data.Value

/-!
# Graph records, schemas and mutations

The records of `graph.rs`, `schema.rs` and `sync/mutation.rs`: nodes and edges with string ids, the
schema a controller pushes, and the `Mutation` that is both the unit of the on-disk log and the
message a controller receives.

`from` is a keyword of Lean, so the endpoints of an edge are `fromId` and `toId`.
-/

set_option autoImplicit false

namespace Morceau

/-! ## Nodes and edges -/

/-- `Properties`: property key to value. -/
abbrev Properties := BTreeMap String Value

/-- `Node` of `graph.rs`. -/
structure Node where
  id : String
  label : String
  properties : Properties
deriving DecidableEq

/-- `Edge` of `graph.rs`. -/
structure Edge where
  id : String
  label : String
  fromId : String
  toId : String
  properties : Properties
deriving DecidableEq

/-- `Node::new`. -/
def Node.new (id label : String) : Node := ⟨id, label, ∅⟩

/-- `Edge::new`. -/
def Edge.new (id label fromId toId : String) : Edge := ⟨id, label, fromId, toId, ∅⟩

/-! ## Schemas -/

/-- `TableKind`. -/
inductive TableKind where
  | node
  | edge
deriving DecidableEq, Repr

/-- `PropertyType`: the declared type of a property. -/
inductive PropertyType where
  | bool
  | i64
  | f64
  | string
  | timestamp
  | list
deriving DecidableEq, Repr

/-- `PropertyType::matches`: `Null` is accepted by every declared type. -/
def PropertyType.matches : PropertyType → Value → Bool
  | _, .null => true
  | .bool, .bool _ => true
  | .i64, .i64 _ => true
  | .f64, .f64 _ => true
  | .string, .string _ => true
  | .timestamp, .timestamp _ => true
  | .list, .list _ => true
  | _, _ => false

/-- `TableSchema`. -/
structure TableSchema where
  label : String
  kind : TableKind
  properties : BTreeMap String PropertyType
deriving DecidableEq

/-- `Schema`: a version and one table per declared label. -/
structure Schema where
  version : UInt64
  tables : BTreeMap String TableSchema
deriving DecidableEq

/-- `Schema::table`. -/
def Schema.table (s : Schema) (label : String) : Option TableSchema := s.tables[label]?

/-- `Schema::has_label`. -/
def Schema.hasLabel (s : Schema) (label : String) : Bool := s.tables.contains label

/-! ## Mutations -/

/-- `ActorId`: who produced a mutation. -/
structure ActorId where
  userId : String
  deviceId : String
deriving DecidableEq, Repr

/-- `MutationOp`: what a mutation does. -/
inductive MutationOp where
  | nodeInsert (n : Node)
  | edgeInsert (e : Edge)
  | nodeDelete (id : String)
  | edgeDelete (id : String)
  | schemaApply (s : Schema)
deriving DecidableEq

/-- `Mutation`: one committed operation. -/
structure Mutation where
  localSeq : UInt64
  actor : ActorId
  foreshadow : Bool
  op : MutationOp
deriving DecidableEq

end Morceau
