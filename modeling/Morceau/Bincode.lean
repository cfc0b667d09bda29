import Morceau.Record

/-!
# The payload codec

`bincode::serde::encode_to_vec` and `decode_from_slice` with `bincode::config::standard()`, at the
types the engine stores: fields in declaration order, a variant index in front of the payload of an
enumeration, sorted maps as sequences of entries. `bincode` is the resulting `Platform`, with
`sliceSort` for `slice::sort_by`; the round-trip law is proved from the laws of the wire formats it
is built from.
-/

set_option autoImplicit false

namespace Morceau

open Lib Lib.Wire

/-! ## Values -/

/-- A double is its eight bytes. -/
def f64Wire : Wire F64 := Wire.bits64.iso F64.mk F64.bits fun _ => rfl

mutual

/-- The bytes of a value. -/
def putValue : Value → Bytes
  | .null => putTag 0
  | .bool b => putTag 1 ++ Wire.bool.put b
  | .i64 i => putTag 2 ++ Wire.i64.put i
  | .f64 x => putTag 3 ++ f64Wire.put x
  | .string s => putTag 4 ++ Wire.string.put s
  | .timestamp i => putTag 5 ++ Wire.i64.put i
  | .list vs => putTag 6 ++ (putVarint vs.length ++ putValues vs)

/-- The bytes of the members of a list. -/
def putValues : List Value → Bytes
  | [] => []
  | v :: vs => putValue v ++ putValues vs

end

/-- Read a value. Each level of nesting takes bytes of its own, so the number of bytes bounds the
depth, and with no fuel left there are no bytes left. -/
def getValue : Nat → Bytes → Except DecodeError (Value × Bytes)
  | 0, _ => .error (.unexpectedEnd 1)
  | fuel + 1, bs => do
      let (tag, bs) ← getTag bs
      match tag with
      | 0 => pure (.null, bs)
      | 1 => Wire.bool.getAs .bool bs
      | 2 => Wire.i64.getAs .i64 bs
      | 3 => f64Wire.getAs .f64 bs
      | 4 => Wire.string.getAs .string bs
      | 5 => Wire.i64.getAs .timestamp bs
      | 6 => do
          let (n, bs) ← getVarint 8 bs
          let (vs, bs) ← getMany (getValue fuel) n bs
          pure (.list vs, bs)
      | _ => .error (.other "unknown variant")

theorem putValues_eq_flatMap (vs : List Value) : putValues vs = vs.flatMap putValue := by
  induction vs with
  | nil => rfl
  | cons v vs ih => rw [putValues, ih, List.flatMap_cons]

theorem one_le_length_putValue (v : Value) : 1 ≤ (putValue v).length := by
  have h : ∀ n, 1 ≤ (putTag n).length := one_le_length_putVarint
  cases v with
  | null => exact h 0
  | bool b => rw [putValue, List.length_append]; have := h 1; omega
  | i64 i => rw [putValue, List.length_append]; have := h 2; omega
  | f64 x => rw [putValue, List.length_append]; have := h 3; omega
  | string s => rw [putValue, List.length_append]; have := h 4; omega
  | timestamp i => rw [putValue, List.length_append]; have := h 5; omega
  | list vs => rw [putValue, List.length_append]; have := h 6; omega

/-- Reading a value that was written gives it back, with fuel for its bytes. -/
theorem getValue_putValue (fuel : Nat) :
    ∀ (v : Value) (rest : Bytes), (putValue v).length ≤ fuel → (putValue v).length < 2 ^ 64 →
      getValue fuel (putValue v ++ rest) = .ok (v, rest) := by
  induction fuel with
  | zero =>
      intro v rest hfuel _
      have := one_le_length_putValue v
      omega
  | succ fuel ih =>
      intro v rest hfuel hlen
      cases v with
      | null =>
          rw [putValue, getValue, getTag_bind (by omega)]
          rfl
      | bool b =>
          rw [putValue, List.length_append] at hlen
          rw [putValue, getValue, List.append_assoc, getTag_bind (by omega)]
          exact Wire.bool.getAs_put Value.bool (by omega) rest
      | i64 i =>
          rw [putValue, List.length_append] at hlen
          rw [putValue, getValue, List.append_assoc, getTag_bind (by omega)]
          exact Wire.i64.getAs_put Value.i64 (by omega) rest
      | f64 x =>
          rw [putValue, List.length_append] at hlen
          rw [putValue, getValue, List.append_assoc, getTag_bind (by omega)]
          exact f64Wire.getAs_put Value.f64 (by omega) rest
      | string s =>
          rw [putValue, List.length_append] at hlen
          rw [putValue, getValue, List.append_assoc, getTag_bind (by omega)]
          exact Wire.string.getAs_put Value.string (by omega) rest
      | timestamp i =>
          rw [putValue, List.length_append] at hlen
          rw [putValue, getValue, List.append_assoc, getTag_bind (by omega)]
          exact Wire.i64.getAs_put Value.timestamp (by omega) rest
      | list vs =>
          -- the elements are shorter than the list, so the fuel that is left is enough for them
          rw [putValue, putValues_eq_flatMap, List.length_append, List.length_append] at hlen hfuel
          have hvs := length_le_flatMap one_le_length_putValue vs
          have h1 := one_le_length_putVarint vs.length
          rw [putValue, putValues_eq_flatMap, getValue, List.append_assoc, getTag_bind (by omega)]
          show (getVarint 8 (putVarint vs.length ++ vs.flatMap putValue ++ rest) >>= _) = _
          rw [List.append_assoc, getVarint_putVarint (by omega)]
          show (getMany (getValue fuel) vs.length (vs.flatMap putValue ++ rest) >>= _) = _
          rw [getMany_flatMap vs fun v hv rest => ?_]
          · rfl
          · have hle := length_put_le_flatMap putValue hv
            exact ih v rest (by omega) (by omega)

/-- Values on the wire. -/
def valueWire : Wire Value where
  put := putValue
  get bs := getValue bs.length bs
  get_put v rest h := by
    refine getValue_putValue _ v rest ?_ h
    rw [List.length_append]
    omega

/-! ## Records -/

/-- `Node` on the wire. -/
def nodeWire : Wire Node :=
  (Wire.string.pair (Wire.string.pair valueWire.treeMap)).iso
    (fun p => ⟨p.1, p.2.1, p.2.2⟩) (fun n => (n.id, n.label, n.properties)) fun _ => rfl

/-- `Edge` on the wire. -/
def edgeWire : Wire Edge :=
  (Wire.string.pair
    (Wire.string.pair (Wire.string.pair (Wire.string.pair valueWire.treeMap)))).iso
    (fun p => ⟨p.1, p.2.1, p.2.2.1, p.2.2.2.1, p.2.2.2.2⟩)
    (fun d => (d.id, d.label, d.fromId, d.toId, d.properties)) fun _ => rfl

/-- The variant indexes of `TableKind`. -/
def TableKind.index : TableKind → Nat
  | .node => 0
  | .edge => 1

/-- The variant indexes of `PropertyType`. -/
def PropertyType.index : PropertyType → Nat
  | .bool => 0
  | .i64 => 1
  | .f64 => 2
  | .string => 3
  | .timestamp => 4
  | .list => 5

/-- An enumeration without payloads: the variant index alone. -/
def enumWire {α : Type} (variants : List α) (index : α → Nat)
    (h : ∀ a, index a < 251 ∧ variants[index a]? = some a) : Wire α where
  put a := putTag (index a)
  get bs := do
    let (tag, bs) ← getTag bs
    match variants[tag]? with
    | some a => pure (a, bs)
    | none => .error (.other "unknown variant")
  get_put a rest _ := by
    rw [getTag_putTag (h a).1]
    show (match variants[index a]? with
      | some a => (pure (a, rest) : Except DecodeError (α × List UInt8))
      | none => .error (.other "unknown variant")) = _
    rw [(h a).2]
    rfl

/-- `TableKind` on the wire. -/
def tableKindWire : Wire TableKind :=
  enumWire [.node, .edge] TableKind.index fun k => by
    cases k with
    | node => decide
    | edge => decide

/-- `PropertyType` on the wire. -/
def propertyTypeWire : Wire PropertyType :=
  enumWire [.bool, .i64, .f64, .string, .timestamp, .list] PropertyType.index fun t => by
    cases t with
    | bool => decide
    | i64 => decide
    | f64 => decide
    | string => decide
    | timestamp => decide
    | list => decide

/-- `TableSchema` on the wire. -/
def tableSchemaWire : Wire TableSchema :=
  (Wire.string.pair (tableKindWire.pair propertyTypeWire.treeMap)).iso
    (fun p => ⟨p.1, p.2.1, p.2.2⟩) (fun t => (t.label, t.kind, t.properties)) fun _ => rfl

/-- `Schema` on the wire. -/
def schemaWire : Wire Schema :=
  (Wire.u64.pair tableSchemaWire.treeMap).iso
    (fun p => ⟨p.1, p.2⟩) (fun s => (s.version, s.tables)) fun _ => rfl

/-! ## Mutations -/

/-- The bytes of an operation. -/
def putOp : MutationOp → Bytes
  | .nodeInsert n => putTag 0 ++ nodeWire.put n
  | .edgeInsert d => putTag 1 ++ edgeWire.put d
  | .nodeDelete id => putTag 2 ++ Wire.string.put id
  | .edgeDelete id => putTag 3 ++ Wire.string.put id
  | .schemaApply s => putTag 4 ++ schemaWire.put s

/-- Read an operation. -/
def getOp (bs : Bytes) : Except DecodeError (MutationOp × Bytes) := do
  let (tag, bs) ← getTag bs
  match tag with
  | 0 => nodeWire.getAs .nodeInsert bs
  | 1 => edgeWire.getAs .edgeInsert bs
  | 2 => Wire.string.getAs .nodeDelete bs
  | 3 => Wire.string.getAs .edgeDelete bs
  | 4 => schemaWire.getAs .schemaApply bs
  | _ => .error (.other "unknown variant")

/-- `MutationOp` on the wire. -/
def opWire : Wire MutationOp where
  put := putOp
  get := getOp
  get_put op rest h := by
    cases op with
    | nodeInsert n =>
        rw [putOp, List.length_append] at h
        rw [putOp, getOp, List.append_assoc, getTag_bind (by omega)]
        exact nodeWire.getAs_put MutationOp.nodeInsert (by omega) rest
    | edgeInsert d =>
        rw [putOp, List.length_append] at h
        rw [putOp, getOp, List.append_assoc, getTag_bind (by omega)]
        exact edgeWire.getAs_put MutationOp.edgeInsert (by omega) rest
    | nodeDelete id =>
        rw [putOp, List.length_append] at h
        rw [putOp, getOp, List.append_assoc, getTag_bind (by omega)]
        exact Wire.string.getAs_put MutationOp.nodeDelete (by omega) rest
    | edgeDelete id =>
        rw [putOp, List.length_append] at h
        rw [putOp, getOp, List.append_assoc, getTag_bind (by omega)]
        exact Wire.string.getAs_put MutationOp.edgeDelete (by omega) rest
    | schemaApply s =>
        rw [putOp, List.length_append] at h
        rw [putOp, getOp, List.append_assoc, getTag_bind (by omega)]
        exact schemaWire.getAs_put MutationOp.schemaApply (by omega) rest

/-- `Mutation` on the wire. -/
def mutationWire : Wire Mutation :=
  (Wire.u64.pair
    ((Wire.string.pair Wire.string).pair (Wire.bool.pair opWire))).iso
    (fun p => ⟨p.1, ⟨p.2.1.1, p.2.1.2⟩, p.2.2.1, p.2.2.2⟩)
    (fun m => (m.localSeq, (m.actor.userId, m.actor.deviceId), m.foreshadow, m.op)) fun _ => rfl

/-- The payload codec of the store, and the sort of the standard library. A payload that no address
space holds counts as one that does not encode; bytes after the mutation are ignored. -/
def bincode : Platform where
  encode m :=
    if (mutationWire.put m).length < 2 ^ 64 then .ok (mutationWire.put m)
    else .error (.other "payload too large")
  decode bs := do
    let (m, _) ← mutationWire.get bs
    pure m
  decode_encode {m b} h := by
    split at h
    · cases h
      have := mutationWire.get_put m [] (by assumption)
      rw [List.append_nil] at this
      rw [this]
      rfl
    · cases h
  sortBy := sliceSort
  perm_sortBy := sliceSort_perm
  sortBy_total := sliceSort_eq_mergeSort

/-- A node insert as it stands on disk: frame length, sequence number, actor, foreshadow flag,
variant, and the fields of the node. -/
example : encodeFramed bincode ⟨1, ⟨"u", "d"⟩, true, .nodeInsert (Node.new "a" "N")⟩ =
    .ok [12, 0, 0, 0, 1, 1, 117, 1, 100, 1, 0, 1, 97, 1, 78, 0] := by
  decide

end Morceau
