import Morceau.SchemaConformance
import Morceau.Query.FailedQueries
import Morceau.Query.Properties
import Morceau.Query.Pushdown
import Morceau.Query.Shaping

/-!
# Statements that fit the schema do not fail

The engine checks what it inserts against the schema in force; the interpreter checks nothing before
it runs a statement, and a value of the wrong type is an error on the row where it turns up. This
module relates the two. A typing of expressions (`Expr.HasType`) reads the types of properties off
the schema and the labels of the patterns, and a well-typed statement (`Statement.WellTyped`) never
runs into an error of the interpreter on a store whose live records conform to the schema.

Types are the property types of the schema, and every type includes `Null`. An expression of which
nothing is known (`none`), such as a property that the schema does not declare, can be compared for
equality and returned, but not ordered or negated. Two operands can be ordered if both are numbers
or both are strings: the interpreter does not order booleans, timestamps or lists. Rows can be
sorted by an expression of any one type but doubles, of which a NaN compares with nothing, and
lists.
-/

set_option autoImplicit false

namespace Morceau

open Lib LawfulStorage Interpreter

/-! ## Types -/

/-- The value is `Null` or of the type, if one is known. -/
def Value.Fits (v : Value) : Option PropertyType → Prop
  | none => True
  | some declared => v = .null ∨ v.typeOf = some declared

/-- The schema declares the property of the label, with the type. -/
def Schema.Declares (s : Schema) (label key : String) (declared : PropertyType) : Prop :=
  ∃ table, s.tables[label]? = some table ∧ table.properties[key]? = some declared

/-- A declared property of a record that conforms has the declared type, also when it is not there.
-/
theorem Schema.Conforms.fits {s : Schema} {label key : String} {properties : Properties}
    {declared : PropertyType} (h : s.Conforms label properties)
    (hdeclared : s.Declares label key declared) :
    ((properties[key]?).getD .null).Fits (some declared) := by
  obtain ⟨table, htable, hall⟩ := h
  obtain ⟨table', htable', hkey⟩ := hdeclared
  rw [htable] at htable'
  cases htable'
  cases hvalue : properties[key]? with
  | none => exact Or.inl rfl
  | some value => exact hall key declared value hkey hvalue

/-- The type is one of numbers. -/
def PropertyType.isNumber : PropertyType → Bool
  | .i64 => true
  | .f64 => true
  | _ => false

/-- The values of the type are totally ordered by the comparator of `ORDER BY`. -/
def PropertyType.isSortable : PropertyType → Bool
  | .f64 => false
  | .list => false
  | _ => true

/-- The kind of the values of the type. -/
def PropertyType.sortKind : PropertyType → SortKind
  | .bool => .bool
  | .i64 => .number
  | .f64 => .number
  | .string => .string
  | .timestamp => .timestamp
  | .list => .unordered

theorem sortKind_of_typeOf {type : PropertyType} (htype : type.isSortable = true) {v : Value}
    (h : v.typeOf = some type) : v.sortKind = type.sortKind := by
  cases v with
  | null => cases h
  | f64 x =>
      cases h
      cases htype
  | _ =>
      cases h
      rfl

/-- No key of such a type hides the order of two others. -/
theorem unbridged_of_fits {type : PropertyType} (htype : type.isSortable = true)
    {keys : List Value} (h : ∀ k ∈ keys, k.Fits (some type)) (dir : SortDirection) :
    Unbridged dir keys := by
  intro a ha b hb c _ _ hbridge
  have hkind : ∀ k ∈ keys, k ≠ .null → k.typeOf = some type :=
    fun k hk hnull => (h k hk).resolve_left hnull
  cases hbridge with
  | kind hna hnb _ hne =>
      exact hne ((sortKind_of_typeOf htype (hkind b hb hnb)).trans
        (sortKind_of_typeOf htype (hkind a ha hna)).symm)
  | rounded _ _ =>
      have htb := hkind _ hb (by simp)
      rw [Value.typeOf, Option.some.injEq] at htb
      rw [← htb] at htype
      cases htype

/-- The operator takes operands of these types. -/
inductive BinOp.Accepts : BinOp → Option PropertyType → Option PropertyType → Prop
  | and : Accepts .and (some .bool) (some .bool)
  | or : Accepts .or (some .bool) (some .bool)
  | eq (l r : Option PropertyType) : Accepts .eq l r
  | notEq (l r : Option PropertyType) : Accepts .notEq l r
  | numbers {op : BinOp} {l r : PropertyType} : op ∈ [.lt, .gt, .ltEq, .gtEq] →
      l.isNumber = true → r.isNumber = true → Accepts op (some l) (some r)
  | strings {op : BinOp} : op ∈ [.lt, .gt, .ltEq, .gtEq] →
      Accepts op (some .string) (some .string)

/-! ## Operators -/

theorem bool_of_fits {v : Value} (h : v.Fits (some .bool)) : v = .null ∨ ∃ b, v = .bool b := by
  rcases h with h | h
  · exact Or.inl h
  · cases v <;> first | exact Or.inr ⟨_, rfl⟩ | simp [Value.typeOf] at h

theorem string_of_fits {v : Value} (h : v.Fits (some .string)) :
    v = .null ∨ ∃ s, v = .string s := by
  rcases h with h | h
  · exact Or.inl h
  · cases v <;> first | exact Or.inr ⟨_, rfl⟩ | simp [Value.typeOf] at h

theorem number_of_fits {v : Value} {declared : PropertyType} (h : v.Fits (some declared))
    (hnum : declared.isNumber = true) : v = .null ∨ (∃ n, v = .i64 n) ∨ ∃ x, v = .f64 x := by
  rcases h with h | h
  · exact Or.inl h
  · cases declared <;> simp only [PropertyType.isNumber, Bool.false_eq_true] at hnum <;>
      cases v <;> simp [Value.typeOf] at h
    · exact Or.inr (Or.inl ⟨_, rfl⟩)
    · exact Or.inr (Or.inr ⟨_, rfl⟩)

theorem applyLogic_fits (name : String) (f : Bool → Bool → Bool) {l r : Value}
    (hl : l.Fits (some .bool)) (hr : r.Fits (some .bool)) :
    ∃ v, applyLogic name f l r = .ok v ∧ v.Fits (some .bool) := by
  rcases bool_of_fits hl with rfl | ⟨a, rfl⟩
  · exact ⟨.null, rfl, Or.inl rfl⟩
  · rcases bool_of_fits hr with rfl | ⟨b, rfl⟩
    · exact ⟨.null, rfl, Or.inl rfl⟩
    · exact ⟨.bool (f a b), rfl, Or.inr rfl⟩

theorem compareResult_fits (op : BinOp) (ord : Option Ordering) :
    (compareResult op ord).Fits (some .bool) := by
  cases ord with
  | none => exact Or.inl rfl
  | some ord => exact Or.inr rfl

/-- Two numbers compare, and so do two strings; a NaN gives `Null`. -/
theorem compareValues_numbers (op : BinOp) {l r : Value} {dl dr : PropertyType}
    (hl : l.Fits (some dl)) (hr : r.Fits (some dr)) (hdl : dl.isNumber = true)
    (hdr : dr.isNumber = true) :
    ∃ v, compareValues op l r = .ok v ∧ v.Fits (some .bool) := by
  rcases number_of_fits hl hdl with rfl | ⟨a, rfl⟩ | ⟨a, rfl⟩ <;>
    rcases number_of_fits hr hdr with rfl | ⟨b, rfl⟩ | ⟨b, rfl⟩ <;>
    first
      | exact ⟨_, rfl, compareResult_fits op _⟩
      | exact ⟨_, rfl, Or.inl rfl⟩

theorem compareValues_strings (op : BinOp) {l r : Value} (hl : l.Fits (some .string))
    (hr : r.Fits (some .string)) : ∃ v, compareValues op l r = .ok v ∧ v.Fits (some .bool) := by
  rcases string_of_fits hl with rfl | ⟨a, rfl⟩ <;> rcases string_of_fits hr with rfl | ⟨b, rfl⟩
  · exact ⟨_, rfl, Or.inl rfl⟩
  · exact ⟨_, rfl, Or.inl rfl⟩
  · exact ⟨_, rfl, Or.inl rfl⟩
  · exact ⟨_, rfl, compareResult_fits op _⟩

/-- A comparison operator compares. -/
theorem applyBinop_comparison {op : BinOp} (hop : op ∈ [.lt, .gt, .ltEq, .gtEq]) (l r : Value) :
    applyBinop op l r = compareValues op l r := by
  simp only [List.mem_cons, List.not_mem_nil, or_false] at hop
  rcases hop with rfl | rfl | rfl | rfl <;> rfl

/-- An operator on operands that it takes gives a boolean or `Null`. -/
theorem BinOp.Accepts.applies {op : BinOp} {dl dr : Option PropertyType} (h : op.Accepts dl dr)
    {l r : Value} (hl : l.Fits dl) (hr : r.Fits dr) :
    ∃ v, applyBinop op l r = .ok v ∧ v.Fits (some .bool) := by
  cases h with
  | and => exact applyLogic_fits "AND" _ hl hr
  | or => exact applyLogic_fits "OR" _ hl hr
  | eq => exact ⟨_, rfl, Or.inr rfl⟩
  | notEq => exact ⟨_, rfl, Or.inr rfl⟩
  | numbers hop hdl hdr =>
      rw [applyBinop_comparison hop]
      exact compareValues_numbers op hl hr hdl hdr
  | strings hop =>
      rw [applyBinop_comparison hop]
      exact compareValues_strings op hl hr

/-! ## Variables -/

/-- The node patterns of a pattern. -/
def Pattern.nodePatterns (p : Pattern) : List NodePattern := p.start :: p.hops.map Prod.snd

/-- The edge patterns of a pattern. -/
def Pattern.edgePatterns (p : Pattern) : List EdgePattern := p.hops.map Prod.fst

/-- The variables of the patterns. -/
def matchVars (patterns : List Pattern) : List String := patterns.flatMap Pattern.vars

/-- The variable stands for a node in one of the patterns, there with this label. -/
def NodeVar (patterns : List Pattern) (x : String) (label : Option String) : Prop :=
  ∃ p ∈ patterns, ∃ np ∈ p.nodePatterns, np.var = x ∧ np.label = label

/-- The variable stands for an edge in one of the patterns, there with this label. -/
def EdgeVar (patterns : List Pattern) (x : String) (label : Option String) : Prop :=
  ∃ p ∈ patterns, ∃ ep ∈ p.edgePatterns, ep.var = x ∧ ep.label = label

/-- The row binds the variables of the patterns to records that have the labels asked for and
conform to the schema. -/
structure TypedRow (s : Schema) (patterns : List Pattern) (row : Bindings) : Prop where
  bound : ∀ x ∈ matchVars patterns, ∃ b, row[x]? = some b
  node : ∀ x label, NodeVar patterns x label →
    ∃ n, row[x]? = some (.node n) ∧ LabelHolds label n.label ∧ s.Conforms n.label n.properties
  edge : ∀ x label, EdgeVar patterns x label →
    ∃ d, row[x]? = some (.edge d) ∧ LabelHolds label d.label ∧ s.Conforms d.label d.properties

section Patterns

variable {g : PropertyGraph} {params : Params} {row : Bindings}

theorem ChainHolds.nodeHolds {chain : List (EdgePattern × NodePattern)} :
    ∀ {prevVar : String}, ChainHolds g params row prevVar chain →
      ∀ np ∈ chain.map Prod.snd, NodeHolds g np row := by
  induction chain with
  | nil => exact fun _ np hnp => absurd hnp List.not_mem_nil
  | cons hop chain ih =>
      rintro prevVar ⟨⟨_, s, d, t, _, _, _, ht, hhop⟩, hchain⟩ np hnp
      rcases List.mem_cons.1 hnp with rfl | hnp
      · exact ⟨t, ht, hhop.target, hhop.targetLabel⟩
      · exact ih hchain np hnp

theorem ChainHolds.edgeHolds {chain : List (EdgePattern × NodePattern)} :
    ∀ {prevVar : String}, ChainHolds g params row prevVar chain →
      ∀ ep ∈ chain.map Prod.fst, ∃ d, row[ep.var]? = some (.edge d) ∧
        g.edges.lookup d.id = some d ∧ LabelHolds ep.label d.label := by
  induction chain with
  | nil => exact fun _ ep hep => absurd hep List.not_mem_nil
  | cons hop chain ih =>
      rintro prevVar ⟨⟨_, s, d, t, _, _, hd, _, hhop⟩, hchain⟩ ep hep
      rcases List.mem_cons.1 hep with rfl | hep
      · exact ⟨d, hd, hhop.edge, hhop.edgeLabel⟩
      · exact ih hchain ep hep

theorem PatternHolds.nodeHolds {p : Pattern} (h : PatternHolds g params p row) :
    ∀ np ∈ p.nodePatterns, NodeHolds g np row := by
  intro np hnp
  rcases List.mem_cons.1 hnp with rfl | hnp
  · exact h.1
  · exact h.2.nodeHolds np hnp

end Patterns

/-! ## Expressions -/

/-- A property path of a variable has the type. -/
inductive PathHasType (s : Schema) (patterns : List Pattern) :
    String → List String → Option PropertyType → Prop
  | any {x key : String} : x ∈ matchVars patterns → PathHasType s patterns x [key] none
  | node {x label key : String} {declared : PropertyType} : NodeVar patterns x (some label) →
      s.Declares label key declared → PathHasType s patterns x [key] (some declared)
  | edge {x label key : String} {declared : PropertyType} : EdgeVar patterns x (some label) →
      s.Declares label key declared → PathHasType s patterns x [key] (some declared)
  | foreshadow {x : String} {label : Option String} : NodeVar patterns x label →
      PathHasType s patterns x ["_morceau", "foreshadow"] (some .bool)
  | version {x : String} {label : Option String} : NodeVar patterns x label →
      PathHasType s patterns x ["_morceau", "schema", "version"] (some .i64)
  | metadata {x : String} {label : Option String} (rest : List String) :
      NodeVar patterns x label → PathHasType s patterns x ("_morceau" :: rest) none

/-- The expression has the type in every row of the patterns. -/
inductive Expr.HasType (s : Schema) (patterns : List Pattern) (params : Params) :
    Expr → Option PropertyType → Prop
  | literal {v : Value} {type : Option PropertyType} : v.Fits type →
      HasType s patterns params (.literal v) type
  | param {name : String} {v : Value} {type : Option PropertyType} : params[name]? = some v →
      v.Fits type → HasType s patterns params (.param name) type
  | idOf {x : String} : x ∈ matchVars patterns →
      HasType s patterns params (.idOf x) (some .string)
  | property {x : String} {path : List String} {type : Option PropertyType} :
      PathHasType s patterns x path type → HasType s patterns params (.property x path) type
  | not {inner : Expr} : HasType s patterns params inner (some .bool) →
      HasType s patterns params (.not inner) (some .bool)
  | binary {op : BinOp} {lhs rhs : Expr} {dl dr : Option PropertyType} :
      HasType s patterns params lhs dl → HasType s patterns params rhs dr → op.Accepts dl dr →
      HasType s patterns params (.binary op lhs rhs) (some .bool)

section Evaluation

variable {σ : Type} {e : Engine σ} {s : Schema} {patterns : List Pattern} {params : Params}
  {row : Bindings}

/-- A path that has a type resolves to a value of that type. -/
theorem PathHasType.resolves {x : String} {path : List String} {type : Option PropertyType}
    (h : PathHasType s patterns x path type) (hrow : TypedRow s patterns row) :
    ∃ v, resolvePropertyPath e row x path = .ok v ∧ v.Fits type := by
  cases h with
  | @any key hx =>
      obtain ⟨b, hb⟩ := hrow.bound x hx
      cases b with
      | node n => exact ⟨_, by rw [resolvePropertyPath, hb]; rfl, trivial⟩
      | edge d => exact ⟨_, by rw [resolvePropertyPath, hb]; rfl, trivial⟩
  | @node label key declared hx hdeclared =>
      obtain ⟨n, hn, hlabel, hconf⟩ := hrow.node x _ hx
      rw [hlabel label rfl] at hdeclared
      exact ⟨_, by rw [resolvePropertyPath, hn]; rfl, hconf.fits hdeclared⟩
  | @edge label key declared hx hdeclared =>
      obtain ⟨d, hd, hlabel, hconf⟩ := hrow.edge x _ hx
      rw [hlabel label rfl] at hdeclared
      exact ⟨_, by rw [resolvePropertyPath, hd]; rfl, hconf.fits hdeclared⟩
  | foreshadow hx =>
      obtain ⟨n, hn, -, -⟩ := hrow.node x _ hx
      exact ⟨.bool (e.isForeshadow n.id), by rw [resolvePropertyPath, hn]; rfl, Or.inr rfl⟩
  | version hx =>
      obtain ⟨n, hn, -, -⟩ := hrow.node x _ hx
      refine ⟨morceauMetadata e n ["schema", "version"], by rw [resolvePropertyPath, hn]; rfl, ?_⟩
      -- the version of the schema in force, if there is one
      rw [morceauMetadata]
      cases e.currentSchema with
      | none => exact Or.inl rfl
      | some s' => exact Or.inr rfl
  | metadata rest hx =>
      obtain ⟨n, hn, -, -⟩ := hrow.node x _ hx
      cases rest with
      -- a single segment is a property of the node, whatever its name
      | nil => exact ⟨_, by rw [resolvePropertyPath, hn]; rfl, trivial⟩
      | cons seg rest => exact ⟨_, by rw [resolvePropertyPath, hn]; rfl, trivial⟩

/-- An expression that has a type evaluates to a value of that type. -/
theorem Expr.HasType.evaluates {expr : Expr} {type : Option PropertyType}
    (h : expr.HasType s patterns params type) (hrow : TypedRow s patterns row) :
    ∃ v, evalExpr e row params expr = .ok v ∧ v.Fits type := by
  induction h with
  | literal hv => exact ⟨_, rfl, hv⟩
  | param hname hv => exact ⟨_, by rw [evalExpr, hname], hv⟩
  | @idOf x hx =>
      obtain ⟨b, hb⟩ := hrow.bound x hx
      exact ⟨.string b.id, by rw [evalExpr, hb], Or.inr rfl⟩
  | property hpath => exact hpath.resolves hrow
  | not _ ih =>
      obtain ⟨v, hv, hfits⟩ := ih
      rcases bool_of_fits hfits with rfl | ⟨b, rfl⟩
      · exact ⟨.null, exceptBind_eq_ok_iff.2 ⟨_, hv, rfl⟩, Or.inl rfl⟩
      · exact ⟨.bool (!b), exceptBind_eq_ok_iff.2 ⟨_, hv, rfl⟩, Or.inr rfl⟩
  | binary _ _ hop ihl ihr =>
      obtain ⟨l, hl, hfl⟩ := ihl
      obtain ⟨r, hr, hfr⟩ := ihr
      obtain ⟨v, hv, hfits⟩ := hop.applies hfl hfr
      exact ⟨v, exceptBind_eq_ok_iff.2 ⟨l, hl, exceptBind_eq_ok_iff.2 ⟨r, hr, hv⟩⟩, hfits⟩

/-- A condition of boolean type is decided. -/
theorem Expr.HasType.decides {whereClause : Option Expr}
    (h : ∀ expr, whereClause = some expr → expr.HasType s patterns params (some .bool))
    (hrow : TypedRow s patterns row) : ∃ b, evalPredicate e row params whereClause = .ok b := by
  cases whereClause with
  | none => exact ⟨true, rfl⟩
  | some expr =>
      obtain ⟨v, hv, hfits⟩ := (h expr rfl).evaluates (e := e) hrow
      rcases bool_of_fits hfits with rfl | ⟨b, rfl⟩
      · exact ⟨false, exceptBind_eq_ok_iff.2 ⟨_, hv, rfl⟩⟩
      · exact ⟨b, exceptBind_eq_ok_iff.2 ⟨_, hv, rfl⟩⟩

end Evaluation

/-! ## Columns -/

/-- What a column holds. -/
inductive CellType where
  | node
  | edge
  | value (type : Option PropertyType)

/-- The cell is one of the column. -/
inductive ResultCell.Fits : ResultCell → CellType → Prop
  | node (n : Node) : Fits (.node n) .node
  | edge (d : Edge) : Fits (.edge d) .edge
  | value {v : Value} {type : Option PropertyType} : v.Fits type → Fits (.value v) (.value type)

/-- The item gives a column of the type. -/
inductive ReturnItem.HasType (s : Schema) (patterns : List Pattern) : ReturnItem → CellType → Prop
  | node {x : String} {label : Option String} : NodeVar patterns x label →
      HasType s patterns (.var x) .node
  | edge {x : String} {label : Option String} : EdgeVar patterns x label →
      HasType s patterns (.var x) .edge
  | property {x : String} {path : List String} {type : Option PropertyType} :
      PathHasType s patterns x path type → HasType s patterns (.property x path) (.value type)
  | count (target : Option String) : HasType s patterns (.count target) (.value (some .i64))
  | collectVar {x : String} : x ∈ matchVars patterns →
      HasType s patterns (.collect (.var x)) (.value (some .list))
  | collectProperty {x : String} {path : List String} {type : Option PropertyType} :
      PathHasType s patterns x path type →
      HasType s patterns (.collect (.property x path)) (.value (some .list))

section Cells

variable {σ : Type} {e : Engine σ} {s : Schema} {patterns : List Pattern} {row : Bindings}
  {rows : List Bindings} {item : ReturnItem} {type : CellType}

theorem ReturnItem.HasType.projects (h : item.HasType s patterns type)
    (hitem : isAggregate item = false) (hrow : TypedRow s patterns row) :
    ∃ cell, project e row item = .ok cell ∧ cell.Fits type := by
  cases h with
  | @node x label hx =>
      obtain ⟨n, hn, -, -⟩ := hrow.node x label hx
      exact ⟨.node n, by rw [project, hn], .node n⟩
  | @edge x label hx =>
      obtain ⟨d, hd, -, -⟩ := hrow.edge x label hx
      exact ⟨.edge d, by rw [project, hd], .edge d⟩
  | property hpath =>
      obtain ⟨v, hv, hfits⟩ := hpath.resolves (e := e) hrow
      exact ⟨.value v, exceptBind_eq_ok_iff.2 ⟨v, hv, rfl⟩, .value hfits⟩
  | count target => cases hitem
  | collectVar => cases hitem
  | collectProperty => cases hitem

/-- A list of cells, one for each row, that is a value. -/
theorem aggregateCell_collect {target : CollectTarget}
    (h : ∀ row ∈ rows, ∃ v, collectOne e row target = .ok v) :
    ∃ cell, aggregateCell e rows (.collect target) = .ok cell ∧
      cell.Fits (.value (some .list)) := by
  obtain ⟨list, hlist⟩ := mapM_succeeds h
  exact ⟨.value (.list list), exceptBind_eq_ok_iff.2 ⟨list, hlist, rfl⟩, .value (Or.inr rfl)⟩

theorem ReturnItem.HasType.aggregates (h : item.HasType s patterns type)
    (hitem : isAggregate item = true) (hrows : ∀ row ∈ rows, TypedRow s patterns row) :
    ∃ cell, aggregateCell e rows item = .ok cell ∧ cell.Fits type := by
  cases h with
  | node => cases hitem
  | edge => cases hitem
  | property => cases hitem
  | count target => exact ⟨_, rfl, .value (Or.inr rfl)⟩
  | @collectVar x hx =>
      refine aggregateCell_collect fun row hrow => ?_
      obtain ⟨b, hb⟩ := (hrows row hrow).bound x hx
      exact ⟨.string b.id, by rw [collectOne, hb]⟩
  | collectProperty hpath =>
      refine aggregateCell_collect fun row hrow => ?_
      obtain ⟨v, hv, -⟩ := hpath.resolves (e := e) (hrows row hrow)
      exact ⟨v, hv⟩

/-- Cells for all the columns, from a cell for each. -/
theorem cells_of_columns {f : ReturnItem → Except InterpretError ResultCell}
    {items : List ReturnItem} {types : List CellType}
    (htypes : List.Forall₂ (ReturnItem.HasType s patterns) items types)
    (hcell : ∀ item ∈ items, ∀ type, item.HasType s patterns type →
      ∃ cell, f item = .ok cell ∧ cell.Fits type) :
    ∃ cells, items.mapM f = .ok cells ∧ List.Forall₂ ResultCell.Fits cells types := by
  induction htypes with
  | nil => exact ⟨[], rfl, .nil⟩
  | @cons item type items types hitem _ ih =>
      obtain ⟨cell, hok, hfits⟩ := hcell item List.mem_cons_self type hitem
      obtain ⟨cells, hcells, hall⟩ := ih fun item' hmem => hcell item' (List.mem_cons_of_mem _ hmem)
      exact ⟨cell :: cells, mapM_eq_ok_iff.2 (.cons hok (mapM_eq_ok_iff.1 hcells)),
        .cons hfits hall⟩

/-- The projection succeeds, with a cell of its type in every column of every row. -/
theorem projectedRows_typed {items : List ReturnItem} {types : List CellType}
    (htypes : List.Forall₂ (ReturnItem.HasType s patterns) items types)
    (hmix : items.all isAggregate = true ∨ items.any isAggregate = false)
    (hrows : ∀ row ∈ rows, TypedRow s patterns row) (limit : Option Nat) :
    ∃ out, projectedRows e items limit rows = .ok out ∧
      ∀ cells ∈ out, List.Forall₂ ResultCell.Fits cells types := by
  rw [projectedRows]
  split
  · rename_i hany
    -- one row of aggregates; the other case would mix them with plain columns
    have hall : ∀ item ∈ items, isAggregate item = true := by
      rcases hmix with hall | hnone
      · exact List.all_eq_true.1 hall
      · rw [hnone] at hany
        cases hany
    obtain ⟨cells, hcells, hfits⟩ := cells_of_columns (f := aggregateCell e rows) htypes
      fun item hitem type htype => htype.aggregates (hall item hitem) hrows
    refine ⟨[cells], ?_, fun cells' hmem => ?_⟩
    · rw [projectAggregateRow_eq]
      exact exceptBind_eq_ok_iff.2 ⟨cells, hcells, rfl⟩
    · rw [List.mem_singleton.1 hmem]
      exact hfits
  · rename_i hany
    have hplain : ∀ item ∈ items, isAggregate item = false := by
      intro item hitem
      by_contra hagg
      exact hany (List.any_eq_true.2 ⟨item, hitem, by simpa using hagg⟩)
    have hrow : ∀ row ∈ rows, ∃ cells, items.mapM (project e row) = .ok cells ∧
        List.Forall₂ ResultCell.Fits cells types := fun row hmem =>
      cells_of_columns htypes fun item hitem type htype =>
        htype.projects (hplain item hitem) (hrows row hmem)
    obtain ⟨out, hout⟩ : ∃ out, projectRows e items none 0 rows = .ok out := by
      rw [projectRows_eq_collectLoop]
      refine collectLoop_succeeds 0 fun row hmem => ?_
      obtain ⟨cells, hcells, -⟩ := hrow row hmem
      exact ⟨some cells, exceptBind_eq_ok_iff.2 ⟨cells, hcells, rfl⟩⟩
    have hfits : ∀ cells ∈ out, List.Forall₂ ResultCell.Fits cells types := by
      intro cells hcells
      rw [projectRows_eq_collectLoop] at hout
      obtain ⟨row, hmem, hproj⟩ := (mem_collectLoop hout).1 hcells
      obtain ⟨cells', hcells', hsome⟩ := exceptBind_eq_ok_iff.1 hproj
      cases hsome
      obtain ⟨cells', hok, hall⟩ := hrow row hmem
      rw [hok] at hcells'
      cases hcells'
      exact hall
    cases limit with
    | none => exact ⟨out, hout, hfits⟩
    | some l =>
        refine ⟨_, projectRows_limit l hout, fun cells hmem => ?_⟩
        exact hfits cells (List.mem_of_mem_take hmem)

end Cells

/-! ## Statements -/

/-- The patterns and the condition of a statement fit the schema. -/
structure WellTypedMatch (s : Schema) (params : Params) (patterns : List Pattern)
    (whereClause : Option Expr) : Prop where
  named : WellNamed patterns
  inline : ∀ p ∈ patterns, ∀ hop ∈ p.hops, ∀ (k : String) (c : Expr),
    hop.1.properties[k]? = some c → ∃ v, evalConst params c = .ok v
  pushable : ∀ p ∈ patterns, Pushable params p.start.var whereClause
  condition : ∀ expr, whereClause = some expr → expr.HasType s patterns params (some .bool)

/-- The statement fits the schema. -/
inductive Statement.WellTyped (s : Schema) (params : Params) : Statement → Prop
  | create {pattern : NodePattern} {label id : String} {props : BTreeMap String Value} :
      nodeParts pattern params = .ok (label, props, id) →
      s.Conforms label (nodeOfParts label props id).properties →
      WellTyped s params (.create pattern)
  | merge {pattern : NodePattern} {label id : String} {props : BTreeMap String Value} :
      nodeParts pattern params = .ok (label, props, id) →
      s.Conforms label (nodeOfParts label props id).properties →
      WellTyped s params (.merge pattern)
  | matchReturn {patterns : List Pattern} {whereClause : Option Expr} {items : List ReturnItem}
      {types : List CellType} {orderBy : Option OrderBy} (limit : Option Nat) :
      WellTypedMatch s params patterns whereClause →
      List.Forall₂ (ReturnItem.HasType s patterns) items types →
      items.all isAggregate = true ∨ items.any isAggregate = false →
      (∀ order, orderBy = some order → ∃ type : PropertyType, type.isSortable = true ∧
        order.expr.HasType s patterns params (some type)) →
      WellTyped s params (.matchReturn patterns whereClause items orderBy limit)
  | matchDelete {patterns : List Pattern} {whereClause : Option Expr} {x : String}
      {label : Option String} (detach : Bool) : WellTypedMatch s params patterns whereClause →
      NodeVar patterns x label → WellTyped s params (.matchDelete patterns whereClause x detach)

section Joins

variable {S : Snapshot} {params : Params} {whereClause : Option Expr} {patterns : List Pattern}

/-- The hops of a path can be walked if their inline properties are constants. -/
theorem Snapshot.walk_succeeds {chain : List (EdgePattern × NodePattern)}
    (h : ∀ hop ∈ chain, ∃ props, evalPropertyMap hop.1.properties params = .ok props) :
    ∀ (prevVar : String) (rows : List Bindings),
      ∃ out, S.walk params prevVar chain rows = .ok out := by
  induction chain with
  | nil => exact fun _ rows => ⟨rows, rfl⟩
  | cons hop chain ih =>
      intro prevVar rows
      obtain ⟨props, hprops⟩ := h hop List.mem_cons_self
      obtain ⟨out, hout⟩ := ih (fun hop' hmem => h hop' (List.mem_cons_of_mem hop hmem)) hop.2.var
        (rows.flatMap (S.hopRows prevVar hop.1 hop.2 props))
      exact ⟨out, exceptBind_eq_ok_iff.2 ⟨props, hprops, hout⟩⟩

theorem Snapshot.join_succeeds
    (hcands : ∀ p ∈ patterns, ∃ cands, S.candidates whereClause params p = .ok cands) :
    ∀ rows : List Bindings, ∃ out, S.join whereClause params patterns rows = .ok out := by
  induction patterns with
  | nil => exact fun rows => ⟨rows, rfl⟩
  | cons p patterns ih =>
      intro rows
      obtain ⟨cands, hp⟩ := hcands p List.mem_cons_self
      rw [Snapshot.join_cons hp]
      split
      · exact ⟨[], rfl⟩
      · exact ih (fun q hq => hcands q (List.mem_cons_of_mem p hq)) _

end Joins

/-! ## Live records -/

/-- The schema is the one in force, and every live record conforms to it. -/
structure TypedGraph (s : Schema) (g : PropertyGraph) : Prop where
  schema : g.schema = some s
  nodes : ∀ id n, g.nodes.lookup id = some n → s.Conforms n.label n.properties
  edges : ∀ id d, g.edges.lookup id = some d → s.Conforms d.label d.properties

/-- A record that conforms, and is not a push of a schema, keeps every live record conforming. -/
theorem TypedGraph.apply {s : Schema} {g : PropertyGraph} (h : TypedGraph s g) {op : MutationOp}
    (hop : Conforming g op) (hpush : op.pushedSchema = none) : TypedGraph s (g.apply op) := by
  cases op with
  | nodeInsert n =>
      refine ⟨h.schema, fun id n' hn' => ?_, h.edges⟩
      rcases eq_or_ne id n.id with rfl | hid
      · rw [PropertyGraph.apply, Finmap.lookup_insert] at hn'
        cases hn'
        exact hop _ _ s rfl h.schema
      · rw [PropertyGraph.apply, Finmap.lookup_insert_of_ne _ hid] at hn'
        exact h.nodes id n' hn'
  | edgeInsert d =>
      refine ⟨h.schema, h.nodes, fun id d' hd' => ?_⟩
      rcases eq_or_ne id d.id with rfl | hid
      · rw [PropertyGraph.apply, Finmap.lookup_insert] at hd'
        cases hd'
        exact hop _ _ s rfl h.schema
      · rw [PropertyGraph.apply, Finmap.lookup_insert_of_ne _ hid] at hd'
        exact h.edges id d' hd'
  | nodeDelete i =>
      refine ⟨h.schema, fun id n hn => ?_, h.edges⟩
      rcases eq_or_ne id i with rfl | hid
      · rw [PropertyGraph.apply, Finmap.lookup_erase] at hn
        cases hn
      · rw [PropertyGraph.apply, Finmap.lookup_erase_ne hid] at hn
        exact h.nodes id n hn
  | edgeDelete i =>
      refine ⟨h.schema, h.nodes, fun id d hd => ?_⟩
      rcases eq_or_ne id i with rfl | hid
      · rw [PropertyGraph.apply, Finmap.lookup_erase] at hd
        cases hd
      · rw [PropertyGraph.apply, Finmap.lookup_erase_ne hid] at hd
        exact h.edges id d hd
  | schemaApply s' => cases hpush

/-- A schema that was pushed on a graph without live records is one that every live record conforms
to, until the next push. -/
theorem typedGraph_of_log {log pre post : List Mutation} {m : Mutation} {s : Schema}
    (hlog : GuardedLog Conforming log) (hsplit : log = pre ++ m :: post)
    (hm : m.op = .schemaApply s) (hnodes : (PropertyGraph.ofLog pre).nodes = ∅)
    (hedges : (PropertyGraph.ofLog pre).edges = ∅)
    (hpost : ∀ m' ∈ post, m'.op.pushedSchema = none) :
    TypedGraph s (PropertyGraph.ofLog log) := by
  subst hsplit
  -- on the last record after the push
  induction post using List.reverseRecOn with
  | nil =>
      rw [PropertyGraph.ofLog_snoc, hm]
      refine ⟨rfl, fun id n hn => ?_, fun id d hd => ?_⟩
      · rw [PropertyGraph.apply, hnodes, Finmap.lookup_empty] at hn
        cases hn
      · rw [PropertyGraph.apply, hedges, Finmap.lookup_empty] at hd
        cases hd
  | append_singleton post m' ih =>
      rw [← List.cons_append, ← List.append_assoc] at hlog ⊢
      obtain ⟨hpre, hlast⟩ := guardedLog_snoc.1 hlog
      rw [PropertyGraph.ofLog_snoc]
      exact (ih (fun m'' hmem => hpost m'' (List.mem_append_left _ hmem)) hpre).apply hlast
        (hpost m' (by simp))

/-! ## Soundness -/

section Soundness

variable {σ : Type} [LawfulStorage σ] {P : Platform} {e : Engine σ} {log : List Mutation}
  {s : Schema} {params : Params} {patterns : List Pattern} {whereClause : Option Expr}

/-- A row that satisfies the patterns binds their variables to records that conform. -/
theorem TypedGraph.typedRow {g : PropertyGraph} (hg : TypedGraph s g) {row : Bindings}
    (hbinds : Binds row (matchVars patterns))
    (hrow : ∀ p ∈ patterns, PatternHolds g params p row) : TypedRow s patterns row where
  bound _ hx := hbinds.exists_of_mem hx
  node := by
    rintro x label ⟨p, hp, np, hnp, rfl, rfl⟩
    obtain ⟨n, hn, hlive, hlabel⟩ := (hrow p hp).nodeHolds np hnp
    exact ⟨n, hn, hlabel, hg.nodes _ n hlive⟩
  edge := by
    rintro x label ⟨p, hp, ep, hep, rfl, rfl⟩
    obtain ⟨d, hd, hlive, hlabel⟩ := (hrow p hp).2.edgeHolds ep hep
    exact ⟨d, hd, hlabel, hg.edges _ d hlive⟩

/-- The match succeeds, with rows that are typed. -/
theorem WellTypedMatch.matchRows (h : WellTypedMatch s params patterns whereClause)
    (hcore : Core P e log) (hg : TypedGraph s (PropertyGraph.ofLog log)) (limit : Option Nat) :
    ∃ rows, (e.snapshot (PropertyGraph.ofLog log)).matchRows e patterns whereClause params limit =
        .ok rows ∧ ∀ row ∈ rows, TypedRow s patterns row := by
  obtain ⟨joined, hjoined⟩ : ∃ joined,
      (e.snapshot (PropertyGraph.ofLog log)).join whereClause params patterns [∅] = .ok joined := by
    refine Snapshot.join_succeeds (fun p hp => ?_) _
    obtain ⟨found, hfound⟩ := pushable_iff.1 (h.pushable p hp)
    obtain ⟨out, hout⟩ := Snapshot.walk_succeeds
      (fun hop hmem => evalPropertyMap_succeeds _ params (h.inline p hp hop hmem)) p.start.var
      ((e.snapshot (PropertyGraph.ofLog log)).startRows p.start found)
    exact ⟨out, exceptBind_eq_ok_iff.2 ⟨found, hfound, hout⟩⟩
  have hstart : ListsExactly (fun r => Binds r ([].flatMap Pattern.vars) ∧
      Joined (PropertyGraph.ofLog log) params whereClause [] r) [(∅ : Bindings)] :=
    ⟨by simp, fun r => by simp [Joined, binds_nil]⟩
  have hlists := hcore.faithful.join_lists [] h.named hstart hjoined
  have htyped : ∀ row ∈ joined, TypedRow s patterns row := by
    intro row hmem
    obtain ⟨hbinds, hall⟩ := (hlists.2 row).1 hmem
    exact hg.typedRow hbinds fun p hp => (hall p hp).1
  obtain ⟨rows, hrows⟩ := filterRows_succeeds
    (fun row hmem => Expr.HasType.decides (e := e) h.condition (htyped row hmem)) limit
  refine ⟨rows, exceptBind_eq_ok_iff.2 ⟨joined, hjoined, hrows⟩, fun row hmem => ?_⟩
  exact htyped row ((filterRows_ok hrows).1.subset hmem)

omit [LawfulStorage σ] in
/-- Rows can be sorted by an expression of a sortable type. -/
theorem orderedRows_typed {orderBy : Option OrderBy}
    (h : ∀ order, orderBy = some order → ∃ type : PropertyType, type.isSortable = true ∧
      order.expr.HasType s patterns params (some type))
    {rows : List Bindings} (hrows : ∀ row ∈ rows, TypedRow s patterns row) :
    ∃ out, orderedRows P e orderBy params rows = .ok out ∧
      ∀ row ∈ out, TypedRow s patterns row := by
  cases orderBy with
  | none => exact ⟨rows, rfl, hrows⟩
  | some order =>
      obtain ⟨type, hsortable, htype⟩ := h order rfl
      have hkeys : ∀ row ∈ rows, ∃ v, evalExpr e row params order.expr = .ok v ∧
          v.Fits (some type) := fun row hmem => htype.evaluates (hrows row hmem)
      have horderable : Orderable e params order rows := by
        intro keys hmap
        refine unbridged_of_fits hsortable (fun k hk => ?_) _
        obtain ⟨row, hmem, hk⟩ := mem_mapM hmap k hk
        obtain ⟨v, hv, hfits⟩ := hkeys row hmem
        cases hk.symm.trans hv
        exact hfits
      have hevaluates : ∀ row ∈ rows, ∃ v, evalExpr e row params order.expr = .ok v := by
        intro row hmem
        obtain ⟨v, hv, -⟩ := hkeys row hmem
        exact ⟨v, hv⟩
      obtain ⟨out, hout⟩ := sortRows_succeeds (P := P) hevaluates horderable
      exact ⟨out, hout, fun row hmem => hrows row ((perm_of_sortRows hout).mem_iff.1 hmem)⟩

/-- `MATCH ... RETURN` succeeds, with a cell of its type in every column of every row. -/
theorem WellTypedMatch.returns (h : WellTypedMatch s params patterns whereClause)
    (hcore : Core P e log) (hg : TypedGraph s (PropertyGraph.ofLog log)) {items : List ReturnItem}
    {types : List CellType} (htypes : List.Forall₂ (ReturnItem.HasType s patterns) items types)
    (hmix : items.all isAggregate = true ∨ items.any isAggregate = false)
    {orderBy : Option OrderBy}
    (horder : ∀ order, orderBy = some order → ∃ type : PropertyType, type.isSortable = true ∧
      order.expr.HasType s patterns params (some type)) (limit : Option Nat) :
    ∃ q e', execMatchReturn P patterns whereClause items orderBy limit params e = .ok q e' ∧
      ∀ cells ∈ q.rows, List.Forall₂ ResultCell.Fits cells types := by
  obtain ⟨rows, hrows, htyped⟩ := h.matchRows hcore hg (inlineLimit items orderBy limit)
  obtain ⟨ordered, hordered, htyped⟩ := orderedRows_typed (P := P) (e := e) horder htyped
  obtain ⟨out, hout, hfits⟩ := projectedRows_typed (e := e) htypes hmix htyped limit
  have heval := hcore.backed.execMatchReturn params whereClause patterns items orderBy limit
  have hok : (e.snapshot (PropertyGraph.ofLog log)).matchReturn P e patterns whereClause items
      orderBy limit params = .ok ⟨items.map returnItemColumnName, out⟩ :=
    Snapshot.matchReturn_eq_ok_iff.2 ⟨rows, ordered, hrows, hordered, hout, rfl⟩
  obtain ⟨e', hok⟩ := heval.ok_iff.2 hok
  exact ⟨_, e', hok, hfits⟩

/-- `MATCH ... DELETE` of a node variable is not refused. -/
theorem WellTypedMatch.deletes (h : WellTypedMatch s params patterns whereClause)
    (hcore : Core P e log) (hg : TypedGraph s (PropertyGraph.ofLog log)) {x : String}
    {label : Option String} (hx : NodeVar patterns x label) (detach : Bool) {err : InterpretError}
    {e' : Engine σ}
    (hr : execMatchDelete P patterns whereClause x detach params e = .error err e') :
    err.fault ≠ .refusal := by
  obtain ⟨rows, hrows, htyped⟩ := h.matchRows hcore hg none
  obtain ⟨e₁, hq, hfind⟩ := hcore.backed.findMatchRows params whereClause patterns none
  rw [hrows] at hfind
  rw [execMatchDelete, bind_of_ok hfind] at hr
  have hkinds : ∀ row ∈ rows, kindAt row x = some true := by
    intro row hmem
    obtain ⟨n, hn, -, -⟩ := (htyped row hmem).node x label hx
    rw [kindAt, hn]
    rfl
  rcases bind_eq_error_iff.1 hr with hr | ⟨_, _, _, hr⟩
  · exact NeverRefuses.deleteRows detach hkinds e₁ log (hcore.quiet hq) err e' hr
  · cases hr

/-- An insert of a new node that conforms is not refused. -/
theorem Core.insertNode_admitted (hcore : Core P e log)
    (hg : TypedGraph s (PropertyGraph.ofLog log)) {node : Node}
    (hconf : s.Conforms node.label node.properties) (hid : e.hasNode node.id = false)
    {err : InterpretError} {e' : Engine σ}
    (hr : (do
      callEngine (Engine.insertNode P node)
      pure QueryResult.empty : InterpretM σ QueryResult) e = .error err e') :
    err.fault ≠ .refusal := by
  rcases bind_eq_error_iff.1 hr with hr | ⟨_, _, _, hr⟩
  · obtain ⟨cause, hcause, rfl⟩ := adaptExcept_eq_error_iff.1 hr
    rw [insertNode_eq, nodeChecks_eq hid] at hcause
    rcases schemaChecks_cases node.label node.properties e with ⟨hok, -⟩ | ⟨s', c, -, hs', href⟩
    · rw [hok] at hcause
      have hfresh : ∀ e : Engine σ, Fresh e (.nodeInsert node) := fun _ => trivial
      exact NeverRefuses.commitOp hfresh e log hcore cause e' hcause
    · -- the schema in memory is the one that the node conforms to
      have hsame : s' = s :=
        Option.some.inj (hs'.symm.trans (hcore.consistent.schema.trans hg.schema))
      exact absurd (hsame ▸ hconf) href.not_conforms
  · cases hr

/-- A well-typed statement is not refused, unless it creates a node that is there. -/
theorem Statement.WellTyped.not_refused {stmt : Statement} (h : stmt.WellTyped s params)
    (hcore : Core P e log) (hg : TypedGraph s (PropertyGraph.ofLog log)) {err : InterpretError}
    {e' : Engine σ} (hr : execute P stmt params e = .error err e') (herr : err.fault = .refusal) :
    ∃ pattern label props id, stmt = .create pattern ∧
      nodeParts pattern params = .ok (label, props, id) ∧ e.hasNode id = true := by
  cases h with
  | @create pattern label id props hparts hconf =>
      cases hid : e.hasNode id with
      | true => exact ⟨pattern, label, props, id, rfl, hparts, hid⟩
      | false =>
          rw [execute, execCreate, bind_of_ok (look_eq_ok_iff.2 ⟨hparts, rfl⟩)] at hr
          exact absurd herr (hcore.insertNode_admitted hg hconf hid hr)
  | @merge pattern label id props hparts hconf =>
      rw [execute, execMerge, bind_of_ok (look_eq_ok_iff.2 ⟨hparts, rfl⟩)] at hr
      dsimp only at hr
      rw [bind_of_ok (get_apply e)] at hr
      cases hid : e.hasNode id with
      -- a node that is there is left alone
      | true =>
          rw [if_pos hid] at hr
          cases hr
      | false =>
          rw [if_neg (by simp [hid])] at hr
          exact absurd herr (hcore.insertNode_admitted hg hconf hid hr)
  | matchReturn limit hmatch htypes hmix horder =>
      obtain ⟨q, e₁, hok, -⟩ := hmatch.returns hcore hg htypes hmix horder limit
      rw [execute, hok] at hr
      cases hr
  | matchDelete detach hmatch hx => exact absurd herr (hmatch.deletes hcore hg hx detach hr)

/-- Statements that fit the schema do not fail. Take any store that calls, with any outcome, wirings
and crashes reach, whose log has a push of a schema `s` on a graph without live records and no push
after it. A statement that is well typed for `s` succeeds on it if the appends do, and what it
returns in each column is of the type of the column, except that `CREATE` of an id that is there is
refused. -/
theorem well_typed_statements_succeed (h : ReachBy P (fun _ => True) e)
    {pre post : List Mutation} {m : Mutation} (henc : ∀ m' ∈ pre ++ m :: post, P.Encodable m')
    (hstore : contents e.storage = header ++ encodeLog P (pre ++ m :: post))
    (hm : m.op = .schemaApply s) (hnodes : (PropertyGraph.ofLog pre).nodes = ∅)
    (hedges : (PropertyGraph.ofLog pre).edges = ∅)
    (hpost : ∀ m' ∈ post, m'.op.pushedSchema = none) {stmt : Statement}
    (htyped : stmt.WellTyped s params)
    (hok : AppendsSucceed InterpretError.fault (execute P stmt params e)) :
    (∃ q e', execute P stmt params e = .ok q e' ∧
      ∀ patterns whereClause items orderBy limit types,
        stmt = .matchReturn patterns whereClause items orderBy limit →
        List.Forall₂ (ReturnItem.HasType s patterns) items types →
        ∀ cells ∈ q.rows, List.Forall₂ ResultCell.Fits cells types) ∨
      ∃ pattern label props id, stmt = .create pattern ∧
        nodeParts pattern params = .ok (label, props, id) ∧ e.hasNode id = true := by
  obtain ⟨log, hcore, hlog⟩ := h.guarded (G := Conforming) fun c _ => c.keeps_conforming
  have himage : contents e.storage = header ++ encodeLog P log := by
    simpa [storeImage] using hcore.contents
  have hsplit : log = pre ++ m :: post :=
    encodeLog_inj hcore.encodable henc (List.append_cancel_left (himage.symm.trans hstore))
  have hg := typedGraph_of_log hlog hsplit hm hnodes hedges hpost
  cases hr : execute P stmt params e with
  | error err e' =>
      refine Or.inr (htyped.not_refused hcore hg hr ?_)
      have hend := (Shaped.execute params stmt).chained e log hcore
      rw [hr] at hend hok
      cases hend with
      | rejected herr _ => exact herr
      | broken herr _ _ _ => exact absurd herr hok
  | ok q e' =>
      refine Or.inl ⟨q, e', rfl, ?_⟩
      rintro patterns whereClause items orderBy limit types rfl htypes
      cases htyped with
      | matchReturn _ hmatch _ hmix horder =>
          obtain ⟨q', e₁, hok', hfits⟩ := hmatch.returns hcore hg htypes hmix horder limit
          rw [execute, hok'] at hr
          cases hr
          exact hfits

end Soundness

/-- A node with an age. -/
def agedNode : Node := ⟨"a", "N", (∅ : Properties).insert "age" (.i64 41)⟩

/-- A schema, and a node under it. -/
def agedEngine : Engine MemoryStorage :=
  inMemory [.op (.applySchema ageSchema), .op (.insertNode agedNode)]

/-- A record of the log of that engine. -/
def agedRecord (seq : UInt64) (op : MutationOp) : Mutation := ⟨seq, ⟨"u", "d"⟩, true, op⟩

/-- `MATCH (n:N)`. -/
def matchAged : List Pattern := [.node ⟨"n", some "N", ∅⟩]

/-- `n.age < 50`. -/
def underFifty : Expr := .binary .lt (.property "n" ["age"]) (.literal (.i64 50))

theorem path_aged : PathHasType ageSchema matchAged "n" ["age"] (some .i64) :=
  .node ⟨_, List.mem_singleton.2 rfl, _, List.mem_singleton.2 rfl, rfl, rfl⟩
    ⟨⟨"N", .node, (∅ : BTreeMap String PropertyType).insert "age" .i64⟩, by decide +kernel,
      by decide +kernel⟩

/-- `MATCH (n:N) WHERE n.age < 50 RETURN n.age` is well typed. -/
theorem wellTyped_underFifty :
    (Statement.matchReturn matchAged (some underFifty) [.property "n" ["age"]] none
      none).WellTyped ageSchema ∅ := by
  refine .matchReturn none ⟨⟨by decide, by decide⟩, ?_, ?_, ?_⟩
    (.cons (.property path_aged) .nil) (Or.inr rfl) (fun order horder => by cases horder)
  · intro p hp hop hhop
    cases List.mem_singleton.1 hp
    cases hhop
  · intro p hp
    refine pushable_iff.2 ⟨none, ?_⟩
    cases List.mem_singleton.1 hp
    rfl
  · intro expr hexpr
    cases hexpr
    have hfifty : (Value.i64 50).Fits (some .i64) := Or.inr rfl
    exact .binary (.property path_aged) (.literal hfifty) (.numbers (by simp) rfl rfl)

/-- The statement succeeds on the engine, and returns integers. -/
theorem underFifty_succeeds :
    ∃ q e', execute bincode (.matchReturn matchAged (some underFifty) [.property "n" ["age"]] none
        none) ∅ agedEngine = .ok q e' ∧
      ∀ cells ∈ q.rows, List.Forall₂ ResultCell.Fits cells [.value (some .i64)] := by
  have hreach : Reach bincode agedEngine := reach_inMemory (by decide +kernel)
  have henc : ∀ m ∈ [] ++ agedRecord 1 (.schemaApply ageSchema) ::
      [agedRecord 2 (.nodeInsert agedNode)], bincode.Encodable m := by
    intro m hm
    rcases List.mem_cons.1 hm with rfl | hm
    · exact ⟨bincode.frameOf (agedRecord 1 (.schemaApply ageSchema)), by decide +kernel⟩
    · rw [List.mem_singleton.1 hm]
      exact ⟨bincode.frameOf (agedRecord 2 (.nodeInsert agedNode)), by decide +kernel⟩
  rcases well_typed_statements_succeed hreach.reachBy henc (by decide +kernel) rfl rfl rfl
    (by decide) wellTyped_underFifty (by decide +kernel) with ⟨q, e', hr, hfits⟩ | hcreate
  · exact ⟨q, e', hr, hfits _ _ _ _ _ _ rfl (.cons (.property path_aged) .nil)⟩
  · obtain ⟨pattern, _, _, _, hstmt, -⟩ := hcreate
    cases hstmt

end Morceau
