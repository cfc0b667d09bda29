import Morceau.Data.Doubles
import Morceau.Query.Properties

/-!
# Equality of values

`values_equal` is a table of cases written by hand, beside the `PartialEq` that `Value` derives. It
has no case for two timestamps or two lists and answers `false` for them; on the other variants it
is the derived equality. So a stored timestamp or list is found neither by `WHERE n.p = $x` nor by
an inline edge property, and every other stored value is.
-/

set_option autoImplicit false

namespace Morceau

open Lib LawfulStorage Interpreter

namespace Value

mutual

/-- The derived `PartialEq`: doubles by IEEE equality, lists element by element. -/
def partialEq : Value → Value → Bool
  | null, null => true
  | bool a, bool b => a == b
  | i64 a, i64 b => a == b
  | f64 a, f64 b => a.eq b
  | string a, string b => a == b
  | timestamp a, timestamp b => a == b
  | list as, list bs => partialEqList as bs
  | _, _ => false

/-- The derived equality of `Vec<Value>`. -/
def partialEqList : List Value → List Value → Bool
  | [], [] => true
  | a :: as, b :: bs => partialEq a b && partialEqList as bs
  | _, _ => false

end

mutual

/-- A NaN somewhere in the value. -/
def hasNaN : Value → Bool
  | f64 x => x.isNaN
  | list vs => hasNaNList vs
  | _ => false

/-- A NaN somewhere in the values. -/
def hasNaNList : List Value → Bool
  | [] => false
  | v :: vs => hasNaN v || hasNaNList vs

end

mutual

theorem partialEq_self : ∀ v : Value, v.hasNaN = false → v.partialEq v = true
  | null, _ => rfl
  | bool b, _ => beq_self_eq_true b
  | i64 n, _ => beq_self_eq_true n
  | f64 x, h => by
      rw [partialEq, F64.eq, F64.partialCmp_of_isNaN_false h h, compare_eq_iff_eq.2 rfl]
      rfl
  | string s, _ => beq_self_eq_true s
  | timestamp t, _ => beq_self_eq_true t
  | list vs, h => partialEqList_self vs h

theorem partialEqList_self : ∀ vs : List Value, hasNaNList vs = false → partialEqList vs vs = true
  | [], _ => rfl
  | v :: vs, h => by
      rw [hasNaNList, Bool.or_eq_false_iff] at h
      rw [partialEqList, partialEq_self v h.1, partialEqList_self vs h.2]
      rfl

end

/-- The variants that `values_equal` has a case for. -/
def hasEquality : Value → Bool
  | timestamp _ => false
  | list _ => false
  | _ => true

end Value

section Values

variable {v w : Value}

/-- On two values of one variant the table is the derived equality, unless it has no case. -/
theorem valuesEqual_of_typeName (h : v.typeName = w.typeName) :
    valuesEqual v w = (v.hasEquality && v.partialEq w) := by
  cases v <;> cases w <;> first | rfl | simp [Value.typeName] at h

theorem valuesEqual_eq_partialEq_iff (h : v.typeName = w.typeName) :
    valuesEqual v w = v.partialEq w ↔ v.hasEquality = true ∨ v.partialEq w = false := by
  rw [valuesEqual_of_typeName h]
  cases v.hasEquality <;> cases v.partialEq w <;> decide

theorem valuesEqual_self_iff (h : v.hasNaN = false) :
    valuesEqual v v = true ↔ v.hasEquality = true := by
  rw [valuesEqual_of_typeName rfl, v.partialEq_self h, Bool.and_true]

end Values

/-! ## Lookups by equality -/

/-- `MATCH (n) WHERE n.p = $x RETURN n`. -/
def nodesWithProperty (p x : String) : Statement :=
  .matchReturn [.node ⟨"n", none, ∅⟩] (some (.binary .eq (.property "n" [p]) (.param x)))
    [.var "n"] none none

/-- The block of an inline property that is a parameter. -/
def inlineParam (p x : String) : BTreeMap String Expr :=
  (∅ : BTreeMap String Expr).insert p (.param x)

/-- `MATCH (a)-[r {p: $x}]->(b) RETURN r`. -/
def edgesWithProperty (p x : String) : Statement :=
  .matchReturn [edgePath none (inlineParam p x)] none [.var "r"] none none

section Lookups

variable {σ : Type} [LawfulStorage σ] {P : Platform} {e : Engine σ} {log : List Mutation}
  {params : Params} {p x : String} {v : Value}

/-- The lookup of nodes returns those whose property is equal to the parameter; a missing property
counts as `Null`. -/
theorem nodesWithProperty_spec (h : Core P e log) (hx : params[x]? = some v) :
    ∃ q e', execute P (nodesWithProperty p x) params e = .ok q e' ∧
      ∀ n, [.node n] ∈ q.rows ↔ (PropertyGraph.ofLog log).nodes.lookup n.id = some n ∧
        valuesEqual ((n.properties[p]?).getD .null) v = true := by
  have hwhere : ∀ n, evalPredicate e (nodeRow "n" n) params
      (some (.binary .eq (.property "n" [p]) (.param x))) =
        .ok (valuesEqual ((n.properties[p]?).getD .null) v) := by
    intro n
    have hprop : evalExpr e (nodeRow "n" n) params (.property "n" [p]) =
        .ok ((n.properties[p]?).getD .null) := by
      rw [evalExpr, resolvePropertyPath, nodeRow, Std.ExtTreeMap.getElem?_insert_self]
      rfl
    have hparam : evalExpr e (nodeRow "n" n) params (.param x) = .ok v := by
      rw [evalExpr, hx]
    rw [evalPredicate, evalExpr, hprop, hparam]
    rfl
  obtain ⟨out, hout, hmem⟩ := nodes_where (S := e.snapshot (PropertyGraph.ofLog log))
    ⟨"n", none, ∅⟩ (some (.binary .eq (.property "n" [p]) (.param x))) (fun n => ⟨_, hwhere n⟩) rfl
  obtain ⟨e', hexec⟩ := (h.backed.execMatchReturn params _ _ _ _ _).ok_iff.2 hout
  refine ⟨_, e', hexec, fun n => ?_⟩
  rw [hmem, h.faithful.nodes.2, hwhere, Except.ok.injEq]
  exact and_congr_right fun _ => and_iff_right rfl

theorem evalPropertyMap_inlineParam (hx : params[x]? = some v) :
    ∃ inlineProps, evalPropertyMap (inlineParam p x) params = .ok inlineProps ∧
      ∀ (d : Edge) (label : Option String),
        edgePatternMatches ⟨"r", label, inlineParam p x⟩ d inlineProps = true ↔
          LabelHolds label d.label ∧
            ∃ actual, d.properties[p]? = some actual ∧ valuesEqual actual v = true := by
  have hentry : ∀ (k : String) (c : Expr),
      (inlineParam p x)[k]? = some c ↔ k = p ∧ c = .param x := by
    intro k c
    rw [inlineParam, Std.ExtTreeMap.getElem?_insert]
    by_cases hk : p = k
    · subst hk
      simp [eq_comm]
    · have hcmp : compare p k ≠ .eq := fun heq => hk (Std.LawfulEqCmp.eq_of_compare heq)
      simp [hcmp, Ne.symm hk]
  have hconst : evalConst params (.param x) = .ok v := by rw [evalConst, hx]
  obtain ⟨inlineProps, hprops⟩ := evalPropertyMap_succeeds (inlineParam p x) params
    fun k c hc => ⟨v, by rw [((hentry k c).1 hc).2, hconst]⟩
  refine ⟨inlineProps, hprops, fun d label => ?_⟩
  have hlookup := (evalPropertyMap_ok hprops).2
  rw [edgePatternMatches_iff]
  refine and_congr_right fun _ => ⟨fun hall => ?_, fun hactual k expected hk => ?_⟩
  · exact hall p v ((hlookup p v).2 ⟨_, (hentry p _).2 ⟨rfl, rfl⟩, hconst⟩)
  · obtain ⟨c, hc, hvalue⟩ := (hlookup k expected).1 hk
    obtain ⟨rfl, rfl⟩ := (hentry k c).1 hc
    cases hconst.symm.trans hvalue
    exact hactual

/-- The lookup of edges returns those with both ends whose property is there and equal to the
parameter. -/
theorem edgesWithProperty_spec (h : Core P e log) (hx : params[x]? = some v) :
    ∃ q e', execute P (edgesWithProperty p x) params e = .ok q e' ∧
      ∀ d, [.edge d] ∈ q.rows ↔ (PropertyGraph.ofLog log).edges.lookup d.id = some d ∧
        (∃ s, (PropertyGraph.ofLog log).nodes.lookup d.fromId = some s) ∧
        (∃ t, (PropertyGraph.ofLog log).nodes.lookup d.toId = some t) ∧
        ∃ actual, d.properties[p]? = some actual ∧ valuesEqual actual v = true := by
  obtain ⟨inlineProps, hprops, hmatch⟩ := evalPropertyMap_inlineParam (p := p) hx
  obtain ⟨out, hout, hmem⟩ := edges_matching (e := e) h.faithful none hprops
  obtain ⟨e', hexec⟩ := (h.backed.execMatchReturn params _ _ _ _ _).ok_iff.2 hout
  refine ⟨_, e', hexec, fun d => ?_⟩
  rw [hmem, hmatch]
  have hlabel : LabelHolds none d.label := fun l hl => by cases hl
  exact and_congr_right fun _ => and_congr_right fun _ => and_congr_right fun _ =>
    and_iff_right hlabel

end Lookups

section Results

variable {σ : Type} [LawfulStorage σ] {P : Platform} {e : Engine σ}

/-- When a stored value is found by equality. A value without a NaN is equal to itself exactly if it
is not a timestamp or a list; on two values of one variant the language's equality is the derived
one exactly if they are not two equal timestamps or lists; `!=` is its negation. On a reachable
engine the lookups of nodes and of edges by a stored value succeed, and find their entity under the
same condition. -/
theorem equality_finds_iff (h : Reach P e) :
    (∀ v : Value, v.hasNaN = false → (valuesEqual v v = true ↔ v.hasEquality = true)) ∧
    (∀ v w : Value, v.typeName = w.typeName →
      (valuesEqual v w = v.partialEq w ↔ v.hasEquality = true ∨ v.partialEq w = false)) ∧
    (∀ v w : Value, applyBinop .eq v w = .ok (.bool (valuesEqual v w)) ∧
      applyBinop .notEq v w = .ok (.bool (!valuesEqual v w))) ∧
    ∃ g, Agrees P e g ∧ ∀ (params : Params) (p x : String) (v : Value), params[x]? = some v →
      v.hasNaN = false →
      (∀ n, g.nodes.lookup n.id = some n → n.properties[p]? = some v →
        ∃ q e', execute P (nodesWithProperty p x) params e = .ok q e' ∧
          ([.node n] ∈ q.rows ↔ v.hasEquality = true)) ∧
      (∀ d : Edge, d.properties[p]? = some v →
        ∃ inlineProps, evalPropertyMap (inlineParam p x) params = .ok inlineProps ∧
          (edgePatternMatches ⟨"r", none, inlineParam p x⟩ d inlineProps = true ↔
            v.hasEquality = true)) ∧
      ∀ d s t, g.edges.lookup d.id = some d → g.nodes.lookup d.fromId = some s →
        g.nodes.lookup d.toId = some t → d.properties[p]? = some v →
        ∃ q e', execute P (edgesWithProperty p x) params e = .ok q e' ∧
          ([.edge d] ∈ q.rows ↔ v.hasEquality = true) := by
  obtain ⟨log, hinv⟩ := h.inv
  have hcore := hinv.toCore
  refine ⟨fun v hnan => valuesEqual_self_iff hnan,
    fun v w htype => valuesEqual_eq_partialEq_iff htype, fun v w => ⟨rfl, rfl⟩, _, hcore.agrees,
    fun params p x v hx hnan => ⟨?_, ?_, ?_⟩⟩
  · intro n hn hp
    obtain ⟨q, e', hexec, hmem⟩ := nodesWithProperty_spec (p := p) hcore hx
    refine ⟨q, e', hexec, ?_⟩
    rw [hmem, hp, Option.getD_some, valuesEqual_self_iff hnan]
    exact and_iff_right hn
  · intro d hp
    obtain ⟨inlineProps, hprops, hmatch⟩ := evalPropertyMap_inlineParam (p := p) hx
    refine ⟨inlineProps, hprops, ?_⟩
    rw [hmatch, hp]
    simp [LabelHolds, valuesEqual_self_iff hnan]
  · intro d s t hd hs ht hp
    obtain ⟨q, e', hexec, hmem⟩ := edgesWithProperty_spec (p := p) hcore hx
    refine ⟨q, e', hexec, ?_⟩
    rw [hmem, hp]
    simp [hd, hs, ht, valuesEqual_self_iff hnan]

end Results

/-- A node with an integer and a timestamp. -/
def stampedNode : Node :=
  ⟨"a", "N", ((∅ : Properties).insert "age" (.i64 7)).insert "at" (.timestamp 7)⟩

/-- The engine with that node. -/
def oneStamped : Engine MemoryStorage := inMemory [.op (.insertNode stampedNode)]

theorem reach_oneStamped : Reach bincode oneStamped := reach_inMemory (by decide +kernel)

/-- The node that a read found. -/
def foundNode : EStateM.Result EngineError (Engine MemoryStorage) (Option Node) → Option Node
  | .ok found _ => found
  | .error _ _ => none

theorem Agrees.lookup_eq_foundNode {e : Engine MemoryStorage} {g : PropertyGraph}
    (h : Agrees bincode e g) (id : String) :
    g.nodes.lookup id = foundNode (Engine.getNode bincode id e) := by
  obtain ⟨found, e', hread, -, hfound⟩ := h.getNode id
  rw [hread, foundNode, hfound]

/-- `MATCH (n) WHERE n.age = $x RETURN n` with the stored integer finds the node. -/
theorem stored_integer_is_found :
    ∃ q e', execute bincode (nodesWithProperty "age" "x") ((∅ : Params).insert "x" (.i64 7))
        oneStamped = .ok q e' ∧ [.node stampedNode] ∈ q.rows := by
  obtain ⟨-, -, -, g, hagree, hfind⟩ := equality_finds_iff reach_oneStamped
  have hlive : g.nodes.lookup "a" = some stampedNode :=
    (hagree.lookup_eq_foundNode "a").trans (by decide +kernel)
  obtain ⟨q, e', hexec, hmem⟩ := (hfind ((∅ : Params).insert "x" (.i64 7)) "age" "x" (.i64 7)
    Std.ExtTreeMap.getElem?_insert_self rfl).1 stampedNode hlive (by decide +kernel)
  exact ⟨q, e', hexec, hmem.2 rfl⟩

/-- With the stored timestamp `MATCH (n) WHERE n.at = $x RETURN n` returns nothing, although the
timestamps are equal. -/
theorem stored_timestamp_is_not_found :
    Reach bincode oneStamped ∧ (Value.timestamp 7).hasNaN = false ∧
      (Value.timestamp 7).partialEq (.timestamp 7) = true ∧
      valuesEqual (.timestamp 7) (.timestamp 7) = false ∧
      valuesEqual (.list []) (.list []) = false ∧
      stampedNode.properties["at"]? = some (.timestamp 7) ∧
      ∃ q e', execute bincode (nodesWithProperty "at" "x") ((∅ : Params).insert "x" (.timestamp 7))
        oneStamped = .ok q e' ∧ q.rows.length = 0 := by
  refine ⟨reach_oneStamped, rfl, by decide, rfl, rfl, by decide +kernel, ?_⟩
  exact rowCount_eq_some (by decide +kernel)

end Morceau
