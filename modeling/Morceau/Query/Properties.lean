import Morceau.Query.Limits

/-!
# Looking up by properties

What a property block evaluates to, and the results of the two plain lookups: `MATCH (n) WHERE ...
RETURN n` returns the nodes that pass, and `MATCH (a)-[r ...]->(b) RETURN r` the edges that pass and
have both ends.
-/

set_option autoImplicit false

namespace Morceau

open Lib LawfulStorage Interpreter

/-! ## Property blocks -/

section Blocks

variable {props : BTreeMap String Expr} {params : Params}

theorem evalPropertyMap_succeeds (props : BTreeMap String Expr) (params : Params)
    (h : ∀ (k : String) (c : Expr), props[k]? = some c → ∃ v, evalConst params c = .ok v) :
    ∃ out, evalPropertyMap props params = .ok out := by
  refine foldlM_insert_succeeds (g := evalConst params) (fun _ _ _ => rfl) (fun entry hmem => ?_) ∅
  exact h entry.1 entry.2 (Std.ExtTreeMap.mem_toList_iff_getElem?_eq_some.1 hmem)

/-- A block that evaluates has a value for each of its keys, and no others. -/
theorem evalPropertyMap_ok {out : BTreeMap String Value}
    (h : evalPropertyMap props params = .ok out) :
    (∀ (k : String) (c : Expr), props[k]? = some c → ∃ v, evalConst params c = .ok v) ∧
      ∀ (k : String) (v : Value),
        out[k]? = some v ↔ ∃ c, props[k]? = some c ∧ evalConst params c = .ok v := by
  have hdistinct : props.toList.Pairwise fun a b => a.1 ≠ b.1 :=
    Std.ExtTreeMap.distinct_keys_toList.imp fun hne heq => hne (by rw [heq]; simp)
  obtain ⟨hvalues, hlookup⟩ :=
    foldlM_insert_ok (g := evalConst params) (fun _ _ _ => rfl) props.toList hdistinct h
  simp only [Std.ExtTreeMap.mem_toList_iff_getElem?_eq_some] at hlookup
  refine ⟨fun k c hc => ?_, hlookup⟩
  exact hvalues (k, c) (Std.ExtTreeMap.mem_toList_iff_getElem?_eq_some.2 hc)

end Blocks

/-! ## Known rows -/

section Rows

variable {σ : Type} {P : Platform} {e : Engine σ} {params : Params} {S : Snapshot}
  {rows : List Bindings}

theorem unifyBindings_empty (row : Bindings) : unifyBindings ∅ row = some row := by
  rw [unifyBindings_eq_some_iff]
  refine ⟨fun x v w hv => by simp at hv, ?_⟩
  exact Std.ExtTreeMap.ext_getElem? fun x => by rw [getElem?_merge]; simp

theorem joinRows_unit (cands : List Bindings) : joinRows [∅] cands = cands := by
  rw [joinRows, List.flatMap_singleton]
  exact (List.filterMap_congr fun row _ => unifyBindings_empty row).trans List.filterMap_some

/-- The rows of a single pattern are its candidates. -/
theorem join_single {whereClause : Option Expr} {p : Pattern}
    (hcands : S.candidates whereClause params p = .ok rows) :
    S.join whereClause params [p] [∅] = .ok rows := by
  rw [Snapshot.join_cons hcands, joinRows_unit]
  split
  · rename_i hnil
    rw [hnil]
  · rfl

/-- `MATCH` over one pattern, without an order or a limit: it succeeds if `WHERE` and the items do
on each row, and returns the cells of the rows that pass. -/
theorem matchReturn_single {whereClause : Option Expr} {p : Pattern} (items : List ReturnItem)
    (hplain : items.any isAggregate = false)
    (hcands : S.candidates whereClause params p = .ok rows)
    (hwhere : ∀ row ∈ rows, ∃ b, evalPredicate e row params whereClause = .ok b)
    (hcells : ∀ row ∈ rows, ∃ cells, items.mapM (project e row) = .ok cells) :
    ∃ out, S.matchReturn P e [p] whereClause items none none params =
        .ok ⟨items.map returnItemColumnName, out⟩ ∧
      ∀ cells, cells ∈ out ↔ ∃ row ∈ rows, evalPredicate e row params whereClause = .ok true ∧
        items.mapM (project e row) = .ok cells := by
  obtain ⟨kept, hkept⟩ := filterRows_succeeds hwhere none
  obtain ⟨hsub, haccepted, hall⟩ := filterRows_ok hkept
  obtain ⟨out, hout⟩ : ∃ out, projectRows e items none 0 kept = .ok out := by
    simp only [projectRows_eq_collectLoop]
    refine collectLoop_succeeds 0 fun row hrow => ?_
    obtain ⟨cells, hcells⟩ := hcells row (hsub.subset hrow)
    exact ⟨_, exceptBind_eq_ok_iff.2 ⟨cells, hcells, rfl⟩⟩
  refine ⟨out, ?_, fun cells => ?_⟩
  · refine Snapshot.matchReturn_eq_ok_iff.2 ⟨kept, kept, ?_, rfl, ?_, rfl⟩
    · rw [inlineLimit_none, Snapshot.matchRows, join_single hcands]
      exact hkept
    · rwa [projectedRows, hplain]
  · rw [projectRows_eq_collectLoop] at hout
    rw [mem_collectLoop hout]
    constructor
    · rintro ⟨row, hrow, hcells⟩
      obtain ⟨cells', hcells', heq⟩ := exceptBind_eq_ok_iff.1 hcells
      cases heq
      exact ⟨row, hsub.subset hrow, haccepted row hrow, hcells'⟩
    · rintro ⟨row, hrow, hpass, hcells⟩
      exact ⟨row, hall rfl row hrow hpass, exceptBind_eq_ok_iff.2 ⟨cells, hcells, rfl⟩⟩

end Rows

/-! ## Lookups -/

section Lookups

variable {σ : Type} {P : Platform} {e : Engine σ} {params : Params} {S : Snapshot}

theorem mapM_project_var {row : Bindings} {var : String} {cells : List ResultCell} :
    [ReturnItem.var var].mapM (project e row) = .ok cells ↔
      ∃ cell, project e row (.var var) = .ok cell ∧ cells = [cell] := by
  rw [List.mapM_cons, exceptBind_eq_ok_iff]
  simp [pure, Except.pure, bind, Except.bind, eq_comm]

/-- `MATCH` over one pattern that returns one variable. -/
theorem matchReturn_var {rows : List Bindings} {whereClause : Option Expr} {p : Pattern}
    {var : String} (hcands : S.candidates whereClause params p = .ok rows)
    (hwhere : ∀ row ∈ rows, ∃ b, evalPredicate e row params whereClause = .ok b)
    (hcell : ∀ row ∈ rows, ∃ cell, project e row (.var var) = .ok cell) :
    ∃ out, S.matchReturn P e [p] whereClause [.var var] none none params = .ok ⟨[var], out⟩ ∧
      ∀ cell, [cell] ∈ out ↔ ∃ row ∈ rows, evalPredicate e row params whereClause = .ok true ∧
        project e row (.var var) = .ok cell := by
  have hcells : ∀ row ∈ rows, ∃ cells, [ReturnItem.var var].mapM (project e row) = .ok cells := by
    intro row hrow
    obtain ⟨cell, hcell⟩ := hcell row hrow
    exact ⟨_, mapM_project_var.2 ⟨cell, hcell, rfl⟩⟩
  obtain ⟨out, hout, hmem⟩ := matchReturn_single [.var var] rfl hcands hwhere hcells
  refine ⟨out, hout, fun cell => ?_⟩
  rw [hmem]
  constructor
  · rintro ⟨row, hrow, hpass, hproject⟩
    obtain ⟨cell', hproject, heq⟩ := mapM_project_var.1 hproject
    cases heq
    exact ⟨row, hrow, hpass, hproject⟩
  · rintro ⟨row, hrow, hpass, hproject⟩
    exact ⟨row, hrow, hpass, mapM_project_var.2 ⟨cell, hproject, rfl⟩⟩

theorem mem_startRows {np : NodePattern} {row : Bindings} :
    row ∈ S.startRows np none ↔
      ∃ n ∈ S.nodes, patternMatchesNode np n = true ∧ row = nodeRow np.var n := by
  constructor
  · intro hrow
    obtain ⟨n, hn, rfl⟩ := List.mem_map.1 hrow
    exact ⟨n, (List.mem_filter.1 hn).1, (List.mem_filter.1 hn).2, rfl⟩
  · rintro ⟨n, hn, hmatch, rfl⟩
    exact List.mem_map.2 ⟨n, List.mem_filter.2 ⟨hn, hmatch⟩, rfl⟩

theorem project_nodeRow (var : String) (n : Node) :
    project e (nodeRow var n) (.var var) = .ok (.node n) := by
  rw [project, nodeRow, Std.ExtTreeMap.getElem?_insert_self]

/-- `MATCH (n) WHERE ... RETURN n`, when `WHERE` does not fix the id of the node. -/
theorem nodes_where (np : NodePattern) (whereClause : Option Expr)
    (hwhere : ∀ n, ∃ b, evalPredicate e (nodeRow np.var n) params whereClause = .ok b)
    (hid : extractIdPredicate np.var params whereClause = .ok none) :
    ∃ out, S.matchReturn P e [.node np] whereClause [.var np.var] none none params =
        .ok ⟨[np.var], out⟩ ∧
      ∀ n, [.node n] ∈ out ↔ n ∈ S.nodes ∧ patternMatchesNode np n = true ∧
        evalPredicate e (nodeRow np.var n) params whereClause = .ok true := by
  have hcands : S.candidates whereClause params (.node np) = .ok (S.startRows np none) :=
    exceptBind_eq_ok_iff.2 ⟨none, hid, rfl⟩
  have hpredicate : ∀ row ∈ S.startRows np none,
      ∃ b, evalPredicate e row params whereClause = .ok b := by
    intro row hrow
    obtain ⟨n, -, -, rfl⟩ := mem_startRows.1 hrow
    exact hwhere n
  have hcell : ∀ row ∈ S.startRows np none, ∃ cell, project e row (.var np.var) = .ok cell := by
    intro row hrow
    obtain ⟨n, -, -, rfl⟩ := mem_startRows.1 hrow
    exact ⟨_, project_nodeRow np.var n⟩
  obtain ⟨out, hout, hmem⟩ := matchReturn_var hcands hpredicate hcell
  refine ⟨out, hout, fun n => ?_⟩
  rw [hmem]
  constructor
  · rintro ⟨row, hrow, hpass, hproject⟩
    -- the cell of a row is the node of the row
    obtain ⟨m, hm, hlabel, rfl⟩ := mem_startRows.1 hrow
    rw [project_nodeRow] at hproject
    cases hproject
    exact ⟨hm, hlabel, hpass⟩
  · rintro ⟨hn, hlabel, hpass⟩
    exact ⟨_, mem_startRows.2 ⟨n, hn, hlabel, rfl⟩, hpass, project_nodeRow np.var n⟩

/-- The pattern `(a)-[r ...]->(b)`. -/
def edgePath (label : Option String) (props : BTreeMap String Expr) : Pattern :=
  .path ⟨"a", none, ∅⟩ [(⟨"r", label, props⟩, ⟨"b", none, ∅⟩)]

/-- The row of an edge with its ends. -/
def edgeRow (s : Node) (d : Edge) (t : Node) : Bindings :=
  ((nodeRow "a" s).insert "r" (.edge d)).insert "b" (.node t)

theorem project_edgeRow (s : Node) (d : Edge) (t : Node) :
    project e (edgeRow s d t) (.var "r") = .ok (.edge d) := by
  simp only [project, edgeRow, Std.ExtTreeMap.getElem?_insert]
  rfl

section EdgeRows

variable {label : Option String} {props : BTreeMap String Expr}
  {inlineProps : BTreeMap String Value} {row : Bindings}

/-- A hop over an edge needs a match and a live target. -/
theorem hopRow_edgeRow_iff {s : Node} {d : Edge} :
    hopRow S.graph ⟨"r", label, props⟩ ⟨"b", none, ∅⟩ inlineProps (nodeRow "a" s) d = some row ↔
      ∃ t, S.graph.nodes.lookup d.toId = some t ∧
        edgePatternMatches ⟨"r", label, props⟩ d inlineProps = true ∧ row = edgeRow s d t := by
  rw [hopRow]
  by_cases hmatch : edgePatternMatches ⟨"r", label, props⟩ d inlineProps = true
  case neg => simp [hmatch]
  rw [if_pos hmatch]
  cases S.graph.nodes.lookup d.toId with
  | none => simp
  | some t =>
      constructor
      · intro h
        cases h
        exact ⟨t, rfl, hmatch, rfl⟩
      · rintro ⟨_, ⟨⟩, -, rfl⟩
        rfl

theorem mem_edgeRows :
    row ∈ (S.startRows ⟨"a", none, ∅⟩ none).flatMap
        (S.hopRows "a" ⟨"r", label, props⟩ ⟨"b", none, ∅⟩ inlineProps) ↔
      ∃ s ∈ S.nodes, ∃ d ∈ S.edgesFrom s.id label, ∃ t, S.graph.nodes.lookup d.toId = some t ∧
        edgePatternMatches ⟨"r", label, props⟩ d inlineProps = true ∧ row = edgeRow s d t := by
  have hhop : ∀ s, S.hopRows "a" ⟨"r", label, props⟩ ⟨"b", none, ∅⟩ inlineProps (nodeRow "a" s) =
      (S.edgesFrom s.id label).filterMap
        (hopRow S.graph ⟨"r", label, props⟩ ⟨"b", none, ∅⟩ inlineProps (nodeRow "a" s)) := by
    intro s
    simp only [Snapshot.hopRows, nodeRow, Std.ExtTreeMap.getElem?_insert_self]
  rw [List.mem_flatMap]
  constructor
  · rintro ⟨_, hstart, hm⟩
    obtain ⟨s, hs, -, rfl⟩ := mem_startRows.1 hstart
    rw [hhop] at hm
    obtain ⟨d, hd, hm⟩ := List.mem_filterMap.1 hm
    exact ⟨s, hs, d, hd, hopRow_edgeRow_iff.1 hm⟩
  · rintro ⟨s, hs, d, hd, hm⟩
    refine ⟨_, mem_startRows.2 ⟨s, hs, rfl, rfl⟩, ?_⟩
    rw [hhop]
    exact List.mem_filterMap.2 ⟨d, hd, hopRow_edgeRow_iff.2 hm⟩

end EdgeRows

/-- `MATCH (a)-[r ...]->(b) RETURN r`. -/
theorem edges_matching (hfaithful : S.Faithful) (label : Option String)
    {props : BTreeMap String Expr} {inlineProps : BTreeMap String Value}
    (hprops : evalPropertyMap props params = .ok inlineProps) :
    ∃ out, S.matchReturn P e [edgePath label props] none [.var "r"] none none params =
        .ok ⟨["r"], out⟩ ∧
      ∀ d, [.edge d] ∈ out ↔ S.graph.edges.lookup d.id = some d ∧
        (∃ s, S.graph.nodes.lookup d.fromId = some s) ∧
        (∃ t, S.graph.nodes.lookup d.toId = some t) ∧
        edgePatternMatches ⟨"r", label, props⟩ d inlineProps = true := by
  have hcands : S.candidates none params (edgePath label props) =
      .ok ((S.startRows ⟨"a", none, ∅⟩ none).flatMap
        (S.hopRows "a" ⟨"r", label, props⟩ ⟨"b", none, ∅⟩ inlineProps)) :=
    exceptBind_eq_ok_iff.2 ⟨none, rfl, exceptBind_eq_ok_iff.2 ⟨inlineProps, hprops, rfl⟩⟩
  have hcell : ∀ row ∈ (S.startRows ⟨"a", none, ∅⟩ none).flatMap
      (S.hopRows "a" ⟨"r", label, props⟩ ⟨"b", none, ∅⟩ inlineProps),
      ∃ cell, project e row (.var "r") = .ok cell := by
    intro row hrow
    obtain ⟨s, -, d, -, t, -, -, rfl⟩ := mem_edgeRows.1 hrow
    exact ⟨_, project_edgeRow s d t⟩
  obtain ⟨out, hout, hmem⟩ := matchReturn_var hcands (fun _ _ => ⟨true, rfl⟩) hcell
  refine ⟨out, hout, fun d => ?_⟩
  rw [hmem]
  constructor
  · rintro ⟨row, hrow, -, hproject⟩
    obtain ⟨s, hs, d', hd', t, ht, hmatch, rfl⟩ := mem_edgeRows.1 hrow
    rw [project_edgeRow] at hproject
    cases hproject
    obtain ⟨hlive, hsource, -⟩ := ((hfaithful.edgesFrom s.id label).2 d).1 hd'
    exact ⟨hlive, ⟨s, by rw [hsource]; exact (hfaithful.nodes.2 s).1 hs⟩, ⟨t, ht⟩, hmatch⟩
  · rintro ⟨hlive, ⟨s, hs⟩, ⟨t, ht⟩, hmatch⟩
    have hsource := hfaithful.nodeIds _ _ hs
    have hlabel := (edgePatternMatches_iff.1 hmatch).1
    refine ⟨edgeRow s d t, mem_edgeRows.2 ⟨s, ?_, d, ?_, t, ht, hmatch, rfl⟩, rfl, ?_⟩
    · refine (hfaithful.nodes.2 s).2 ?_
      show S.graph.nodes.lookup s.id = some s
      rwa [hsource]
    · exact ((hfaithful.edgesFrom s.id label).2 d).2
        ⟨hlive, hsource.symm, fun l hl => (hlabel l hl).symm⟩
    · exact project_edgeRow s d t

end Lookups

end Morceau
