import Morceau.Query.Snapshots

/-!
# What `MATCH` computes

The declarative answer to a `MATCH` over a property graph (`IsAnswer`): the rows that bind exactly
the variables of the patterns, to live entities that satisfy every node pattern and every hop, and
for which `WHERE` evaluates to true.

When the names inside each path are pairwise distinct and no name stands for a node and for an edge
(`WellNamed`), the rows that `find_match_rows` returns on a reachable engine are exactly the
answers, each once. Without that condition a row need not satisfy the patterns: a hop overwrites the
binding of a name it repeats, and the unification of two patterns compares ids only.
-/

set_option autoImplicit false

namespace Morceau

open Lib LawfulStorage Interpreter

/-! ## The declarative answer -/

/-- The two variables of a hop. -/
def hopVars (hop : EdgePattern × NodePattern) : List String := [hop.1.var, hop.2.var]

namespace Pattern

/-- The variables of a pattern, in the order in which they are bound. -/
def vars (p : Pattern) : List String := p.start.var :: p.hops.flatMap hopVars

/-- The variables that stand for nodes. -/
def nodeVars (p : Pattern) : List String := p.start.var :: p.hops.map fun hop => hop.2.var

/-- The variables that stand for edges. -/
def edgeVars (p : Pattern) : List String := p.hops.map fun hop => hop.1.var

end Pattern

/-- The label that a pattern asks for, if any, is the actual one. -/
def LabelHolds (label : Option String) (actual : String) : Prop := ∀ l, label = some l → l = actual

/-- The row binds the variable of the node pattern to a live node with its label. -/
def NodeHolds (g : PropertyGraph) (np : NodePattern) (row : Bindings) : Prop :=
  ∃ n, row[np.var]? = some (.node n) ∧ g.nodes.lookup n.id = some n ∧ LabelHolds np.label n.label

/-- The live edge `d` goes from the live node `s` to the live node `t`, with the labels and the
inline properties that the hop asks for. -/
structure IsHop (g : PropertyGraph) (edgePat : EdgePattern) (targetPat : NodePattern)
    (inlineProps : BTreeMap String Value) (s : Node) (d : Edge) (t : Node) : Prop where
  source : g.nodes.lookup s.id = some s
  edge : g.edges.lookup d.id = some d
  target : g.nodes.lookup t.id = some t
  fromSource : d.fromId = s.id
  toTarget : d.toId = t.id
  edgeLabel : LabelHolds edgePat.label d.label
  targetLabel : LabelHolds targetPat.label t.label
  properties : ∀ (k : String) (expected : Value), inlineProps[k]? = some expected →
    ∃ actual, d.properties[k]? = some actual ∧ valuesEqual actual expected = true

/-- The row binds the variables of a hop from `prevVar` to such an edge and its ends. -/
def HopHolds (g : PropertyGraph) (params : Params) (prevVar : String) (edgePat : EdgePattern)
    (targetPat : NodePattern) (row : Bindings) : Prop :=
  ∃ inlineProps s d t, evalPropertyMap edgePat.properties params = .ok inlineProps ∧
    row[prevVar]? = some (.node s) ∧ row[edgePat.var]? = some (.edge d) ∧
    row[targetPat.var]? = some (.node t) ∧ IsHop g edgePat targetPat inlineProps s d t

/-- Every hop of the chain holds; each starts at the target of the one before. -/
def ChainHolds (g : PropertyGraph) (params : Params) (row : Bindings) :
    String → List (EdgePattern × NodePattern) → Prop
  | _, [] => True
  | prevVar, (edgePat, targetPat) :: chain =>
      HopHolds g params prevVar edgePat targetPat row ∧
        ChainHolds g params row targetPat.var chain

/-- The row satisfies the pattern. -/
def PatternHolds (g : PropertyGraph) (params : Params) (p : Pattern) (row : Bindings) : Prop :=
  NodeHolds g p.start row ∧ ChainHolds g params row p.start.var p.hops

/-- The row is an answer: it binds the variables of the patterns and no others, satisfies every
pattern, and makes `WHERE` true. -/
structure IsAnswer {σ : Type} (e : Engine σ) (g : PropertyGraph) (patterns : List Pattern)
    (whereClause : Option Expr) (params : Params) (row : Bindings) : Prop where
  binds : Binds row (patterns.flatMap Pattern.vars)
  holds : ∀ p ∈ patterns, PatternHolds g params p row
  accepted : ∀ expr, whereClause = some expr → evalExpr e row params expr = .ok (.bool true)

/-- The names inside each pattern are pairwise distinct, and no name is a node variable and an edge
variable. -/
structure WellNamed (patterns : List Pattern) : Prop where
  distinct : ∀ p ∈ patterns, p.vars.Nodup
  kinds : ∀ p ∈ patterns, ∀ q ∈ patterns, ∀ x ∈ p.nodeVars, x ∉ q.edgeVars

namespace Pattern

theorem mem_vars_iff {p : Pattern} {x : String} : x ∈ p.vars ↔ x ∈ p.nodeVars ∨ x ∈ p.edgeVars := by
  simp only [vars, nodeVars, edgeVars, hopVars, List.mem_cons, List.mem_flatMap, List.mem_map,
    List.not_mem_nil, or_false]
  constructor
  · rintro (h | ⟨hop, hmem, h | h⟩)
    · exact Or.inl (Or.inl h)
    · exact Or.inr ⟨hop, hmem, h.symm⟩
    · exact Or.inl (Or.inr ⟨hop, hmem, h.symm⟩)
  · rintro ((h | ⟨hop, hmem, h⟩) | ⟨hop, hmem, h⟩)
    · exact Or.inl h
    · exact Or.inr ⟨hop, hmem, Or.inr h.symm⟩
    · exact Or.inr ⟨hop, hmem, Or.inl h.symm⟩

end Pattern

/-! ## Conditions on a row look at the variables they name -/

section Locality

variable {g : PropertyGraph} {params : Params}

theorem local_nodeHolds (np : NodePattern) : Local [np.var] (NodeHolds g np) := by
  rintro a b hab ⟨n, hn, hlive, hlabel⟩
  exact ⟨n, by rw [← hab np.var (by simp), hn], hlive, hlabel⟩

theorem local_hopHolds (prevVar : String) (edgePat : EdgePattern) (targetPat : NodePattern) :
    Local [prevVar, edgePat.var, targetPat.var] (HopHolds g params prevVar edgePat targetPat) := by
  rintro a b hab ⟨inlineProps, s, d, t, hprops, hs, hd, ht, hop⟩
  exact ⟨inlineProps, s, d, t, hprops, by rw [← hab _ (by simp), hs], by rw [← hab _ (by simp), hd],
    by rw [← hab _ (by simp), ht], hop⟩

theorem local_chainHolds (chain : List (EdgePattern × NodePattern)) : ∀ prevVar : String,
    Local (prevVar :: chain.flatMap hopVars) fun row => ChainHolds g params row prevVar chain := by
  induction chain with
  | nil => exact fun _ _ _ _ _ => trivial
  | cons hop chain ih =>
      rintro prevVar a b hab ⟨hhop, hchain⟩
      refine ⟨local_hopHolds prevVar hop.1 hop.2 a b (hab.mono ?_) hhop,
        ih hop.2.var a b (hab.mono ?_) hchain⟩
      · simp [hopVars]
      · simp [hopVars]

theorem local_patternHolds (p : Pattern) : Local p.vars (PatternHolds g params p) := by
  rintro a b hab ⟨hnode, hchain⟩
  refine ⟨local_nodeHolds p.start a b (hab.mono ?_) hnode,
    local_chainHolds p.hops p.start.var a b hab hchain⟩
  simp [Pattern.vars]

end Locality

/-! ## A row binds each variable to an entity of its kind -/

section Kinds

variable {g : PropertyGraph} {params : Params} {row : Bindings}

theorem ChainHolds.node_of_mem {chain : List (EdgePattern × NodePattern)} : ∀ {prevVar : String},
    ChainHolds g params row prevVar chain → ∀ x ∈ chain.map (fun hop => hop.2.var),
      ∃ n, row[x]? = some (.node n) ∧ g.nodes.lookup n.id = some n := by
  induction chain with
  | nil => simp
  | cons hop chain ih =>
      rintro prevVar ⟨⟨_, s, d, t, _, _, _, ht, hhop⟩, hchain⟩ x hx
      rcases List.mem_cons.1 hx with rfl | hx
      · exact ⟨t, ht, hhop.target⟩
      · exact ih hchain x hx

theorem ChainHolds.edge_of_mem {chain : List (EdgePattern × NodePattern)} : ∀ {prevVar : String},
    ChainHolds g params row prevVar chain → ∀ x ∈ chain.map (fun hop => hop.1.var),
      ∃ d, row[x]? = some (.edge d) ∧ g.edges.lookup d.id = some d := by
  induction chain with
  | nil => simp
  | cons hop chain ih =>
      rintro prevVar ⟨⟨_, s, d, t, _, _, hd, _, hhop⟩, hchain⟩ x hx
      rcases List.mem_cons.1 hx with rfl | hx
      · exact ⟨d, hd, hhop.edge⟩
      · exact ih hchain x hx

theorem PatternHolds.node_of_mem {p : Pattern} (h : PatternHolds g params p row) {x : String}
    (hx : x ∈ p.nodeVars) : ∃ n, row[x]? = some (.node n) ∧ g.nodes.lookup n.id = some n := by
  obtain ⟨⟨n, hn, hlive, -⟩, hchain⟩ := h
  rcases List.mem_cons.1 hx with rfl | hx
  · exact ⟨n, hn, hlive⟩
  · exact hchain.node_of_mem x hx

theorem PatternHolds.edge_of_mem {p : Pattern} (h : PatternHolds g params p row) {x : String}
    (hx : x ∈ p.edgeVars) : ∃ d, row[x]? = some (.edge d) ∧ g.edges.lookup d.id = some d :=
  h.2.edge_of_mem x hx

/-- Two rows that satisfy patterns which use the names consistently bind a shared name to the same
entity as soon as the ids are the same. -/
theorem eq_of_id_eq {patterns : List Pattern} (hnamed : WellNamed patterns) {p q : Pattern}
    (hp : p ∈ patterns) (hq : q ∈ patterns) {row' : Bindings} (h : PatternHolds g params p row)
    (h' : PatternHolds g params q row') {x : String} (hx : x ∈ p.vars) (hx' : x ∈ q.vars)
    {v w : Binding} (hv : row[x]? = some v) (hw : row'[x]? = some w) (hid : v.id = w.id) :
    v = w := by
  -- a name of two kinds is ruled out; of one kind, the id determines the live entity
  rcases Pattern.mem_vars_iff.1 hx with hx | hx <;> rcases Pattern.mem_vars_iff.1 hx' with hx' | hx'
  · obtain ⟨n, hn, hlive⟩ := h.node_of_mem hx
    obtain ⟨n', hn', hlive'⟩ := h'.node_of_mem hx'
    rw [hn] at hv
    rw [hn'] at hw
    cases hv
    cases hw
    have hid : n.id = n'.id := hid
    rw [hid, hlive'] at hlive
    rw [Option.some.inj hlive]
  · exact absurd hx' (hnamed.kinds p hp q hq x hx)
  · exact absurd hx (hnamed.kinds q hq p hp x hx')
  · obtain ⟨d, hd, hlive⟩ := h.edge_of_mem hx
    obtain ⟨d', hd', hlive'⟩ := h'.edge_of_mem hx'
    rw [hd] at hv
    rw [hd'] at hw
    cases hv
    cases hw
    have hid : d.id = d'.id := hid
    rw [hid, hlive'] at hlive
    rw [Option.some.inj hlive]

end Kinds

/-! ## The fast path -/

/-- What the id predicate of `WHERE` says about a variable: it is bound to the entity with the id
found there. -/
def Pinned (whereClause : Option Expr) (params : Params) (var : String) (row : Bindings) : Prop :=
  ∀ s, extractIdPredicate var params whereClause = .ok (some s) → ∀ b, row[var]? = some b → b.id = s

theorem local_pinned (whereClause : Option Expr) (params : Params) (var : String) :
    Local [var] (Pinned whereClause params var) := by
  intro a b hab h s hs v hv
  exact h s hs v (by rw [hab var (by simp), hv])

section FastPath

variable {σ : Type} {e : Engine σ} {row : Bindings} {params : Params} {var : String}

/-- A constant evaluates to the same value in a row. -/
theorem evalExpr_of_evalConst {expr : Expr} {v : Value} (h : evalConst params expr = .ok v) :
    evalExpr e row params expr = .ok v := by
  cases expr with
  | literal w => exact h
  | param name => exact h
  | property => cases h
  | idOf => cases h
  | binary => cases h
  | not => cases h

/-- An equation with `id(var)` on one side and a string on the other. -/
theorem id_eq_of_eq_true {lhs rhs other : Expr} {s : String} {b : Binding}
    (hside : idPredicateSide var lhs rhs = some other)
    (hs : evalConst params other = .ok (.string s))
    (htrue : evalExpr e row params (.binary .eq lhs rhs) = .ok (.bool true))
    (hb : row[var]? = some b) : b.id = s := by
  have hid : evalExpr e row params (.idOf var) = .ok (.string b.id) := by simp [evalExpr, hb]
  have hother : evalExpr e row params other = .ok (.string s) := evalExpr_of_evalConst hs
  unfold idPredicateSide at hside
  split at hside
  next hl =>
    subst hl
    cases hside
    rw [evalExpr, hid, hother] at htrue
    simpa [applyBinop, valuesEqual, bind, Except.bind] using htrue
  next =>
    split at hside
    next hr =>
      subst hr
      cases hside
      rw [evalExpr, hid, hother] at htrue
      have heq : s = b.id := by simpa [applyBinop, valuesEqual, bind, Except.bind] using htrue
      exact heq.symm
    next => cases hside

/-- A conjunction is true only when both sides are. -/
theorem evalExpr_and_true {lhs rhs : Expr}
    (h : evalExpr e row params (.binary .and lhs rhs) = .ok (.bool true)) :
    evalExpr e row params lhs = .ok (.bool true) ∧
      evalExpr e row params rhs = .ok (.bool true) := by
  rw [evalExpr] at h
  cases hl : evalExpr e row params lhs with
  | error err => simp [hl, bind, Except.bind] at h
  | ok l =>
      cases hr : evalExpr e row params rhs with
      | error err => simp [hl, hr, bind, Except.bind] at h
      | ok r =>
          simp only [hl, hr, bind, Except.bind, applyBinop] at h
          unfold applyLogic at h
          split at h
          · simpa using h
          · cases h
          · cases h
          · cases h

/-- The id found in an expression that is true of a row is the id of the variable there. -/
theorem id_eq_of_extractIdInExpr {s : String} {b : Binding} (hb : row[var]? = some b)
    (expr : Expr) : extractIdInExpr var params expr = .ok (some s) →
      evalExpr e row params expr = .ok (.bool true) → b.id = s := by
  fun_induction extractIdInExpr var params expr with
  | case1 => simp
  | case2 lhs rhs other hside =>
      -- an equation: only a string on the other side is used
      intro hfound htrue
      cases hv : evalConst params other with
      | error err => simp [hv, bind, Except.bind] at hfound
      | ok v =>
          simp only [hv, bind, Except.bind] at hfound
          split at hfound
          · cases hfound
            exact id_eq_of_eq_true hside hv htrue hb
          · cases hfound
  | case3 lhs rhs ihl ihr =>
      -- a conjunction: the left side is searched first, and both sides are true of the row
      intro hfound htrue
      obtain ⟨hl, hr⟩ := evalExpr_and_true htrue
      cases hv : extractIdInExpr var params lhs with
      | error err => simp [hv, bind, Except.bind] at hfound
      | ok found =>
          simp only [hv, bind, Except.bind] at hfound
          cases found with
          | some s' =>
              cases hfound
              exact ihl hv hl
          | none => exact ihr hfound hr
  | case4 => simp

/-- Whatever the id predicate says, it says about every row that `WHERE` accepts. -/
theorem pinned_of_accepted {whereClause : Option Expr}
    (h : ∀ expr, whereClause = some expr → evalExpr e row params expr = .ok (.bool true)) :
    Pinned whereClause params var row := by
  intro s hs b hb
  cases whereClause with
  | none => cases hs
  | some expr => exact id_eq_of_extractIdInExpr hb expr hs (h expr rfl)

end FastPath

/-! ## Candidates of one pattern -/

theorem patternMatchesNode_iff {np : NodePattern} {n : Node} :
    patternMatchesNode np n = true ↔ LabelHolds np.label n.label := by
  unfold patternMatchesNode LabelHolds
  cases np.label <;> simp

theorem edgePatternMatches_iff {edgePat : EdgePattern} {d : Edge}
    {inlineProps : BTreeMap String Value} :
    edgePatternMatches edgePat d inlineProps = true ↔ LabelHolds edgePat.label d.label ∧
      ∀ (k : String) (expected : Value), inlineProps[k]? = some expected →
        ∃ actual, d.properties[k]? = some actual ∧ valuesEqual actual expected = true := by
  unfold edgePatternMatches LabelHolds
  rw [Bool.and_eq_true, List.all_eq_true]
  refine and_congr (by cases edgePat.label <;> simp) ?_
  simp only [Prod.forall, Std.ExtTreeMap.mem_toList_iff_getElem?_eq_some]
  refine forall_congr' fun k => forall_congr' fun expected => imp_congr_right fun _ => ?_
  cases d.properties[k]? <;> simp

/-- A row that binds one variable to a node. -/
theorem eq_nodeRow_iff {row : Bindings} {var : String} {n : Node} :
    nodeRow var n = row ↔ Binds row [var] ∧ row[var]? = some (.node n) := by
  have h := eq_insert_iff (m := row) (x := var) (v := Binding.node n)
    (binds_nil.2 (rfl : (∅ : Bindings) = ∅)) (by simp)
  rw [eq_comm, nodeRow, h]
  simp [Agree]

section Hops

variable {g : PropertyGraph} {params : Params} {edgePat : EdgePattern} {targetPat : NodePattern}
  {edgeProps : BTreeMap String Value} {row : Bindings}

/-- The row of a hop over a live edge that leaves the live node `s`. -/
theorem hopRow_eq_some_iff (hids : ∀ id n, g.nodes.lookup id = some n → n.id = id) {s : Node}
    {d : Edge} {m : Bindings} (hs : g.nodes.lookup s.id = some s)
    (hd : g.edges.lookup d.id = some d) (hfrom : d.fromId = s.id) :
    hopRow g edgePat targetPat edgeProps row d = some m ↔
      ∃ t, IsHop g edgePat targetPat edgeProps s d t ∧
        m = (row.insert edgePat.var (.edge d)).insert targetPat.var (.node t) := by
  unfold hopRow
  constructor
  · intro h
    split at h
    next hmatch =>
      obtain ⟨hlabel, hprops⟩ := edgePatternMatches_iff.1 hmatch
      split at h
      next t ht =>
        have hid : t.id = d.toId := hids d.toId t ht
        split at h
        next htarget =>
          cases h
          exact ⟨t, ⟨hs, hd, hid ▸ ht, hfrom, hid.symm, hlabel, patternMatchesNode_iff.1 htarget,
            hprops⟩, rfl⟩
        next => cases h
      next => cases h
    next => cases h
  · rintro ⟨t, hop, rfl⟩
    have hmatch := edgePatternMatches_iff.2 ⟨hop.edgeLabel, hop.properties⟩
    have htarget := patternMatchesNode_iff.2 hop.targetLabel
    have hlook : g.nodes.lookup d.toId = some t := by rw [hop.toTarget, hop.target]
    simp [hmatch, hlook, htarget]

/-- The edges that leave the node of a row give all the ways to extend the row by the hop. -/
theorem hopRow_lists (hids : ∀ id n, g.nodes.lookup id = some n → n.id = id) {D : List String}
    {prevVar : String} {s : Node} {edges : List Edge} (hrow : Binds row D) (hprev : prevVar ∈ D)
    (hfresh : (D ++ [edgePat.var, targetPat.var]).Nodup) (hs : row[prevVar]? = some (.node s))
    (hlive : g.nodes.lookup s.id = some s)
    (hprops : evalPropertyMap edgePat.properties params = .ok edgeProps)
    (hedges : ListsExactly (fun d => g.edges.lookup d.id = some d ∧ d.fromId = s.id ∧
      ∀ l, edgePat.label = some l → d.label = l) edges) :
    ListsExactly (fun m => Binds m (D ++ [edgePat.var, targetPat.var]) ∧ Agree D row m ∧
      HopHolds g params prevVar edgePat targetPat m)
      (edges.filterMap (hopRow g edgePat targetPat edgeProps row)) := by
  obtain ⟨-, hpair, hdisj⟩ := List.nodup_append.1 hfresh
  have hedge : edgePat.var ∉ D := fun hmem => hdisj _ hmem _ (by simp) rfl
  have htarget : targetPat.var ∉ D := fun hmem => hdisj _ hmem _ (by simp) rfl
  have hne : edgePat.var ≠ targetPat.var := by simpa using hpair
  have hinsert := fun (m : Bindings) (d : Edge) (t : Node) =>
    eq_insert_insert_iff (m := m) (v := Binding.edge d) (w := Binding.node t) hrow hedge htarget hne
  refine (hedges.filterMap ?_).congr fun m => ?_
  · -- the row of a hop determines its edge
    rintro d d' m ⟨hd, hfrom, -⟩ ⟨hd', hfrom', -⟩ hm hm'
    obtain ⟨t, -, hm⟩ := (hopRow_eq_some_iff hids hlive hd hfrom).1 hm
    obtain ⟨t', -, hm'⟩ := (hopRow_eq_some_iff hids hlive hd' hfrom').1 hm'
    have heq := ((hinsert m d t).1 hm).2.2.1
    rw [((hinsert m d' t').1 hm').2.2.1] at heq
    cases heq
    rfl
  · constructor
    · rintro ⟨d, ⟨hd, hfrom, -⟩, hm⟩
      obtain ⟨t, hop, hm⟩ := (hopRow_eq_some_iff hids hlive hd hfrom).1 hm
      obtain ⟨hbinds, hagree, hmd, hmt⟩ := (hinsert m d t).1 hm
      have hms : m[prevVar]? = some (.node s) := by rw [← hagree prevVar hprev, hs]
      exact ⟨hbinds, hagree, edgeProps, s, d, t, hprops, hms, hmd, hmt, hop⟩
    · -- the source of the hop is the node that the row binds
      rintro ⟨hbinds, hagree, props, s', d, t, hprops', hms, hmd, hmt, hop⟩
      rw [hprops] at hprops'
      cases hprops'
      rw [← hagree prevVar hprev, hs] at hms
      cases hms
      refine ⟨d, ⟨hop.edge, hop.fromSource, fun l hl => (hop.edgeLabel l hl).symm⟩, ?_⟩
      exact (hopRow_eq_some_iff hids hlive hop.edge hop.fromSource).2
        ⟨t, hop, (hinsert m d t).2 ⟨hbinds, hagree, hmd, hmt⟩⟩

end Hops

section Candidates

variable {S : Snapshot} {params : Params} {whereClause : Option Expr}

/-- The lookup of one id lists the live nodes with that id. -/
theorem lookup_lists {g : PropertyGraph} (hids : ∀ id n, g.nodes.lookup id = some n → n.id = id)
    (id : String) :
    ListsExactly (fun n => g.nodes.lookup n.id = some n ∧ n.id = id)
      (g.nodes.lookup id).toList := by
  cases hlook : g.nodes.lookup id with
  | none =>
      refine ListsExactly.nil fun n ⟨hlive, hid⟩ => ?_
      rw [hid, hlook] at hlive
      cases hlive
  | some n =>
      have hn : n.id = id := hids id n hlook
      refine ⟨by simp, fun n' => ?_⟩
      rw [Option.toList_some, List.mem_singleton]
      constructor
      · rintro rfl
        exact ⟨by rw [hn, hlook], hn⟩
      · rintro ⟨hlive, hid⟩
        rw [hid, hlook] at hlive
        exact (Option.some.inj hlive).symm

/-- The nodes that a pattern can start from: all the live ones, or those with the id that `WHERE`
fixes. -/
theorem Snapshot.Faithful.startNodes_lists (h : S.Faithful) (found : Option String) :
    ListsExactly (fun n => S.graph.nodes.lookup n.id = some n ∧ ∀ s, found = some s → n.id = s)
      (S.startNodes found) := by
  cases found with
  | none => exact h.nodes.congr (by simp)
  | some s => exact (lookup_lists h.nodeIds s).congr (by simp [eq_comm])

/-- The rows for the first node of a pattern: the index lookup and the scan list the same rows, as
far as `WHERE` is concerned. -/
theorem Snapshot.Faithful.startRows_lists (h : S.Faithful) {np : NodePattern}
    {found : Option String} (hfound : extractIdPredicate np.var params whereClause = .ok found) :
    ListsExactly (fun row => Binds row [np.var] ∧ NodeHolds S.graph np row ∧
      Pinned whereClause params np.var row) (S.startRows np found) := by
  have hinj : Function.Injective (nodeRow np.var) := by
    intro n n' heq
    have hn := (eq_nodeRow_iff.1 heq).2
    rw [(eq_nodeRow_iff.1 (rfl : nodeRow np.var n' = _)).2] at hn
    cases hn
    rfl
  refine (((h.startNodes_lists found).filter (f := patternMatchesNode np)).map hinj).congr
    fun row => ?_
  constructor
  · rintro ⟨n, ⟨⟨hlive, hid⟩, hmatch⟩, hrow⟩
    obtain ⟨hbinds, hn⟩ := eq_nodeRow_iff.1 hrow
    refine ⟨hbinds, ⟨n, hn, hlive, patternMatchesNode_iff.1 hmatch⟩, fun s hs b hb => ?_⟩
    rw [hn] at hb
    cases hb
    rw [hfound] at hs
    exact hid s (Except.ok.inj hs)
  · rintro ⟨hbinds, ⟨n, hn, hlive, hlabel⟩, hpin⟩
    refine ⟨n, ⟨⟨hlive, fun s hs => ?_⟩, patternMatchesNode_iff.2 hlabel⟩,
      eq_nodeRow_iff.2 ⟨hbinds, hn⟩⟩
    exact hpin s (by rw [hfound, hs]) (.node n) hn

/-- The hops of a path extend a listing of rows in all the ways that satisfy the chain. -/
theorem Snapshot.Faithful.walk_lists (h : S.Faithful)
    {chain : List (EdgePattern × NodePattern)} :
    ∀ {D : List String} {Q : Bindings → Prop} {prevVar : String} {rows out : List Bindings},
      ListsExactly (fun r => Binds r D ∧ Q r) rows → Local D Q → prevVar ∈ D →
      (∀ r, Q r → ∃ s, r[prevVar]? = some (.node s) ∧ S.graph.nodes.lookup s.id = some s) →
      (D ++ chain.flatMap hopVars).Nodup → S.walk params prevVar chain rows = .ok out →
      ListsExactly (fun r => Binds r (D ++ chain.flatMap hopVars) ∧ Q r ∧
        ChainHolds S.graph params r prevVar chain) out := by
  induction chain with
  | nil =>
      intro D Q prevVar rows out hrows _ _ _ _ hr
      cases hr
      exact hrows.congr (by simp [ChainHolds])
  | cons hop chain ih =>
      intro D Q prevVar rows out hrows hQ hprev hnode hnodup hr
      obtain ⟨edgePat, targetPat⟩ := hop
      obtain ⟨edgeProps, hprops, hrest⟩ := exceptBind_eq_ok_iff.1 hr
      rw [List.flatMap_cons, hopVars, ← List.append_assoc] at hnodup ⊢
      have hfresh := hnodup.of_append_left
      -- one hop: every row is extended by the edge and its target
      have hstep : ListsExactly (fun r => Binds r (D ++ [edgePat.var, targetPat.var]) ∧ Q r ∧
          HopHolds S.graph params prevVar edgePat targetPat r)
          (rows.flatMap (S.hopRows prevVar edgePat targetPat edgeProps)) := by
        rw [List.flatMap_def]
        refine hrows.extend hQ (List.forall₂_map_right_iff.2 (List.forall₂_same.2 fun r hr => ?_))
        obtain ⟨hbinds, hQr⟩ := (hrows.2 r).1 hr
        obtain ⟨s, hs, hlive⟩ := hnode r hQr
        simp only [Snapshot.hopRows, hs]
        exact hopRow_lists h.nodeIds hbinds hprev hfresh hs hlive hprops
          (h.edgesFrom s.id edgePat.label)
      have hlocal : Local (D ++ [edgePat.var, targetPat.var]) fun r => Q r ∧
          HopHolds S.graph params prevVar edgePat targetPat r := by
        rintro a b hab ⟨hQa, hhop⟩
        refine ⟨hQ a b (hab.mono (by simp)) hQa,
          local_hopHolds prevVar edgePat targetPat a b (hab.mono ?_) hhop⟩
        simp [hprev]
      refine (ih hstep hlocal (by simp) ?_ hnodup hrest).congr fun r => ?_
      · rintro r ⟨-, _, _, _, t, _, _, _, ht, hop⟩
        exact ⟨t, ht, hop.target⟩
      · simp [ChainHolds, and_assoc]

/-- The candidates of a pattern are the rows over its variables that satisfy it, as far as `WHERE`
is concerned. -/
theorem Snapshot.Faithful.candidates_lists (h : S.Faithful) {p : Pattern} (hp : p.vars.Nodup)
    {rows : List Bindings} (hr : S.candidates whereClause params p = .ok rows) :
    ListsExactly (fun r => Binds r p.vars ∧ PatternHolds S.graph params p r ∧
      Pinned whereClause params p.start.var r) rows := by
  obtain ⟨found, hfound, hr⟩ := exceptBind_eq_ok_iff.1 hr
  have hlocal : Local [p.start.var] fun r => NodeHolds S.graph p.start r ∧
      Pinned whereClause params p.start.var r := by
    rintro a b hab ⟨hnode, hpin⟩
    exact ⟨local_nodeHolds p.start a b hab hnode, local_pinned _ _ _ a b hab hpin⟩
  refine (h.walk_lists (h.startRows_lists hfound) hlocal (by simp) ?_ hp hr).congr fun r => ?_
  · rintro r ⟨⟨n, hn, hlive, -⟩, -⟩
    exact ⟨n, hn, hlive⟩
  · simp only [Pattern.vars, PatternHolds, List.cons_append, List.nil_append]
    tauto

end Candidates

end Morceau
