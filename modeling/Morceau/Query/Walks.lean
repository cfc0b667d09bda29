import Morceau.Query.FailedQueries

/-!
# Which rows satisfy their patterns

`find_match_rows` fills a row by insertions. A walk through the graph takes a pattern, and each of
its steps inserts an edge and then its target under their names (`Walk`); the rows of the patterns
are unified one after another (`Joins`). The walk itself goes on from the target it has just
inserted, so it follows the graph whatever the names are. The row need not: an insertion replaces
what an earlier one bound to the same name, and unification compares ids, which a node and an edge
can share.

Neither happens along walks that are `Undisturbed`: at each insertion the name is unbound or bound
to the same entity, and at each unification the shared names are of the same kind. The row of a
query satisfies its patterns exactly when it comes from such walks.
-/

set_option autoImplicit false

namespace Morceau

open Lib LawfulStorage Interpreter

/-! ## The walks behind a row -/

/-- A way through the graph: the node that it starts at, and an edge with its target for every
step. -/
structure Walk where
  start : Node
  steps : List (Edge × Node)

/-- The steps take the hops, from the node `s` on. -/
inductive Follows (g : PropertyGraph) (params : Params) :
    Node → List (EdgePattern × NodePattern) → List (Edge × Node) → Prop where
  | nil (s : Node) : Follows g params s [] []
  | cons {s t : Node} {d : Edge} {edgePat : EdgePattern} {targetPat : NodePattern}
      {inlineProps : BTreeMap String Value} {hops : List (EdgePattern × NodePattern)}
      {steps : List (Edge × Node)} :
      evalPropertyMap edgePat.properties params = .ok inlineProps →
      IsHop g edgePat targetPat inlineProps s d t → Follows g params t hops steps →
      Follows g params s ((edgePat, targetPat) :: hops) ((d, t) :: steps)

/-- What the steps bind: for every hop the edge, and then its target. -/
def stepBindings : List (EdgePattern × NodePattern) → List (Edge × Node) → List (String × Binding)
  | (edgePat, targetPat) :: hops, (d, t) :: steps =>
      (edgePat.var, .edge d) :: (targetPat.var, .node t) :: stepBindings hops steps
  | _, _ => []

namespace Walk

/-- The walk starts at the node with the id that `WHERE` fixes, if it fixes one. -/
def StartsPinned (params : Params) (whereClause : Option Expr) (p : Pattern) (w : Walk) : Prop :=
  ∀ id, extractIdPredicate p.start.var params whereClause = .ok (some id) → w.start.id = id

/-- The walk takes the pattern, from a live node with the label and with the id that `WHERE`
fixes. -/
structure Takes (g : PropertyGraph) (params : Params) (whereClause : Option Expr) (p : Pattern)
    (w : Walk) : Prop where
  live : g.nodes.lookup w.start.id = some w.start
  label : LabelHolds p.start.label w.start.label
  pinned : w.StartsPinned params whereClause p
  follows : Follows g params w.start p.hops w.steps

/-- Every occurrence of a name in the pattern, in the order of the insertions, with the entity that
the walk has there. -/
def bindings (p : Pattern) (w : Walk) : List (String × Binding) :=
  (p.start.var, .node w.start) :: stepBindings p.hops w.steps

/-- The row that the walk leaves. -/
def row (p : Pattern) (w : Walk) : Bindings := insertAll ∅ (w.bindings p)

/-- Every occurrence of a name denotes the entity that the row has for it. -/
def DenotedBy (row : Bindings) (p : Pattern) (w : Walk) : Prop :=
  ∀ occurrence ∈ w.bindings p, row[occurrence.1]? = some occurrence.2

end Walk

/-- One walk for every pattern, unified one after another with the row, give the last row. -/
inductive Joins (g : PropertyGraph) (params : Params) (whereClause : Option Expr) :
    Bindings → List Pattern → List Walk → Bindings → Prop where
  | nil (row : Bindings) : Joins g params whereClause row [] [] row
  | cons {row row' out : Bindings} {p : Pattern} {w : Walk} {patterns : List Pattern}
      {walks : List Walk} :
      w.Takes g params whereClause p → unifyBindings row (w.row p) = some row' →
      Joins g params whereClause row' patterns walks out →
      Joins g params whereClause row (p :: patterns) (w :: walks) out

/-- No insertion of a walk rebinds a name to another entity, and no unification takes a node and an
edge for one entity. -/
def Undisturbed : Bindings → List Pattern → List Walk → Prop
  | row, p :: patterns, w :: walks =>
      NoRebinding ∅ (w.bindings p) ∧
        (∀ (x : String) (b b' : Binding), row[x]? = some b → (w.row p)[x]? = some b' →
          b.isNode = b'.isNode) ∧
        ∀ row', unifyBindings row (w.row p) = some row' → Undisturbed row' patterns walks
  | _, _, _ => True

/-! ## The interpreter takes these walks -/

section Taken

variable {S : Snapshot} {params : Params} {whereClause : Option Expr}

/-- The rows of one hop from a row that binds the previous variable to a live node. -/
theorem Snapshot.Faithful.mem_hopRows_iff (h : S.Faithful) {prevVar : String}
    {edgePat : EdgePattern} {targetPat : NodePattern} {edgeProps : BTreeMap String Value}
    {row m : Bindings} {s : Node} (hs : row[prevVar]? = some (.node s))
    (hlive : S.graph.nodes.lookup s.id = some s) :
    m ∈ S.hopRows prevVar edgePat targetPat edgeProps row ↔
      ∃ d t, IsHop S.graph edgePat targetPat edgeProps s d t ∧
        m = (row.insert edgePat.var (.edge d)).insert targetPat.var (.node t) := by
  simp only [Snapshot.hopRows, hs, List.mem_filterMap, (h.edgesFrom s.id edgePat.label).2]
  constructor
  · rintro ⟨d, ⟨hd, hfrom, -⟩, hm⟩
    obtain ⟨t, hop, hm⟩ := (hopRow_eq_some_iff h.nodeIds hlive hd hfrom).1 hm
    exact ⟨d, t, hop, hm⟩
  · rintro ⟨d, t, hop, hm⟩
    refine ⟨d, ⟨hop.edge, hop.fromSource, fun l hl => (hop.edgeLabel l hl).symm⟩, ?_⟩
    exact (hopRow_eq_some_iff h.nodeIds hlive hop.edge hop.fromSource).2 ⟨t, hop, hm⟩

/-- The hops of a path, from rows that bind the previous variable to a live node. -/
theorem Snapshot.Faithful.mem_walk_iff (h : S.Faithful) {m : Bindings}
    {hops : List (EdgePattern × NodePattern)} :
    ∀ {prevVar : String} {rows out : List Bindings},
      (∀ row ∈ rows, ∃ s, row[prevVar]? = some (.node s) ∧ S.graph.nodes.lookup s.id = some s) →
      S.walk params prevVar hops rows = .ok out →
      (m ∈ out ↔ ∃ row ∈ rows, ∃ s steps, row[prevVar]? = some (.node s) ∧
        Follows S.graph params s hops steps ∧ m = insertAll row (stepBindings hops steps)) := by
  induction hops with
  | nil =>
      intro prevVar rows out hrows hr
      cases hr
      constructor
      · intro hm
        obtain ⟨s, hs, -⟩ := hrows m hm
        exact ⟨m, hm, s, [], hs, .nil s, rfl⟩
      · rintro ⟨row, hrow, s, steps, -, -, rfl⟩
        exact hrow
  | cons hop hops ih =>
      intro prevVar rows out hrows hr
      obtain ⟨edgePat, targetPat⟩ := hop
      obtain ⟨edgeProps, hprops, hrest⟩ := exceptBind_eq_ok_iff.1 hr
      -- the target is inserted last, so the next hop starts at it whatever the names are
      have hnext : ∀ row ∈ rows.flatMap (S.hopRows prevVar edgePat targetPat edgeProps),
          ∃ t, row[targetPat.var]? = some (.node t) ∧ S.graph.nodes.lookup t.id = some t := by
        intro m hm
        obtain ⟨row, hrow, hm⟩ := List.mem_flatMap.1 hm
        obtain ⟨s, hs, hlive⟩ := hrows row hrow
        obtain ⟨d, t, hop, rfl⟩ := (h.mem_hopRows_iff hs hlive).1 hm
        exact ⟨t, by simp, hop.target⟩
      rw [ih hnext hrest]
      constructor
      · rintro ⟨row', hrow', t, steps, ht, hfollows, rfl⟩
        obtain ⟨row, hrow, hm⟩ := List.mem_flatMap.1 hrow'
        obtain ⟨s, hs, hlive⟩ := hrows row hrow
        obtain ⟨d, t', hop, rfl⟩ := (h.mem_hopRows_iff hs hlive).1 hm
        obtain rfl : t' = t := by simpa using ht
        exact ⟨row, hrow, s, (d, t') :: steps, hs, .cons hprops hop hfollows, rfl⟩
      · rintro ⟨row, hrow, s, _, hs, hfollows, rfl⟩
        cases hfollows with
        | @cons _ t d _ _ inlineProps _ steps hprops' hop hfollows =>
            rw [hprops] at hprops'
            cases hprops'
            refine ⟨_, List.mem_flatMap.2 ⟨row, hrow, (h.mem_hopRows_iff hs hop.source).2
              ⟨d, t, hop, rfl⟩⟩, t, steps, by simp, hfollows, rfl⟩

/-- The candidates of a pattern are the rows of the walks that take it. -/
theorem Snapshot.Faithful.mem_candidates_iff (h : S.Faithful) {p : Pattern} {m : Bindings}
    {rows : List Bindings} (hr : S.candidates whereClause params p = .ok rows) :
    m ∈ rows ↔ ∃ w : Walk, w.Takes S.graph params whereClause p ∧ m = w.row p := by
  obtain ⟨found, hfound, hr⟩ := exceptBind_eq_ok_iff.1 hr
  have hstart : ∀ {row : Bindings}, row ∈ S.startRows p.start found ↔
      ∃ n, S.graph.nodes.lookup n.id = some n ∧ (∀ id, found = some id → n.id = id) ∧
        LabelHolds p.start.label n.label ∧ row = nodeRow p.start.var n := by
    intro row
    simp only [Snapshot.startRows, List.mem_map, List.mem_filter, (h.startNodes_lists found).2,
      patternMatchesNode_iff, and_assoc, eq_comm (b := row)]
  have hrows : ∀ row ∈ S.startRows p.start found,
      ∃ s, row[p.start.var]? = some (.node s) ∧ S.graph.nodes.lookup s.id = some s := by
    intro row hrow
    obtain ⟨n, hlive, -, -, rfl⟩ := hstart.1 hrow
    exact ⟨n, by simp [nodeRow], hlive⟩
  rw [h.mem_walk_iff hrows hr]
  constructor
  · rintro ⟨row, hrow, s, steps, hs, hfollows, rfl⟩
    obtain ⟨n, hlive, hid, hlabel, rfl⟩ := hstart.1 hrow
    obtain rfl : n = s := by simpa [nodeRow] using hs
    refine ⟨⟨n, steps⟩, ⟨hlive, hlabel, fun id heq => hid id ?_, hfollows⟩, rfl⟩
    rw [hfound] at heq
    exact Except.ok.inj heq
  · rintro ⟨w, htakes, rfl⟩
    refine ⟨nodeRow p.start.var w.start, hstart.2 ⟨w.start, htakes.live, fun id heq => ?_,
      htakes.label, rfl⟩, w.start, w.steps, by simp [nodeRow], htakes.follows, rfl⟩
    exact htakes.pinned id (by rw [hfound, heq])

/-- The rows of the pattern loop are those that walks join to. -/
theorem Snapshot.Faithful.mem_join_iff (h : S.Faithful) {m : Bindings} {patterns : List Pattern} :
    ∀ {rows out : List Bindings}, S.join whereClause params patterns rows = .ok out →
      (m ∈ out ↔
        ∃ row ∈ rows, ∃ walks, Joins S.graph params whereClause row patterns walks m) := by
  induction patterns with
  | nil =>
      intro rows out hr
      cases hr
      constructor
      · exact fun hm => ⟨m, hm, [], .nil m⟩
      · rintro ⟨row, hrow, walks, hjoins⟩
        cases hjoins
        exact hrow
  | cons p patterns ih =>
      intro rows out hr
      obtain ⟨cands, hcands, -⟩ := exceptBind_eq_ok_iff.1 hr
      rw [Snapshot.join_cons hcands] at hr
      have hstep : (∃ row ∈ joinRows rows cands, ∃ walks,
          Joins S.graph params whereClause row patterns walks m) ↔
          ∃ row ∈ rows, ∃ walks, Joins S.graph params whereClause row (p :: patterns) walks m := by
        constructor
        · rintro ⟨row', hrow', walks, hjoins⟩
          obtain ⟨row, hrow, _, hcand, hunify⟩ := Snapshot.mem_joinRows.1 hrow'
          obtain ⟨w, htakes, rfl⟩ := (h.mem_candidates_iff hcands).1 hcand
          exact ⟨row, hrow, w :: walks, .cons htakes hunify hjoins⟩
        · rintro ⟨row, hrow, _, hjoins⟩
          cases hjoins with
          | @cons _ row' _ _ w _ walks htakes hunify hjoins =>
              exact ⟨row', Snapshot.mem_joinRows.2 ⟨row, hrow, w.row p,
                (h.mem_candidates_iff hcands).2 ⟨w, htakes, rfl⟩, hunify⟩, walks, hjoins⟩
      rw [← hstep]
      by_cases hempty : joinRows rows cands = []
      · -- the loop ends at an empty join, from which nothing joins
        rw [if_pos hempty] at hr
        cases hr
        simp [hempty]
      · rw [if_neg hempty] at hr
        exact ih hr

end Taken

/-! ## Live entities -/

/-- The entity is one that the graph holds under its id. -/
def Binding.Live (g : PropertyGraph) : Binding → Prop
  | .node n => g.nodes.lookup n.id = some n
  | .edge d => g.edges.lookup d.id = some d

/-- Kind and id determine a live entity. -/
theorem Binding.Live.eq {g : PropertyGraph} {b b' : Binding} (h : b.Live g) (h' : b'.Live g)
    (hkind : b.isNode = b'.isNode) (hid : b.id = b'.id) : b = b' := by
  cases b with
  | node n =>
      cases b' with
      | edge d => cases hkind
      | node n' =>
          have hid : n.id = n'.id := hid
          have h' : g.nodes.lookup n'.id = some n' := h'
          rw [← hid, show g.nodes.lookup n.id = some n from h] at h'
          rw [Option.some.inj h']
  | edge d =>
      cases b' with
      | node n => cases hkind
      | edge d' =>
          have hid : d.id = d'.id := hid
          have h' : g.edges.lookup d'.id = some d' := h'
          rw [← hid, show g.edges.lookup d.id = some d from h] at h'
          rw [Option.some.inj h']

section Occurrences

variable {g : PropertyGraph} {params : Params} {whereClause : Option Expr} {p : Pattern} {w : Walk}
  {s : Node} {hops : List (EdgePattern × NodePattern)} {steps : List (Edge × Node)}

theorem Follows.live (h : Follows g params s hops steps) :
    ∀ occurrence ∈ stepBindings hops steps, occurrence.2.Live g := by
  induction h with
  | nil s => simp [stepBindings]
  | cons hprops hop _ ih =>
      intro occurrence hmem
      rcases List.mem_cons.1 hmem with rfl | hmem
      · exact hop.edge
      · rcases List.mem_cons.1 hmem with rfl | hmem
        · exact hop.target
        · exact ih occurrence hmem

theorem Walk.Takes.live_bindings (h : w.Takes g params whereClause p) :
    ∀ occurrence ∈ w.bindings p, occurrence.2.Live g := by
  intro occurrence hmem
  rcases List.mem_cons.1 hmem with rfl | hmem
  · exact h.live
  · exact h.follows.live occurrence hmem

theorem Walk.live_row (h : w.Takes g params whereClause p) {x : String} {b : Binding}
    (hb : (w.row p)[x]? = some b) : b.Live g := by
  rcases mem_of_getElem?_insertAll hb with hb | hmem
  · simp at hb
  · exact h.live_bindings _ hmem

theorem Follows.names (h : Follows g params s hops steps) :
    (stepBindings hops steps).map Prod.fst = hops.flatMap hopVars := by
  induction h with
  | nil s => rfl
  | cons hprops hop _ ih => simp [stepBindings, hopVars, ih]

/-- The names that a walk binds are those of its pattern. -/
theorem Walk.Takes.names (h : w.Takes g params whereClause p) :
    (w.bindings p).map Prod.fst = p.vars := by
  simp [Walk.bindings, Pattern.vars, h.follows.names]

/-- Steps whose occurrences the row denotes satisfy the hops. -/
theorem Follows.chainHolds {row : Bindings} (h : Follows g params s hops steps) :
    ∀ {prevVar : String}, row[prevVar]? = some (.node s) →
      (∀ occurrence ∈ stepBindings hops steps, row[occurrence.1]? = some occurrence.2) →
      ChainHolds g params row prevVar hops := by
  induction h with
  | nil s => exact fun _ _ => trivial
  | @cons s t d edgePat targetPat inlineProps hops steps hprops hop _ ih =>
      intro prevVar hs hall
      have hd := hall (edgePat.var, .edge d) (by simp [stepBindings])
      have ht := hall (targetPat.var, .node t) (by simp [stepBindings])
      refine ⟨⟨inlineProps, s, d, t, hprops, hs, hd, ht, hop⟩, ih ht fun occurrence hmem => ?_⟩
      exact hall occurrence (by simp [stepBindings, hmem])

theorem Walk.Takes.patternHolds {row : Bindings} (h : w.Takes g params whereClause p)
    (hall : w.DenotedBy row p) : PatternHolds g params p row := by
  have hs := hall (p.start.var, .node w.start) List.mem_cons_self
  refine ⟨⟨w.start, hs, h.live, h.label⟩, h.follows.chainHolds hs fun occurrence hmem => ?_⟩
  exact hall occurrence (List.mem_cons_of_mem _ hmem)

/-- A row that satisfies the hops shows the steps. -/
theorem ChainHolds.exists_follows {row : Bindings} : ∀ {prevVar : String} {s : Node},
    ChainHolds g params row prevVar hops → row[prevVar]? = some (.node s) →
    ∃ steps, Follows g params s hops steps ∧
      ∀ occurrence ∈ stepBindings hops steps, row[occurrence.1]? = some occurrence.2 := by
  induction hops with
  | nil => exact fun {_ s} _ _ => ⟨[], .nil s, by simp [stepBindings]⟩
  | cons hop hops ih =>
      rintro prevVar s ⟨⟨inlineProps, s', d, t, hprops, hs', hd, ht, hhop⟩, hchain⟩ hs
      rw [hs] at hs'
      cases hs'
      obtain ⟨steps, hfollows, hall⟩ := ih hchain ht
      refine ⟨(d, t) :: steps, .cons hprops hhop hfollows, fun occurrence hmem => ?_⟩
      rcases List.mem_cons.1 hmem with rfl | hmem
      · exact hd
      · rcases List.mem_cons.1 hmem with rfl | hmem
        · exact ht
        · exact hall occurrence hmem

/-- A row that satisfies the pattern shows a walk that takes it. -/
theorem PatternHolds.exists_walk {row : Bindings} (h : PatternHolds g params p row)
    (hpin : Pinned whereClause params p.start.var row) :
    ∃ w : Walk, w.Takes g params whereClause p ∧ w.DenotedBy row p := by
  obtain ⟨⟨n, hn, hlive, hlabel⟩, hchain⟩ := h
  obtain ⟨steps, hfollows, hall⟩ := hchain.exists_follows hn
  refine ⟨⟨n, steps⟩, ⟨hlive, hlabel, fun id hid => hpin id hid (.node n) hn, hfollows⟩, ?_⟩
  intro occurrence hmem
  rcases List.mem_cons.1 hmem with rfl | hmem
  · exact hn
  · exact hall occurrence hmem

end Occurrences

/-! ## Walks that keep what they bind -/

section Joined

variable {g : PropertyGraph} {params : Params} {whereClause : Option Expr}
  {patterns : List Pattern} {walks : List Walk} {row out : Bindings}

namespace Joins

/-- The row that a join starts from is kept: the left binding has the say. -/
theorem within (h : Joins g params whereClause row patterns walks out) : Within row out := by
  induction h with
  | nil row => exact fun _ _ hb => hb
  | cons _ hunify _ ih =>
      obtain ⟨-, rfl⟩ := unifyBindings_eq_some_iff.1 hunify
      exact fun x b hb => ih x b (within_merge_left _ _ x b hb)

/-- The last row binds the names of the first one and the variables of the patterns. -/
theorem mem_iff (h : Joins g params whereClause row patterns walks out) {x : String} :
    x ∈ out ↔ x ∈ row ∨ x ∈ patterns.flatMap Pattern.vars := by
  induction h with
  | nil row => simp
  | cons htakes hunify _ ih =>
      obtain ⟨-, rfl⟩ := unifyBindings_eq_some_iff.1 hunify
      rw [ih, mem_merge_iff, Walk.row, mem_insertAll_iff, htakes.names, List.flatMap_cons,
        List.mem_append]
      simp [or_assoc]

theorem binds (h : Joins g params whereClause ∅ patterns walks out) :
    Binds out (patterns.flatMap Pattern.vars) := by
  intro x
  rw [h.mem_iff]
  simp

/-- Patterns whose occurrences all denote what the row binds hold of it. -/
theorem patternHolds {last : Bindings} (h : Joins g params whereClause row patterns walks out)
    (hall : List.Forall₂ (Walk.DenotedBy last) patterns walks) :
    ∀ p ∈ patterns, PatternHolds g params p last := by
  induction h with
  | nil row => simp
  | cons htakes _ _ ih =>
      obtain ⟨hw, hrest⟩ := List.forall₂_cons.1 hall
      intro q hq
      rcases List.mem_cons.1 hq with rfl | hq
      · exact htakes.patternHolds hw
      · exact ih hrest q hq

/-- Exactly when no insertion and no unification gives a name another entity, every occurrence
denotes what the last row binds. -/
theorem denotedBy_iff (h : Joins g params whereClause row patterns walks out)
    (hlive : ∀ (x : String) (b : Binding), row[x]? = some b → b.Live g) :
    List.Forall₂ (Walk.DenotedBy out) patterns walks ↔ Undisturbed row patterns walks := by
  induction h with
  | nil row => exact ⟨fun _ => trivial, fun _ => .nil⟩
  | @cons row row' out p w patterns walks htakes hunify hjoins ih =>
      obtain ⟨hids, hrow'⟩ := unifyBindings_eq_some_iff.1 hunify
      have hlive' : ∀ (x : String) (b : Binding), row'[x]? = some b → b.Live g := by
        intro x b hb
        rw [hrow', getElem?_merge, Option.or_eq_some_iff] at hb
        rcases hb with hb | ⟨-, hb⟩
        · exact hlive x b hb
        · exact Walk.live_row htakes hb
      have hkept : Within row out := fun x b hb =>
        hjoins.within x b (hrow' ▸ within_merge_left _ _ x b hb)
      rw [List.forall₂_cons]
      constructor
      · rintro ⟨hw, hrest⟩
        refine ⟨noRebinding_of_within (fun x b hb => by simp at hb) hw, fun x b b' hb hb' => ?_,
          fun row'' hunify' => ?_⟩
        · -- both bindings are in the last row, so they are the same
          rcases mem_of_getElem?_insertAll hb' with hb' | hmem
          · simp at hb'
          · rw [Option.some.inj ((hkept x b hb).symm.trans (hw _ hmem))]
        · rw [hunify] at hunify'
          cases hunify'
          exact (ih hlive').1 hrest
      · rintro ⟨hfree, hkinds, hrest⟩
        refine ⟨fun occurrence hmem => hjoins.within _ _ ?_, (ih hlive').2 (hrest row' hunify)⟩
        have hb' : (w.row p)[occurrence.1]? = some occurrence.2 := hfree.keeps.2 occurrence hmem
        rw [hrow', getElem?_merge]
        cases hb : row[occurrence.1]? with
        | none => rw [Option.none_or, hb']
        | some b =>
            -- the left binding is kept, and it is the same entity
            have heq := (hlive _ b hb).eq (Walk.live_row htakes hb') (hkinds _ b _ hb hb')
              (hids _ b _ hb hb')
            rw [Option.some_or, heq]

end Joins

/-- The walks of the fast path are those of plain scans that start at the ids `WHERE` fixes. -/
theorem joins_iff_pinned : Joins g params whereClause row patterns walks out ↔
    Joins g params none row patterns walks out ∧
      List.Forall₂ (fun p w => w.StartsPinned params whereClause p) patterns walks := by
  constructor
  · intro h
    induction h with
    | nil row => exact ⟨.nil row, .nil⟩
    | cons htakes hunify _ ih =>
        have hscan : Walk.Takes g params none _ _ :=
          ⟨htakes.live, htakes.label, fun id hid => (nomatch hid), htakes.follows⟩
        exact ⟨.cons hscan hunify ih.1, .cons htakes.pinned ih.2⟩
  · rintro ⟨h, hpinned⟩
    induction h with
    | nil row => exact .nil row
    | cons htakes hunify _ ih =>
        obtain ⟨hpin, hrest⟩ := List.forall₂_cons.1 hpinned
        exact .cons ⟨htakes.live, htakes.label, hpin, htakes.follows⟩ hunify (ih hrest)

/-- A row that satisfies the patterns shows walks that join, and to no more than the row. -/
theorem exists_joins_of_patternsHold {last : Bindings} : ∀ {row : Bindings}, Within row last →
    (∀ p ∈ patterns, PatternHolds g params p last) →
    (∀ p ∈ patterns, Pinned whereClause params p.start.var last) →
    ∃ walks out, Joins g params whereClause row patterns walks out ∧ Within out last ∧
      List.Forall₂ (Walk.DenotedBy last) patterns walks := by
  induction patterns with
  | nil => exact fun {row} hrow _ _ => ⟨[], row, .nil row, hrow, .nil⟩
  | cons p patterns ih =>
      intro row hrow hholds hpin
      obtain ⟨w, htakes, hdenoted⟩ := (hholds p List.mem_cons_self).exists_walk
        (hpin p List.mem_cons_self)
      have hwrow : Within (w.row p) last := by
        intro x b hb
        rcases mem_of_getElem?_insertAll hb with hb | hmem
        · simp at hb
        · exact hdenoted _ hmem
      obtain ⟨walks, out, hjoins, hout, hrest⟩ := ih (hrow.merge hwrow)
        (fun q hq => hholds q (List.mem_cons_of_mem p hq))
        (fun q hq => hpin q (List.mem_cons_of_mem p hq))
      -- both rows are part of the last one, so they agree on the names they share
      have hunify : unifyBindings row (w.row p) = some (merge row (w.row p)) := by
        refine unifyBindings_eq_some_iff.2 ⟨fun x v v' hv hv' => ?_, rfl⟩
        rw [Option.some.inj ((hrow x v hv).symm.trans (hwrow x v' hv'))]
      exact ⟨w :: walks, out, .cons htakes hunify hjoins, hout, .cons hdenoted hrest⟩

/-- A row over the variables of the patterns satisfies them exactly when undisturbed walks join to
it. -/
theorem patternsHold_iff (hbinds : Binds row (patterns.flatMap Pattern.vars))
    (hpin : ∀ p ∈ patterns, Pinned whereClause params p.start.var row) :
    (∀ p ∈ patterns, PatternHolds g params p row) ↔
      ∃ walks, Joins g params whereClause ∅ patterns walks row ∧ Undisturbed ∅ patterns walks := by
  have hnone : ∀ (x : String) (b : Binding), (∅ : Bindings)[x]? = some b → b.Live g := by simp
  constructor
  · intro hholds
    have hstart : Within ∅ row := fun x b hb => by simp at hb
    obtain ⟨walks, out, hjoins, hout, hdenoted⟩ := exists_joins_of_patternsHold hstart hholds hpin
    -- the walks join to a part of the row that binds the same names
    obtain rfl := hout.eq hjoins.binds hbinds
    exact ⟨walks, hjoins, (hjoins.denotedBy_iff hnone).1 hdenoted⟩
  · rintro ⟨walks, hjoins, hfree⟩
    exact hjoins.patternHolds ((hjoins.denotedBy_iff hnone).2 hfree)

end Joined

/-! ## The rows of a query -/

/-- Which rows satisfy their patterns. On a reachable engine, every row of `find_match_rows` comes
from one walk for each pattern. The occurrences of the names along such walks denote what the row
binds exactly when no insertion rebinds a name to another entity and no unification takes a node and
an edge for one; and the row satisfies the patterns exactly when it comes from walks of this kind.
Of patterns that are well named this holds always. -/
theorem rows_satisfy_patterns_iff {σ : Type} [LawfulStorage σ] {P : Platform} {e : Engine σ}
    (h : Reach P e) :
    ∃ log, contents e.storage = header ++ encodeLog P log ∧ Agrees P e (PropertyGraph.ofLog log) ∧
      ∀ (patterns : List Pattern) (whereClause : Option Expr) (params : Params)
        (limit : Option Nat) (rows : List Bindings) (e' : Engine σ),
        findMatchRows P patterns whereClause params limit e = .ok rows e' → ∀ row ∈ rows,
        (∃ walks, Joins (PropertyGraph.ofLog log) params whereClause ∅ patterns walks row) ∧
        (∀ walks, Joins (PropertyGraph.ofLog log) params whereClause ∅ patterns walks row →
          (List.Forall₂ (Walk.DenotedBy row) patterns walks ↔ Undisturbed ∅ patterns walks)) ∧
        ((∀ p ∈ patterns, PatternHolds (PropertyGraph.ofLog log) params p row) ↔
          ∃ walks, Joins (PropertyGraph.ofLog log) params whereClause ∅ patterns walks row ∧
            Undisturbed ∅ patterns walks) ∧
        (WellNamed patterns →
          ∀ p ∈ patterns, PatternHolds (PropertyGraph.ofLog log) params p row) := by
  obtain ⟨log, hinv⟩ := h.inv
  refine ⟨log, by simpa [storeImage] using hinv.contents, hinv.toCore.agrees, ?_⟩
  intro patterns whereClause params limit out e' hr row hrow
  have heval := (hinv.toCore.backed.findMatchRows params whereClause patterns limit).eq_ok hr
  obtain ⟨rows, hrows, hfilter⟩ := exceptBind_eq_ok_iff.1 heval
  obtain ⟨hsub, haccepted, -⟩ := filterRows_ok hfilter
  obtain ⟨_, hstart, walks, hjoins⟩ := (hinv.toCore.faithful.mem_join_iff hrows).1
    (hsub.subset hrow)
  rw [List.mem_singleton.1 hstart] at hjoins
  refine ⟨⟨walks, hjoins⟩, fun walks' hjoins' => hjoins'.denotedBy_iff (by simp), ?_, ?_⟩
  · exact patternsHold_iff hjoins.binds fun p _ =>
      pinned_of_accepted (evalPredicate_eq_true_iff.1 (haccepted row hrow))
  · intro hnamed p hp
    obtain ⟨rows', hlists, hsub', -, -⟩ := findMatchRows_from hinv.toCore hnamed hr
    exact (((hlists.2 row).1 (hsub'.subset hrow)).2 p hp).1

/-- On two nodes and an edge, the row of `MATCH (a)-[r:L]->(b), (b:N) LIMIT 1` satisfies both
patterns and comes from undisturbed walks; `MATCH (a)-[r]->(a)` has a row, all of whose walks rebind
`a`. -/
theorem oneEdge_rows_and_walks :
    ∃ log rows e' rows' e'',
      findMatchRows bincode edgeAndTarget none ∅ (some 1) oneEdge = .ok rows e' ∧
      rows.length = 1 ∧
      (∀ row ∈ rows, (∀ p ∈ edgeAndTarget, PatternHolds (PropertyGraph.ofLog log) ∅ p row) ∧
        ∃ walks, Joins (PropertyGraph.ofLog log) ∅ none ∅ edgeAndTarget walks row ∧
          Undisturbed ∅ edgeAndTarget walks) ∧
      findMatchRows bincode [selfPath] none ∅ none oneEdge = .ok rows' e'' ∧
      ∃ row ∈ rows', ∃ walks, Joins (PropertyGraph.ofLog log) ∅ none ∅ [selfPath] walks row ∧
        ¬ Undisturbed ∅ [selfPath] walks := by
  have hlen : (resultRows
      (findMatchRows bincode edgeAndTarget none ∅ (some 1) oneEdge)).length = 1 := by
    decide +kernel
  have hself : ∃ row ∈ resultRows (findMatchRows bincode [selfPath] none ∅ none oneEdge),
      sourceAndNode row = some ("x", "y") := by decide +kernel
  obtain ⟨e', hr⟩ := resultRows_spec (List.ne_nil_of_length_eq_add_one hlen)
  obtain ⟨row, hmem, hrow⟩ := hself
  obtain ⟨e'', hr'⟩ := resultRows_spec (List.ne_nil_of_mem hmem)
  obtain ⟨log, -, -, hall⟩ := rows_satisfy_patterns_iff reach_oneEdge
  refine ⟨log, _, e', _, e'', hr, hlen, fun row' hrow' => ?_, hr', row, hmem, ?_⟩
  · obtain ⟨-, -, hiff, hnamed⟩ := hall _ _ _ _ _ e' hr row' hrow'
    have hholds := hnamed wellNamed_edgeAndTarget
    exact ⟨hholds, hiff.1 hholds⟩
  · obtain ⟨⟨walks, hjoins⟩, -, hiff, -⟩ := hall _ _ _ _ _ e'' hr' row hmem
    refine ⟨walks, hjoins, fun hfree => ?_⟩
    exact not_holds_selfPath hrow _ (hiff.2 ⟨walks, hjoins, hfree⟩ selfPath (by simp))

end Morceau
