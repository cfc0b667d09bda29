import Morceau.Engine.Recovery

/-!
# The reads agree with the abstract graph

The reads of an engine need only that its primary indexes are read back as the maps of a graph
(`Backed`): then every read succeeds, leaves the engine as it was and answers from the graph. A
listing read walks a list of ids; its answer is those ids looked up in the graph.

An engine that satisfies the invariant for a log is backed by the graph of the log, and the ids it
walks are known up to order, without repetition (`Core.mem_edgeIdsForLabel`,
`Core.mem_incidentIds`, ...).
-/

set_option autoImplicit false

namespace Morceau

open Lib LawfulStorage

/-- What a map holds under a list of ids, in the order of the list. -/
def listing {β : Type} (base : Finmap fun _ : String => β) (ids : List String) : List β :=
  ids.filterMap fun id => base.lookup id

theorem listing_cons_some {β : Type} {base : Finmap fun _ : String => β} {id : String} {b : β}
    (h : base.lookup id = some b) (ids : List String) :
    listing base (id :: ids) = b :: listing base ids := List.filterMap_cons_some h

theorem listing_cons_none {β : Type} {base : Finmap fun _ : String => β} {id : String}
    (h : base.lookup id = none) (ids : List String) :
    listing base (id :: ids) = listing base ids := List.filterMap_cons_none h

/-! ## Primary indexes -/

namespace Points

variable {β : Type} {P : Platform} {log : List Mutation} {mk : β → MutationOp} {idOf : β → String}
  {base : Finmap fun _ : String => β} {ix : HashMap String IndexEntry}

/-- The ids of an index are those of the map it points into. -/
theorem mem_iff (h : Points P log mk idOf base ix) (id : String) :
    id ∈ ix ↔ (base.lookup id).isSome := by
  constructor
  · intro hid
    obtain ⟨entry, hl⟩ := HashMap.lookup_of_mem hid
    obtain ⟨b, hb, -, -⟩ := h.of_some hl
    rw [hb]
    rfl
  · intro hsome
    by_contra hid
    rw [h.of_none (AList.lookup_eq_none.2 hid)] at hsome
    simp at hsome

/-- What the map holds under an id has that id, and its insert is where the entry points. -/
theorem entry_of_some (h : Points P log mk idOf base ix) {id : String} {b : β}
    (hb : base.lookup id = some b) :
    ∃ entry, ix.lookup id = some entry ∧ idOf b = id ∧ Located P log entry (mk b) := by
  obtain ⟨entry, hl⟩ := HashMap.lookup_of_mem ((h.mem_iff id).2 (by rw [hb]; rfl))
  obtain ⟨b', hb', hid, hat⟩ := h.of_some hl
  rw [hb] at hb'
  cases hb'
  exact ⟨entry, hl, hid, hat⟩

theorem idOf_eq (h : Points P log mk idOf base ix) {id : String} {b : β}
    (hb : base.lookup id = some b) : idOf b = id := by
  obtain ⟨-, -, hid, -⟩ := h.entry_of_some hb
  exact hid

/-- The index has as many entries as the map. -/
theorem length_entries (h : Points P log mk idOf base ix) :
    ix.entries.length = base.keys.card := by
  have hkeys : base.keys = ix.keys.toFinset := by
    ext id
    rw [List.mem_toFinset, ← AList.mem_keys, h.mem_iff, Finmap.mem_keys, Finmap.lookup_isSome]
  rw [hkeys, List.toFinset_card_of_nodup ix.keys_nodup, AList.keys, List.keys, List.length_map]

/-- Looking up distinct ids lists each value found once. -/
theorem nodup_listing (h : Points P log mk idOf base ix) {ids : List String} (hids : ids.Nodup) :
    (listing base ids).Nodup := by
  refine hids.filterMap fun a a' b hb hb' => ?_
  rw [← h.idOf_eq hb, ← h.idOf_eq hb']

/-- What is listed is what the map holds under the ids. -/
theorem mem_listing (h : Points P log mk idOf base ix) {ids : List String} {b : β} :
    b ∈ listing base ids ↔
      idOf b ∈ ids ∧ base.lookup (idOf b) = some b := by
  rw [listing, List.mem_filterMap]
  constructor
  · rintro ⟨id, hid, hb⟩
    rw [h.idOf_eq hb]
    exact ⟨hid, hb⟩
  · rintro ⟨hid, hb⟩
    exact ⟨_, hid, hb⟩

end Points

variable {σ : Type} [LawfulStorage σ] {P : Platform} {e : Engine σ} {log : List Mutation}

/-! ## Reading through an index -/

/-- The operation is read back at the entry, now and after any reads. -/
def ReadsBack (P : Platform) (e : Engine σ) (entry : IndexEntry) (op : MutationOp) : Prop :=
  ∀ e₁, Quiet e e₁ → ∃ e₂, Engine.readOpAt P entry e₁ = .ok (some op) e₂ ∧ Quiet e₁ e₂

/-- The index has the ids of the map, and each entry is read back as the insert (`mk`) of what the
map holds there. -/
structure BacksMap {β : Type} (P : Platform) (e : Engine σ) (mk : β → MutationOp)
    (base : Finmap fun _ : String => β) (ix : HashMap String IndexEntry) : Prop where
  of_some : ∀ {id entry}, ix.lookup id = some entry →
    ∃ b, base.lookup id = some b ∧ ReadsBack P e entry (mk b)
  of_none : ∀ {id}, ix.lookup id = none → base.lookup id = none

/-- The two primary indexes are read back as the maps of the graph. This is all that the reads of
an engine need. -/
structure Backed (P : Platform) (e : Engine σ) (g : PropertyGraph) : Prop where
  nodes : BacksMap P e MutationOp.nodeInsert g.nodes e.nodeIndex
  edges : BacksMap P e MutationOp.edgeInsert g.edges e.edgeIndex

section BacksMap

variable {β : Type} {mk : β → MutationOp} {base : Finmap fun _ : String => β}
  {ix : HashMap String IndexEntry}

theorem BacksMap.quiet {e' : Engine σ} (h : BacksMap P e mk base ix) (hq : Quiet e e') :
    BacksMap P e' mk base ix where
  of_some hl := by
    obtain ⟨b, hb, hread⟩ := h.of_some hl
    exact ⟨b, hb, fun e₁ h₁ => hread e₁ (Quiet.trans _ _ _ hq h₁)⟩
  of_none := h.of_none

theorem BacksMap.mem_iff (h : BacksMap P e mk base ix) (id : String) :
    id ∈ ix ↔ (base.lookup id).isSome := by
  cases hl : ix.lookup id with
  | none => simp [h.of_none hl, AList.lookup_eq_none.1 hl]
  | some entry =>
      obtain ⟨b, hb, -⟩ := h.of_some hl
      simp [hb, HashMap.mem_of_lookup hl]

/-- Reading a list of indexed ids gives what the map holds under them. -/
theorem BacksMap.collectOps (sel : MutationOp → Option β) (hsel : ∀ b, sel (mk b) = some b)
    (entries : List (Sigma fun _ : String => IndexEntry)) :
    ∀ {e : Engine σ}, BacksMap P e mk base ix → (∀ s ∈ entries, ix.lookup s.1 = some s.2) →
      ∃ e', Engine.collectOps P sel (entries.map Sigma.snd) e =
          .ok (listing base (entries.map Sigma.fst)) e' ∧ Quiet e e' := by
  induction entries with
  | nil => exact fun {e} _ _ => ⟨e, rfl, Quiet.refl e⟩
  | cons s rest ih =>
      intro e h hin
      obtain ⟨b, hb, hread⟩ := h.of_some (hin s (List.mem_cons_self ..))
      obtain ⟨e1, hr1, hq1⟩ := hread e (Quiet.refl e)
      obtain ⟨e2, hr2, hq2⟩ := ih (h.quiet hq1) fun t ht => hin t (List.mem_cons_of_mem _ ht)
      refine ⟨e2, ?_, Quiet.trans _ _ _ hq1 hq2⟩
      rw [List.map_cons, List.map_cons, Engine.collectOps, bind_of_ok hr1, bind_of_ok hr2,
        listing_cons_some hb, Option.bind_some, hsel]
      rfl

end BacksMap

namespace Backed

variable {g : PropertyGraph}

theorem quiet {e' : Engine σ} (h : Backed P e g) (hq : Quiet e e') : Backed P e' g := by
  have hnodes : e'.nodeIndex = e.nodeIndex := congrArg Indexes.nodeIndex hq.indexes
  have hedges : e'.edgeIndex = e.edgeIndex := congrArg Indexes.edgeIndex hq.indexes
  exact ⟨hnodes ▸ h.nodes.quiet hq, hedges ▸ h.edges.quiet hq⟩

theorem iterNodes (h : Backed P e g) :
    ∃ e', Engine.iterNodes P e = .ok (listing g.nodes e.nodeIndex.keys) e' ∧ Quiet e e' :=
  h.nodes.collectOps Engine.nodeOf (fun _ => rfl) e.nodeIndex.entries
    fun _ hs => HashMap.mem_entries_iff.1 hs

theorem iterEdges (h : Backed P e g) :
    ∃ e', Engine.iterEdges P e = .ok (listing g.edges e.edgeIndex.keys) e' ∧ Quiet e e' :=
  h.edges.collectOps Engine.edgeOf (fun _ => rfl) e.edgeIndex.entries
    fun _ hs => HashMap.mem_entries_iff.1 hs

theorem getNode (h : Backed P e g) (id : String) :
    ∃ e', Engine.getNode P id e = .ok (g.nodes.lookup id) e' ∧ Quiet e e' := by
  unfold Engine.getNode
  rw [bind_of_ok (get_apply e)]
  cases hl : e.nodeIndex.lookup id with
  | none =>
      rw [h.nodes.of_none hl]
      exact ⟨e, rfl, Quiet.refl e⟩
  | some entry =>
      obtain ⟨n, hn, hread⟩ := h.nodes.of_some hl
      obtain ⟨e1, hr, hq⟩ := hread e (Quiet.refl e)
      refine ⟨e1, ?_, hq⟩
      simp only
      rw [bind_of_ok hr, hn]
      rfl

theorem getEdge (h : Backed P e g) (id : String) :
    ∃ e', Engine.getEdge P id e = .ok (g.edges.lookup id) e' ∧ Quiet e e' := by
  unfold Engine.getEdge
  rw [bind_of_ok (get_apply e)]
  cases hl : e.edgeIndex.lookup id with
  | none =>
      rw [h.edges.of_none hl]
      exact ⟨e, rfl, Quiet.refl e⟩
  | some entry =>
      obtain ⟨d, hd, hread⟩ := h.edges.of_some hl
      obtain ⟨e1, hr, hq⟩ := hread e (Quiet.refl e)
      refine ⟨e1, ?_, hq⟩
      simp only
      rw [bind_of_ok hr, hd]
      rfl

theorem materializeEdges (ids : List String) : ∀ {e : Engine σ}, Backed P e g →
    ∃ e', Engine.materializeEdges P ids e = .ok (listing g.edges ids) e' ∧ Quiet e e' := by
  induction ids with
  | nil => exact fun {e} _ => ⟨e, rfl, Quiet.refl e⟩
  | cons id ids ih =>
      intro e h
      rw [Engine.materializeEdges, bind_of_ok (get_apply e)]
      cases hl : e.edgeIndex.lookup id with
      | none =>
          rw [listing_cons_none (h.edges.of_none hl)]
          exact ih h
      | some entry =>
          obtain ⟨d, hd, hread⟩ := h.edges.of_some hl
          obtain ⟨e1, hr1, hq1⟩ := hread e (Quiet.refl e)
          obtain ⟨e2, hr2, hq2⟩ := ih (h.quiet hq1)
          refine ⟨e2, ?_, Quiet.trans _ _ _ hq1 hq2⟩
          simp only
          rw [bind_of_ok hr1, bind_of_ok hr2, listing_cons_some hd]
          rfl

end Backed

/-! ## The outgoing edges of a node -/

section Outgoing

variable {τ : Type}

/-- The ids that `iter_edges_from` walks. -/
def Engine.outgoingIds (e : Engine τ) (nodeId : String) (label : Option String) : List String :=
  match e.edgesByFrom.lookup nodeId with
  | none => []
  | some fromSet =>
      match label with
      | some label =>
          match e.edgeByLabel.lookup label with
          | some labelSet => fromSet.intersection labelSet
          | none => []
      | none => fromSet.keys

theorem nodup_outgoingIds (e : Engine τ) (nodeId : String) (label : Option String) :
    (e.outgoingIds nodeId label).Nodup := by
  unfold Engine.outgoingIds
  split
  · exact List.nodup_nil
  · split
    · split
      · exact HashSet.nodup_intersection _ _
      · exact List.nodup_nil
    · exact AList.keys_nodup _

theorem mem_outgoingIds {e : Engine τ} {nodeId id : String} {label : Option String} :
    id ∈ e.outgoingIds nodeId label ↔ id ∈ Buckets.bucket e.edgesByFrom nodeId ∧
      ∀ l, label = some l → id ∈ Buckets.bucket e.edgeByLabel l := by
  unfold Engine.outgoingIds Buckets.bucket
  cases e.edgesByFrom.lookup nodeId with
  | none => simp
  | some fromSet =>
      cases label with
      | none => simp [AList.mem_keys]
      | some label =>
          simp only [Option.some.injEq, forall_eq']
          cases e.edgeByLabel.lookup label with
          | none => simp
          | some labelSet => exact HashSet.mem_intersection

theorem iterEdgesFrom_eq [Storage τ] (e : Engine τ) (nodeId : String) (label : Option String) :
    Engine.iterEdgesFrom P nodeId label e =
      Engine.materializeEdges P (e.outgoingIds nodeId label) e := by
  unfold Engine.iterEdgesFrom Engine.outgoingIds
  rw [bind_of_ok (get_apply e)]
  cases e.edgesByFrom.lookup nodeId with
  | none => rfl
  | some fromSet =>
      cases label with
      | none => rfl
      | some label =>
          simp only
          cases e.edgeByLabel.lookup label with
          | none => rfl
          | some labelSet => rfl

end Outgoing

/-! ## Reading under the invariant -/

namespace Core

theorem backed (h : Core P e log) : Backed P e (PropertyGraph.ofLog log) := by
  have hread : ∀ {entry op}, Located P log entry op → ReadsBack P e entry op := by
    intro entry op hat e₁ hq
    have h₁ := h.quiet hq
    exact readOpAt_reliable h₁.contents h₁.encodable h₁.reliable hat
  constructor
  · refine ⟨fun hl => ?_, h.consistent.nodes.of_none⟩
    obtain ⟨n, hn, -, hat⟩ := h.consistent.nodes.of_some hl
    exact ⟨n, hn, hread hat⟩
  · refine ⟨fun hl => ?_, h.consistent.edges.of_none⟩
    obtain ⟨d, hd, -, hat⟩ := h.consistent.edges.of_some hl
    exact ⟨d, hd, hread hat⟩

theorem iterNodes (h : Core P e log) :
    ∃ e', Engine.iterNodes P e =
        .ok (listing (PropertyGraph.ofLog log).nodes e.nodeIndex.keys) e' ∧
      Quiet e e' :=
  h.backed.iterNodes

theorem iterEdges (h : Core P e log) :
    ∃ e', Engine.iterEdges P e =
        .ok (listing (PropertyGraph.ofLog log).edges e.edgeIndex.keys) e' ∧
      Quiet e e' :=
  h.backed.iterEdges

theorem getNode (h : Core P e log) (id : String) :
    ∃ e', Engine.getNode P id e = .ok ((PropertyGraph.ofLog log).nodes.lookup id) e' ∧
      Quiet e e' :=
  h.backed.getNode id

theorem getEdge (h : Core P e log) (id : String) :
    ∃ e', Engine.getEdge P id e = .ok ((PropertyGraph.ofLog log).edges.lookup id) e' ∧
      Quiet e e' :=
  h.backed.getEdge id

/-! ## The ids of the secondary indexes -/

theorem mem_edgeIdsForLabel (h : Core P e log) (label id : String) :
    id ∈ e.edgeIdsForLabel label ↔
      ∃ d, (PropertyGraph.ofLog log).edges.lookup id = some d ∧ d.label = label := by
  rw [← h.consistent.byLabel.mem_iff label id]
  show _ ↔ id ∈ (e.edgeByLabel.lookup label).getD ∅
  unfold Engine.edgeIdsForLabel
  cases e.edgeByLabel.lookup label with
  | none => simp
  | some set => rfl

omit [LawfulStorage σ] in
theorem nodup_edgeIdsForLabel (e : Engine σ) (label : String) :
    (e.edgeIdsForLabel label).Nodup := by
  unfold Engine.edgeIdsForLabel
  cases e.edgeByLabel.lookup label with
  | none => exact List.nodup_nil
  | some set => exact set.keys_nodup

theorem iterEdgesByLabel (h : Core P e log) (label : String) :
    ∃ e', Engine.iterEdgesByLabel P label e =
        .ok (listing (PropertyGraph.ofLog log).edges (e.edgeIdsForLabel label)) e' ∧ Quiet e e' :=
  h.backed.materializeEdges _

theorem mem_incidentIds (h : Core P e log) (nodeId id : String) :
    id ∈ e.incidentIds nodeId ↔
      ∃ d, (PropertyGraph.ofLog log).edges.lookup id = some d ∧
        (d.fromId = nodeId ∨ d.toId = nodeId) := by
  have hfrom := h.consistent.byFrom.mem_iff nodeId id
  have hto := h.consistent.byTo.mem_iff nodeId id
  change id ∈ (e.edgesByFrom.lookup nodeId).getD ∅ ↔ _ at hfrom
  change id ∈ (e.edgesByTo.lookup nodeId).getD ∅ ↔ _ at hto
  have hids : id ∈ e.incidentIds nodeId ↔
      id ∈ (e.edgesByFrom.lookup nodeId).getD ∅ ∨ id ∈ (e.edgesByTo.lookup nodeId).getD ∅ := by
    unfold Engine.incidentIds
    cases e.edgesByFrom.lookup nodeId with
    | none =>
        cases e.edgesByTo.lookup nodeId with
        | none => simp
        | some set => simp [HashSet.mem_extend, ← AList.mem_keys]
    | some set =>
        cases e.edgesByTo.lookup nodeId with
        | none => simp [HashSet.mem_extend, ← AList.mem_keys]
        | some set' => simp [HashSet.mem_extend, ← AList.mem_keys]
  rw [hids, hfrom, hto]
  constructor
  · rintro (⟨d, hd, hk⟩ | ⟨d, hd, hk⟩)
    · exact ⟨d, hd, Or.inl hk⟩
    · exact ⟨d, hd, Or.inr hk⟩
  · rintro ⟨d, hd, hk | hk⟩
    · exact Or.inl ⟨d, hd, hk⟩
    · exact Or.inr ⟨d, hd, hk⟩

theorem iterEdgesIncidentTo (h : Core P e log) (nodeId : String) :
    ∃ e', Engine.iterEdgesIncidentTo P nodeId e =
        .ok (listing (PropertyGraph.ofLog log).edges (e.incidentIds nodeId).keys) e' ∧ Quiet e e' :=
  h.backed.materializeEdges _

theorem mem_outgoing (h : Core P e log) (nodeId : String) (label : Option String) (id : String) :
    id ∈ e.outgoingIds nodeId label ↔
      ∃ d, (PropertyGraph.ofLog log).edges.lookup id = some d ∧ d.fromId = nodeId ∧
        ∀ l, label = some l → d.label = l := by
  have hfrom : id ∈ Buckets.bucket e.edgesByFrom nodeId ↔ _ := h.consistent.byFrom.mem_iff nodeId id
  have hlabel : ∀ l, id ∈ Buckets.bucket e.edgeByLabel l ↔ _ :=
    fun l => h.consistent.byLabel.mem_iff l id
  simp only [mem_outgoingIds, hfrom, hlabel]
  constructor
  · rintro ⟨⟨d, hd, hk⟩, hlabels⟩
    refine ⟨d, hd, hk, fun l hl => ?_⟩
    obtain ⟨d', hd', hk'⟩ := hlabels l hl
    rw [hd] at hd'
    cases hd'
    exact hk'
  · rintro ⟨d, hd, hk, hlabels⟩
    exact ⟨⟨d, hd, hk⟩, fun l hl => ⟨d, hd, hlabels l hl⟩⟩

theorem iterEdgesFrom (h : Core P e log) (nodeId : String) (label : Option String) :
    ∃ e', Engine.iterEdgesFrom P nodeId label e =
        .ok (listing (PropertyGraph.ofLog log).edges (e.outgoingIds nodeId label)) e' ∧
      Quiet e e' := by
  rw [iterEdgesFrom_eq]
  exact h.backed.materializeEdges _

theorem hasNode (h : Core P e log) (id : String) :
    e.hasNode id = ((PropertyGraph.ofLog log).nodes.lookup id).isSome := by
  rw [Engine.hasNode, Bool.eq_iff_iff, decide_eq_true_iff]
  exact h.consistent.nodes.mem_iff id

theorem hasEdge (h : Core P e log) (id : String) :
    e.hasEdge id = ((PropertyGraph.ofLog log).edges.lookup id).isSome := by
  rw [Engine.hasEdge, Bool.eq_iff_iff, decide_eq_true_iff]
  exact h.consistent.edges.mem_iff id

end Core

end Morceau
