import Morceau.Query.Limits
import Morceau.Query.Ordering

/-!
# Queries and the order of the hash maps

Two engines hold the same content when their indexes are read back as the same maps, their buckets
are the same sets, and their schema and flags are equal (`Holds`); the orders in which they
enumerate their hash maps may differ. Their snapshots then differ in the order of the lists only
(`Snapshot.Reordered`), and every stage of `MATCH ... RETURN` without a limit takes lists that
differ in their order to outcomes that do: both fail, or both succeed with the same rows in some
order (`Lib.Alike`). A sort by pairwise different keys of one type makes the rows the same.
-/

set_option autoImplicit false

namespace Morceau

open Lib LawfulStorage Interpreter

/-! ## Content -/

/-- The logical content of an engine: the two maps and the schema, the buckets as sets, and the
flags. -/
structure Content where
  graph : PropertyGraph
  byLabel : String → Set String
  byFrom : String → Set String
  byTo : String → Set String
  flag : String → Bool

/-- The engine holds the content, in whatever order. -/
structure Holds {σ : Type} [LawfulStorage σ] (P : Platform) (e : Engine σ) (c : Content) :
    Prop where
  backed : Backed P e c.graph
  byLabel : ∀ k id, id ∈ Buckets.bucket e.edgeByLabel k ↔ id ∈ c.byLabel k
  byFrom : ∀ k id, id ∈ Buckets.bucket e.edgesByFrom k ↔ id ∈ c.byFrom k
  byTo : ∀ k id, id ∈ Buckets.bucket e.edgesByTo k ↔ id ∈ c.byTo k
  schema : e.currentSchema = c.graph.schema
  flags : ∀ id, e.isForeshadow id = c.flag id

/-- A reachable engine holds the graph of its log and the buckets of the edges in it. -/
theorem Reach.holds {σ : Type} [LawfulStorage σ] {P : Platform} {e : Engine σ} (h : Reach P e) :
    ∃ c, Holds P e c := by
  obtain ⟨log, hinv⟩ := h.inv
  have hcore := hinv.toCore
  exact ⟨⟨PropertyGraph.ofLog log, fun k => {id | id ∈ Buckets.bucket e.edgeByLabel k},
    fun k => {id | id ∈ Buckets.bucket e.edgesByFrom k},
    fun k => {id | id ∈ Buckets.bucket e.edgesByTo k}, e.isForeshadow⟩,
    hcore.backed, fun _ _ => Iff.rfl, fun _ _ => Iff.rfl, fun _ _ => Iff.rfl,
    hcore.consistent.schema, fun _ => rfl⟩

section Shuffles

variable {σ : Type} [LawfulStorage σ] {P : Platform} {e e' : Engine σ} {c : Content}

/-- The engines differ in the enumeration order of their hash maps and sets only. -/
structure Shuffled (e e' : Engine σ) : Prop where
  storage : e'.storage = e.storage
  nodeIndex : e'.nodeIndex.entries.Perm e.nodeIndex.entries
  edgeIndex : e'.edgeIndex.entries.Perm e.edgeIndex.entries
  byLabel : ∀ k id, id ∈ Buckets.bucket e'.edgeByLabel k ↔ id ∈ Buckets.bucket e.edgeByLabel k
  byFrom : ∀ k id, id ∈ Buckets.bucket e'.edgesByFrom k ↔ id ∈ Buckets.bucket e.edgesByFrom k
  byTo : ∀ k id, id ∈ Buckets.bucket e'.edgesByTo k ↔ id ∈ Buckets.bucket e.edgesByTo k
  schema : e'.currentSchema = e.currentSchema

/-- A record is read from the store alone. -/
theorem readOpAt_of_storage {entry : IndexEntry} {op : Option MutationOp} {e₁ e₂ : Engine σ}
    (h : Engine.readOpAt P entry e₁ = .ok op e₂) (hs : e'.storage = e₁.storage) :
    Engine.readOpAt P entry e' = .ok op { e' with storage := e₂.storage } := by
  unfold Engine.readOpAt at h ⊢
  -- the read of the bytes and the decoder are the only steps, and neither looks at an index
  obtain ⟨bytes, e₃, hread, h⟩ := bind_eq_ok_iff.1 h
  unfold Engine.liftStorage at hread
  cases hr : Storage.readAt entry.offset (lenPrefixBytes + entry.payloadLen) e₁.storage with
  | error err s =>
      rw [hr] at hread
      cases hread
  | ok bs s =>
      rw [hr] at hread
      cases hread
      rw [bind_of_ok (Engine.liftStorage_of_ok (hs ▸ hr))]
      obtain ⟨decoded, e₄, hdecode, h⟩ := bind_eq_ok_iff.1 h
      cases hd : decodeFramed P bytes with
      | error err =>
          rw [hd] at hdecode
          cases hdecode
      | ok found =>
          rw [hd] at hdecode
          cases hdecode
          rw [bind_of_ok (Engine.liftRecord_ok decoded _)]
          cases decoded with
          | none => cases h
          | some m =>
              cases h
              rfl

theorem ReadsBack.of_storage {entry : IndexEntry} {op : MutationOp} (hs : e'.storage = e.storage)
    (h : ReadsBack P e entry op) : ReadsBack P e' entry op := by
  intro e₁ hq
  -- the same reads of the store, seen from the other engine
  have hq₀ : Quiet e { e with storage := e₁.storage } := ⟨rfl, hs ▸ hq.reads⟩
  obtain ⟨e₂, hread, -⟩ := h _ hq₀
  have hread' : Engine.readOpAt P entry e₁ = .ok (some op) { e₁ with storage := e₂.storage } :=
    readOpAt_of_storage hread rfl
  exact ⟨_, hread', (Engine.quiet_readOpAt entry).ok hread'⟩

/-- Looking up in a reordered hash map. -/
theorem lookup_of_perm {m m' : HashMap String IndexEntry} (h : m'.entries.Perm m.entries)
    (id : String) : m'.lookup id = m.lookup id := by
  refine Option.ext fun entry => ?_
  rw [← HashMap.mem_entries_iff, ← HashMap.mem_entries_iff]
  exact h.mem_iff

/-- A shuffled engine holds the same content. -/
theorem Holds.shuffled (h : Holds P e c) (hs : Shuffled e e') : Holds P e' c where
  backed := by
    have hn := lookup_of_perm hs.nodeIndex
    have he := lookup_of_perm hs.edgeIndex
    refine ⟨⟨fun hl => ?_, fun hl => ?_⟩, ⟨fun hl => ?_, fun hl => ?_⟩⟩
    · obtain ⟨n, hn, hread⟩ := h.backed.nodes.of_some (by rwa [hn] at hl)
      exact ⟨n, hn, hread.of_storage hs.storage⟩
    · exact h.backed.nodes.of_none (by rwa [hn] at hl)
    · obtain ⟨d, hd, hread⟩ := h.backed.edges.of_some (by rwa [he] at hl)
      exact ⟨d, hd, hread.of_storage hs.storage⟩
    · exact h.backed.edges.of_none (by rwa [he] at hl)
  byLabel k id := (hs.byLabel k id).trans (h.byLabel k id)
  byFrom k id := (hs.byFrom k id).trans (h.byFrom k id)
  byTo k id := (hs.byTo k id).trans (h.byTo k id)
  schema := hs.schema.trans h.schema
  flags id := by
    rw [← h.flags id]
    unfold Engine.isForeshadow
    rw [lookup_of_perm hs.nodeIndex, lookup_of_perm hs.edgeIndex]

end Shuffles

/-- The snapshots differ in the order of their lists only. -/
structure Snapshot.Reordered (S S' : Snapshot) : Prop where
  graph : S.graph = S'.graph
  nodes : S.nodes.Perm S'.nodes
  edgesFrom : ∀ nodeId label, (S.edgesFrom nodeId label).Perm (S'.edgesFrom nodeId label)

section Two

variable {σ τ : Type} [LawfulStorage σ] [LawfulStorage τ] {P Q : Platform} {e : Engine σ}
  {e' : Engine τ} {c : Content}

theorem Holds.sameMetadata (h : Holds P e c) (h' : Holds Q e' c) : SameMetadata e e' where
  flags id := (h.flags id).trans (h'.flags id).symm
  schema := h.schema.trans h'.schema.symm

theorem Holds.reordered (h : Holds P e c) (h' : Holds Q e' c) :
    (e.snapshot c.graph).Reordered (e'.snapshot c.graph) where
  graph := rfl
  nodes := by
    refine List.Perm.filterMap _ ?_
    -- both list the live ids, each once
    rw [List.perm_ext_iff_of_nodup e.nodeIndex.keys_nodup e'.nodeIndex.keys_nodup]
    intro id
    rw [← AList.mem_keys, ← AList.mem_keys, h.backed.nodes.mem_iff, h'.backed.nodes.mem_iff]
  edgesFrom nodeId label := by
    refine List.Perm.filterMap _ ?_
    rw [List.perm_ext_iff_of_nodup (nodup_outgoingIds _ _ _) (nodup_outgoingIds _ _ _)]
    intro id
    simp only [mem_outgoingIds, h.byFrom, h'.byFrom, h.byLabel, h'.byLabel]

end Two

/-! ## The rows of the match -/

namespace Snapshot.Reordered

variable {S S' : Snapshot} (params : Params) (whereClause : Option Expr)

theorem startRows (h : S.Reordered S') (np : NodePattern) (found : Option String) :
    (S.startRows np found).Perm (S'.startRows np found) := by
  refine List.Perm.map _ (List.Perm.filter _ ?_)
  cases found with
  | none => exact h.nodes
  | some id =>
      rw [startNodes, startNodes, h.graph]

theorem hopRows (h : S.Reordered S') (prevVar : String) (edgePat : EdgePattern)
    (targetPat : NodePattern) (edgeProps : BTreeMap String Value) (row : Bindings) :
    (S.hopRows prevVar edgePat targetPat edgeProps row).Perm
      (S'.hopRows prevVar edgePat targetPat edgeProps row) := by
  unfold Snapshot.hopRows
  split
  · rw [h.graph]
    exact (h.edgesFrom _ _).filterMap _
  · exact List.Perm.refl _

theorem walk (h : S.Reordered S') (chain : List (EdgePattern × NodePattern)) :
    ∀ (prevVar : String) {rows rows' : List Bindings}, rows.Perm rows' →
      Alike List.Perm (S.walk params prevVar chain rows) (S'.walk params prevVar chain rows') := by
  induction chain with
  | nil => exact fun _ _ _ hrows => hrows
  | cons hop chain ih =>
      intro prevVar rows rows' hrows
      refine Alike.bind (R := Eq) (Alike.refl (fun _ => rfl) _) fun props props' _ _ heq => ?_
      subst heq
      exact ih _ (hrows.flatMap fun row _ => h.hopRows prevVar hop.1 hop.2 props row)

theorem candidates (h : S.Reordered S') (p : Pattern) :
    Alike List.Perm (S.candidates whereClause params p) (S'.candidates whereClause params p) := by
  refine Alike.bind (R := Eq) (Alike.refl (fun _ => rfl) _) fun found found' _ _ heq => ?_
  subst heq
  exact h.walk params p.hops _ (h.startRows p.start found)

theorem join (h : S.Reordered S') (patterns : List Pattern) :
    ∀ {rows rows' : List Bindings}, rows.Perm rows' →
      Alike List.Perm (S.join whereClause params patterns rows)
        (S'.join whereClause params patterns rows') := by
  induction patterns with
  | nil => exact fun hrows => hrows
  | cons p patterns ih =>
      intro rows rows' hrows
      refine Alike.bind (h.candidates params whereClause p) fun cands cands' _ _ hcands => ?_
      have hnext : (joinRows rows cands).Perm (joinRows rows' cands') :=
        hrows.flatMap fun row _ => hcands.filterMap _
      -- the loop ends early on both or on neither
      rw [hnext.isEmpty_eq]
      split
      · exact List.Perm.refl _
      · exact ih hnext

/-- The rows of `MATCH` are the same, in some order. -/
theorem matchRows {σ τ : Type} {e : Engine σ} {e' : Engine τ} (h : S.Reordered S')
    (hmeta : SameMetadata e e') (patterns : List Pattern) :
    Alike List.Perm (S.matchRows e patterns whereClause params none)
      (S'.matchRows e' patterns whereClause params none) := by
  refine Alike.bind (h.join params whereClause patterns (List.Perm.refl _))
    fun rows rows' _ _ hrows => ?_
  rw [hmeta.filterRows, filterRows_eq_collectLoop, filterRows_eq_collectLoop]
  exact collectLoop_alike _ hrows 0

end Snapshot.Reordered

/-! ## Sorting -/

section Sorts

/-- The key is of a type whose values the sort compares by their own order. -/
def Value.IsKey (t : String) (v : Value) : Prop :=
  t ∈ ["i64", "string", "bool", "timestamp"] ∧ v.typeName = t

/-- No key hides the order of two others. -/
theorem not_bridges {t : String} {a b c : Value} (ha : a.IsKey t) (hb : b.IsKey t) :
    ¬Bridges a b c := by
  obtain ⟨ht, rfl⟩ := ha
  obtain ⟨-, hb⟩ := hb
  rintro (⟨-, -, -, hkind⟩ | -)
  · cases a <;> cases b <;> simp [Value.typeName] at ht hb <;> exact hkind rfl
  · simp [Value.typeName] at hb

theorem naturalOrder_eq {t : String} {a b : Value} (ha : a.IsKey t) (hb : b.IsKey t)
    (h : naturalOrder a b = .eq) : a = b := by
  obtain ⟨ht, rfl⟩ := ha
  obtain ⟨-, hb⟩ := hb
  cases a <;> cases b <;> simp [Value.typeName] at ht hb <;>
    simp only [naturalOrder] at h <;> have h := Std.LawfulEqCmp.eq_of_compare h
  · rw [h]
  · rw [Int64.toInt_inj.1 h]
  · rw [h]
  · rw [Int64.toInt_inj.1 h]

variable {t : String} {dir : SortDirection} {a b v : Value}

theorem compareForSort_trans (ha : a.IsKey t) (hb : b.IsKey t)
    (hab : (compareForSort a b dir != .gt) = true) (hbv : (compareForSort b v dir != .gt) = true) :
    (compareForSort a v dir != .gt) = true := by
  rw [bne_iff_ne] at hab hbv ⊢
  exact (compareForSort_trans_iff dir a b v).2 (fun h => not_bridges ha hb h.2) hab hbv

theorem compareForSort_antisymm (ha : a.IsKey t) (hb : b.IsKey t)
    (hab : (compareForSort a b dir != .gt) = true) (hba : (compareForSort b a dir != .gt) = true) :
    a = b := by
  rw [compareForSort_swap dir b a] at hba
  refine naturalOrder_eq ha hb ?_
  cases dir with
  | asc =>
      rw [compareForSort] at hab hba
      cases h : naturalOrder a b <;> simp_all
  | desc =>
      rw [compareForSort] at hab hba
      cases h : naturalOrder a b <;> simp_all

end Sorts

section Ordered

variable {σ τ : Type} {e : Engine σ} {e' : Engine τ} {params : Params}

/-- The keys of the rows are pairwise different values of one type among `I64`, `String`, `Bool` and
`Timestamp`. -/
def DistinctKeys (e : Engine σ) (params : Params) (order : OrderBy) (rows : List Bindings) : Prop :=
  ∃ t keys, (rows.mapM fun row => evalExpr e row params order.expr) = .ok keys ∧ keys.Nodup ∧
    ∀ k ∈ keys, k.IsKey t

theorem keys_of_keyedRows {order : OrderBy} {rows : List Bindings} :
    ∀ {keyed : List (Value × Bindings)}, rows.mapM (keyedRow e params order) = .ok keyed →
      (rows.mapM fun row => evalExpr e row params order.expr) = .ok (keyed.map Prod.fst) := by
  induction rows with
  | nil =>
      intro keyed h
      cases h
      rfl
  | cons row rows ih =>
      intro keyed h
      rw [List.mapM_cons] at h
      obtain ⟨kr, hkr, h⟩ := exceptBind_eq_ok_iff.1 h
      obtain ⟨rest, hrest, h⟩ := exceptBind_eq_ok_iff.1 h
      obtain ⟨key, hkey, hkr⟩ := exceptBind_eq_ok_iff.1 hkr
      cases h
      cases hkr
      rw [List.mapM_cons, hkey, ih hrest]
      rfl

/-- The keys of the rows, if there are any, can be put in order. -/
def Orderable (e : Engine σ) (params : Params) (order : OrderBy) (rows : List Bindings) : Prop :=
  ∀ keys, (rows.mapM fun row => evalExpr e row params order.expr) = .ok keys →
    Unbridged order.direction keys

/-- On such rows every platform sorts stably. -/
theorem Orderable.sortBy {P : Platform} {order : OrderBy} {rows : List Bindings}
    {keyed keyed' : List (Value × Bindings)} (h : Orderable e params order rows)
    (hkeyed : rows.mapM (keyedRow e params order) = .ok keyed) (hperm : keyed.Perm keyed') :
    P.sortBy (fun a b => compareForSort a.1 b.1 order.direction) keyed' =
      some (keyed'.mergeSort fun a b => compareForSort a.1 b.1 order.direction != .gt) := by
  have htotal := unbridged_iff_totalOn.1 (h _ (keys_of_keyedRows hkeyed))
  exact P.sortBy_total (htotal.perm hperm)

theorem DistinctKeys.orderable {order : OrderBy} {rows : List Bindings}
    (h : DistinctKeys e params order rows) : Orderable e params order rows := by
  intro keys hkeys
  obtain ⟨t, keys', hkeys', -, htype⟩ := h
  cases hkeys.symm.trans hkeys'
  exact fun a ha b hb _ _ _ => not_bridges (htype a ha) (htype b hb)

/-- Rows whose keys can be put in order are the same in some order, and by distinct keys the
same. -/
theorem orderedRows_alike (hmeta : SameMetadata e e') (P Q : Platform) (orderBy : Option OrderBy)
    {rows rows' : List Bindings} (h : rows.Perm rows')
    (hkeys : ∀ order, orderBy = some order → Orderable e params order rows) :
    Alike (fun out out' => out.Perm out' ∧
        ∀ order, orderBy = some order → DistinctKeys e params order rows → out = out')
      (orderedRows P e orderBy params rows) (orderedRows Q e' orderBy params rows') := by
  cases orderBy with
  | none => exact ⟨h, fun order horder => by cases horder⟩
  | some order =>
      have hkeys := hkeys order rfl
      rw [orderedRows, orderedRows, ← hmeta.sortRows, sortRows_eq, sortRows_eq]
      refine (mapM_alike _ h).bind fun keyed keyed' hkeyed _ hperm => ?_
      rw [hkeys.sortBy hkeyed (List.Perm.refl _), hkeys.sortBy hkeyed hperm]
      refine ⟨List.Perm.map _ ?_, fun order' horder hdistinct => congrArg _ ?_⟩
      · exact (List.mergeSort_perm _ _).trans (hperm.trans (List.mergeSort_perm _ _).symm)
      · cases horder
        obtain ⟨t, keys, hkeys, hnodup, htype⟩ := hdistinct
        -- the given keys are those that the sort computes
        have hfst : keys = keyed.map Prod.fst :=
          Except.ok.inj (hkeys.symm.trans (keys_of_keyedRows hkeyed))
        subst hfst
        refine mergeSort_eq_of_perm (p := fun kr => kr.1.IsKey t)
          (fun a b v ha hb _ => ?_) (fun a b _ _ => compareForSort_total _ _ _) hperm
          (fun kr hkr => htype _ (List.mem_map_of_mem hkr)) fun a ha b hb hab hba => ?_
        · exact compareForSort_trans ha hb
        -- rows that compare as equal have one key, and no two rows share a key
        have hkey : a.1 = b.1 := compareForSort_antisymm (htype _ (List.mem_map_of_mem ha))
          (htype _ (List.mem_map_of_mem hb)) hab hba
        exact List.inj_on_of_nodup_map hnodup ha hb hkey

/-! ## Projections -/

/-- The cells of one column agree: a count is the same, and what is collected is the same in some
order. -/
def SameColumn : ReturnItem → ResultCell → ResultCell → Prop
  | .collect _, cell, cell' =>
      ∃ vs vs', cell = .value (.list vs) ∧ cell' = .value (.list vs') ∧ vs.Perm vs'
  | _, cell, cell' => cell = cell'

/-- The cells of a row of aggregates agree column by column. -/
def SameColumns : List ReturnItem → List ResultCell → List ResultCell → Prop
  | [], [], [] => True
  | item :: items, cell :: cells, cell' :: cells' =>
      SameColumn item cell cell' ∧ SameColumns items cells cells'
  | _, _, _ => False

/-- The cells of one aggregate. -/
def aggregateCell (e : Engine σ) (rows : List Bindings) :
    ReturnItem → Except InterpretError ResultCell
  | .count _ => .ok (ResultCell.value (.i64 (Int64.ofInt rows.length)))
  | .collect target => do
      let list ← rows.mapM fun bindings => collectOne e bindings target
      pure (ResultCell.value (.list list))
  | _ =>
      .error (.typeMismatch (.text
        "mixing aggregate and non-aggregate columns is not supported (alpha.4 has no GROUP BY)"))

theorem projectAggregateRow_eq (items : List ReturnItem) (rows : List Bindings) :
    projectAggregateRow e items rows = (do
      let row ← items.mapM (aggregateCell e rows)
      pure [row]) := by
  have hcell : (fun item => match item with
      | .count _ => .ok (ResultCell.value (.i64 (Int64.ofInt rows.length)))
      | .collect target => do
          let list ← rows.mapM fun bindings => collectOne e bindings target
          pure (ResultCell.value (.list list))
      | _ => .error (.typeMismatch (.text
          "mixing aggregate and non-aggregate columns is not supported (alpha.4 has no GROUP BY)"))) =
      aggregateCell e rows := by
    funext item
    cases item <;> rfl
  rw [← hcell]
  rfl

theorem aggregateCell_alike (hmeta : SameMetadata e e') {rows rows' : List Bindings}
    (h : rows.Perm rows') (item : ReturnItem) :
    Alike (SameColumn item) (aggregateCell e rows item) (aggregateCell e' rows' item) := by
  cases item with
  | var v => trivial
  | property var path => trivial
  | count target =>
      show ResultCell.value _ = ResultCell.value _
      rw [h.length_eq]
  | collect target =>
      simp only [aggregateCell, hmeta.collectOne]
      exact (mapM_alike _ h).bind fun vs vs' _ _ hperm => ⟨vs, vs', rfl, rfl, hperm⟩

theorem aggregateCells_alike (hmeta : SameMetadata e e') {rows rows' : List Bindings}
    (h : rows.Perm rows') (items : List ReturnItem) :
    Alike (SameColumns items) (items.mapM (aggregateCell e rows))
      (items.mapM (aggregateCell e' rows')) := by
  induction items with
  | nil => trivial
  | cons item items ih =>
      rw [List.mapM_cons, List.mapM_cons]
      refine (aggregateCell_alike hmeta h item).bind fun cell cell' _ _ hcell => ?_
      exact ih.bind fun cells cells' _ _ hcells => ⟨hcell, hcells⟩

/-- The rows of two results agree: without aggregates they are the same in some order, and a row of
aggregates agrees column by column. -/
def SameRows (items : List ReturnItem) (out out' : List (List ResultCell)) : Prop :=
  if items.any isAggregate then
    ∃ row row', out = [row] ∧ out' = [row'] ∧ SameColumns items row row'
  else out.Perm out'

theorem projectedRows_alike (hmeta : SameMetadata e e') {rows rows' : List Bindings}
    (h : rows.Perm rows') (items : List ReturnItem) :
    Alike (SameRows items) (projectedRows e items none rows)
      (projectedRows e' items none rows') := by
  unfold projectedRows SameRows
  cases hagg : items.any isAggregate with
  | true =>
      simp only [if_true, projectAggregateRow_eq]
      exact (aggregateCells_alike hmeta h items).bind fun row row' _ _ hrow =>
        ⟨row, row', rfl, rfl, hrow⟩
  | false =>
      simp only [Bool.false_eq_true, if_false]
      rw [hmeta.projectRows, projectRows_eq_collectLoop, projectRows_eq_collectLoop]
      exact collectLoop_alike _ h 0

end Ordered

/-! ## Statements -/

section Statements

variable {σ τ : Type} [LawfulStorage σ] [LawfulStorage τ] {P Q : Platform} {e : Engine σ}
  {e' : Engine τ} {c : Content}

/-- Both executions fail, or both succeed with related results. -/
def SameOutcome {σ τ : Type} (R : QueryResult → QueryResult → Prop) :
    EStateM.Result InterpretError (Engine σ) QueryResult →
      EStateM.Result InterpretError (Engine τ) QueryResult → Prop
  | .ok q _, .ok q' _ => R q q'
  | .error _ _, .error _ _ => True
  | _, _ => False

theorem Evaluates.sameOutcome {x : InterpretM σ QueryResult} {y : InterpretM τ QueryResult}
    {r r' : Except InterpretError QueryResult} {R : QueryResult → QueryResult → Prop}
    (hx : Evaluates x e r) (hy : Evaluates y e' r') (h : Alike R r r') :
    SameOutcome R (x e) (y e') := by
  obtain ⟨e₁, -, hx⟩ := hx
  obtain ⟨e₁', -, hy⟩ := hy
  rw [hx, hy]
  cases r with
  | ok q =>
      cases r' with
      | ok q' => exact h
      | error err => exact h.elim
  | error err =>
      cases r' with
      | ok q' => exact h.elim
      | error err' => trivial

/-- Answers do not depend on the order of the hash maps, as far as the rows can be sorted. On two
engines that hold the same content, a `MATCH ... RETURN` without a limit fails on both or succeeds
on both if it has no `ORDER BY`, or if no key of a matched row hides the order of two others. If it
succeeds on both, the columns are the same and the rows are the same in some order, where a row of
aggregates has the same counts and collects the same values in some order; and if the rows are
sorted by pairwise different keys of one type, the results are identical. -/
theorem answers_do_not_depend_on_order (h : Holds P e c) (h' : Holds Q e' c)
    (patterns : List Pattern) (whereClause : Option Expr) (items : List ReturnItem)
    (orderBy : Option OrderBy) (params : Params) :
    ((∀ order, orderBy = some order →
        ∀ rows e₁, findMatchRows P patterns whereClause params none e = .ok rows e₁ →
          Orderable e params order rows) →
      SameOutcome (fun _ _ => True)
        (execute P (.matchReturn patterns whereClause items orderBy none) params e)
        (execute Q (.matchReturn patterns whereClause items orderBy none) params e')) ∧
    ∀ q e₁ q' e₂,
      execute P (.matchReturn patterns whereClause items orderBy none) params e = .ok q e₁ →
      execute Q (.matchReturn patterns whereClause items orderBy none) params e' = .ok q' e₂ →
      q.columns = q'.columns ∧ SameRows items q.rows q'.rows ∧
        ∀ order, orderBy = some order →
          (∀ rows e₁, findMatchRows P patterns whereClause params none e = .ok rows e₁ →
            DistinctKeys e params order rows) → q = q' := by
  have hmeta := h.sameMetadata h'
  have heval := h.backed.execMatchReturn params whereClause patterns items orderBy none
  have heval' := h'.backed.execMatchReturn params whereClause patterns items orderBy none
  have hrows := (h.reordered h').matchRows params whereClause hmeta patterns
  have hfind := h.backed.findMatchRows params whereClause patterns none
  refine ⟨fun hkeys => heval.sameOutcome heval' ?_, fun q e₁ q' e₂ hq hq' => ?_⟩
  · -- the statement is a pure function of the snapshot, stage by stage
    unfold Snapshot.matchReturn
    rw [inlineLimit_none]
    refine hrows.bind fun rows rows' hmatch _ hperm => ?_
    obtain ⟨e₁, hmatch⟩ := hfind.ok_iff.2 hmatch
    refine (orderedRows_alike hmeta P Q orderBy hperm fun order horder =>
      hkeys order horder rows e₁ hmatch).bind fun ordered ordered' _ _ hordered => ?_
    exact (projectedRows_alike hmeta hordered.1 items).bind fun _ _ _ _ _ => trivial
  · obtain ⟨rows, ordered, hmatch, hordered, hout, hcols⟩ :=
      Snapshot.matchReturn_eq_ok_iff.1 (heval.ok_iff.1 ⟨e₁, hq⟩)
    obtain ⟨rows', ordered', hmatch', hordered', hout', hcols'⟩ :=
      Snapshot.matchReturn_eq_ok_iff.1 (heval'.ok_iff.1 ⟨e₂, hq'⟩)
    rw [inlineLimit_none] at hmatch hmatch'
    rw [hmatch, hmatch'] at hrows
    have hperm : rows.Perm rows' := hrows
    -- whatever the sorts have done, they have only moved the rows
    have hperm' : ordered.Perm ordered' :=
      (perm_of_orderedRows hordered).trans (hperm.trans (perm_of_orderedRows hordered').symm)
    have hsame := projectedRows_alike hmeta hperm' items
    rw [hout, hout'] at hsame
    refine ⟨hcols.trans hcols'.symm, hsame, fun order horder hdistinct => ?_⟩
    obtain ⟨e₁, hmatch⟩ := hfind.ok_iff.2 hmatch
    have halike := orderedRows_alike hmeta P Q orderBy hperm fun order' horder' => by
      cases horder.symm.trans horder'
      exact (hdistinct rows e₁ hmatch).orderable
    rw [hordered, hordered'] at halike
    have heq : ordered = ordered' := halike.2 order horder (hdistinct rows e₁ hmatch)
    rw [heq, hmeta.projectedRows, hout'] at hout
    exact QueryResult.eq_of_fields (hcols.trans hcols'.symm) (Except.ok.inj hout).symm

end Statements

/-- The engine with its node index enumerated the other way round. -/
def Engine.reversed (e : Engine MemoryStorage) : Engine MemoryStorage :=
  { e with
    nodeIndex := ⟨e.nodeIndex.entries.reverse,
      (List.perm_nodupKeys (List.reverse_perm _)).2 e.nodeIndex.nodupKeys⟩ }

theorem Holds.reversed {P : Platform} {e : Engine MemoryStorage} {c : Content}
    (h : Holds P e c) : Holds P e.reversed c :=
  h.shuffled ⟨rfl, List.reverse_perm _, List.Perm.refl _, fun _ _ => Iff.rfl, fun _ _ => Iff.rfl,
    fun _ _ => Iff.rfl, rfl⟩

/-- Two nodes. -/
def nodesInOrder : Engine MemoryStorage :=
  inMemory [.op (.insertNode (Node.new "a" "N")), .op (.insertNode (Node.new "b" "N"))]

/-- `MATCH (n) RETURN n` on the two enumerations of two nodes returns both nodes. -/
theorem answers_on_two_orders :
    nodesInOrder.reversed.nodeIndex.keys ≠ nodesInOrder.nodeIndex.keys ∧
      ∃ q q' e₁ e₂, execute bincode (returnNodes none) ∅ nodesInOrder = .ok q e₁ ∧
        execute bincode (returnNodes none) ∅ nodesInOrder.reversed = .ok q' e₂ ∧
        q.rows.length = 2 ∧ q.rows.Perm q'.rows := by
  obtain ⟨c, hc⟩ := Reach.holds (reach_inMemory (by decide +kernel) : Reach bincode nodesInOrder)
  obtain ⟨q, e₁, hq, hlen⟩ := rowCount_eq_some (n := 2)
    (by decide +kernel : rowCount (execute bincode (returnNodes none) ∅ nodesInOrder) = some 2)
  have hsame := answers_do_not_depend_on_order hc hc.reversed [.node ⟨"n", none, ∅⟩] none [.var "n"]
    none ∅
  -- there is nothing to sort by, so the other execution succeeds too
  have hother : SameOutcome (fun _ _ => True) (execute bincode (returnNodes none) ∅ nodesInOrder)
      (execute bincode (returnNodes none) ∅ nodesInOrder.reversed) :=
    hsame.1 fun order horder => by cases horder
  rw [hq] at hother
  cases hq' : execute bincode (returnNodes none) ∅ nodesInOrder.reversed with
  | error err e₂ =>
      rw [hq'] at hother
      exact hother.elim
  | ok q' e₂ =>
      exact ⟨by decide +kernel, q, q', e₁, e₂, hq, rfl, hlen, (hsame.2 q e₁ q' e₂ hq hq').2.1⟩

/-- A node with the property `p`. -/
def keyNode (id : String) (v : Value) : Node :=
  { Node.new id "N" with properties := (∅ : BTreeMap String Value).insert "p" v }

/-- Three nodes with the keys `1`, `"x"` and `2`, enumerated in this order. -/
def mixedNodes : Engine MemoryStorage :=
  inMemory [.op (.insertNode (keyNode "c" (.i64 2))), .op (.insertNode (keyNode "b" (.string "x"))),
    .op (.insertNode (keyNode "a" (.i64 1)))]

/-- `MATCH (a), (b), (c) RETURN a ORDER BY c.p`. -/
def mixedQuery : Statement :=
  .matchReturn [.node ⟨"a", none, ∅⟩, .node ⟨"b", none, ∅⟩, .node ⟨"c", none, ∅⟩] none [.var "a"]
    (some ⟨.property "c" ["p"], .asc⟩) none

/-- The error is a panic. -/
def InterpretError.isPanic : InterpretError → Bool
  | .panicked _ => true
  | _ => false

/-- The run has ended in a panic. -/
def endsInPanic {ε υ α : Type} (isPanic : ε → Bool) : EStateM.Result ε (Engine υ) α → Bool
  | .ok _ _ => false
  | .error err _ => isPanic err

/-- The sort of the 27 rows by the keys `1`, `"x"`, `2`, `1`, `"x"`, `2` and so on panics; by `2`,
`"x"`, `1` and so on it does not, since no key is below the one before it. -/
theorem sort_panics_on_one_order :
    (∃ c, Holds bincode mixedNodes c ∧ Holds bincode mixedNodes.reversed c) ∧
      (∃ message e', execute bincode mixedQuery ∅ mixedNodes = .error (.panicked message) e') ∧
      ∃ q e', execute bincode mixedQuery ∅ mixedNodes.reversed = .ok q e' ∧
        q.rows.length = 27 := by
  obtain ⟨c, hc⟩ := Reach.holds (reach_inMemory (by decide +kernel) : Reach bincode mixedNodes)
  refine ⟨⟨c, hc, hc.reversed⟩, ?_, ?_⟩
  · have hpanic : endsInPanic InterpretError.isPanic (execute bincode mixedQuery ∅ mixedNodes) =
        true := by decide +kernel
    revert hpanic
    cases execute bincode mixedQuery ∅ mixedNodes with
    | ok q e' => exact fun h => absurd h Bool.false_ne_true
    | error err e' =>
        cases err with
        | panicked message => exact fun _ => ⟨message, e', rfl⟩
        | _ => exact fun h => absurd h Bool.false_ne_true
  · exact rowCount_eq_some (by decide +kernel)

end Morceau
