import Morceau.Query.OrderIndependence

/-!
# What `ORDER BY` and aggregates make of the rows

`exec_match_return` matches once and then shapes the rows: it sorts them, and it projects each of
them or folds all of them into one row of aggregates. Both shapes are determined by the statement
without them. With `ORDER BY` a statement returns the rows that it returns without it, sorted by
the key and otherwise in the order they had, as long as the comparator is transitive on the keys. An
aggregate summarises the rows of a plain statement over the same match: `count` their number, and
`collect` the column of what it collects, in the same order. A limit has no effect on aggregates.
-/

set_option autoImplicit false

namespace Morceau

open Lib LawfulStorage Interpreter

section Shapes

variable {σ : Type} [Storage σ] {P : Platform} {e e' : Engine σ} {params : Params}
  {patterns : List Pattern} {whereClause : Option Expr} {items : List ReturnItem}
  {orderBy : Option OrderBy} {limit : Option Nat}

omit [Storage σ] in
/-- Without a limit every row is projected. -/
theorem projectRows_eq_ok_iff {rows : List Bindings} {out : List (List ResultCell)} :
    projectRows e items none 0 rows = .ok out ↔
      List.Forall₂ (fun row cells => items.mapM (project e row) = .ok cells) rows out := by
  rw [projectRows_eq_collectLoop, ← mapM_eq_ok_iff]
  generalize 0 = kept
  induction rows generalizing kept out with
  | nil => rfl
  | cons row rows ih =>
      rw [collectLoop_cons_eq_ok_iff, List.mapM_cons, exceptBind_eq_ok_iff]
      constructor
      · rintro ⟨r, rest, hr, hrest, rfl⟩
        obtain ⟨cells, hcells, hr⟩ := exceptBind_eq_ok_iff.1 hr
        cases hr
        exact ⟨cells, hcells, exceptBind_eq_ok_iff.2 ⟨rest, (ih _).1 hrest, rfl⟩⟩
      · rintro ⟨cells, hcells, h⟩
        obtain ⟨rest, hrest, h⟩ := exceptBind_eq_ok_iff.1 h
        cases h
        exact ⟨some cells, rest, exceptBind_eq_ok_iff.2 ⟨cells, hcells, rfl⟩, (ih _).2 hrest, rfl⟩

end Shapes

/-! ## Sorting -/

section Sorted

variable {σ : Type} {e : Engine σ} {params : Params} {order : OrderBy} {items : List ReturnItem}

/-- The key and the cells of a row. -/
structure KeyedCells (e : Engine σ) (params : Params) (order : OrderBy) (items : List ReturnItem)
    (row : Bindings) (kc : Value × List ResultCell) : Prop where
  key : evalExpr e row params order.expr = .ok kc.1
  cells : items.mapM (project e row) = .ok kc.2

/-- The order of rows by their keys. -/
def keyOrder {α : Type} (dir : SortDirection) (a b : Value × α) : Bool :=
  compareForSort a.1 b.1 dir != .gt

theorem keyOrder_iff {α : Type} {dir : SortDirection} {a b : Value × α} :
    keyOrder dir a b = true ↔ compareForSort a.1 b.1 dir ≠ .gt := bne_iff_ne

/-- On keys without bridges the sort is a stable sort. -/
theorem mergeSort_keyOrder {α : Type} {dir : SortDirection} {keyed : List (Value × α)}
    (h : Unbridged dir (keyed.map Prod.fst)) :
    (keyed.mergeSort (keyOrder dir)).Pairwise (fun a b => compareForSort a.1 b.1 dir ≠ .gt) ∧
      ∀ a b, [a, b].Sublist keyed → compareForSort a.1 b.1 dir ≠ .gt →
        [a, b].Sublist (keyed.mergeSort (keyOrder dir)) := by
  have horder := unbridged_iff_totalOn.1 h
  have htrans : ∀ a b c : Value × α, a ∈ keyed → b ∈ keyed → c ∈ keyed → keyOrder dir a b →
      keyOrder dir b c → keyOrder dir a c := by
    intro a b c ha hb hc hab hbc
    rw [keyOrder_iff] at hab hbc ⊢
    exact horder.trans a ha b hb c hc hab hbc
  have htotal : ∀ a b : Value × α, a ∈ keyed → b ∈ keyed → keyOrder dir a b || keyOrder dir b a :=
    fun a b _ _ => compareForSort_total dir a.1 b.1
  refine ⟨?_, fun a b hsub hab => ?_⟩
  · exact (pairwise_mergeSort_of_mem htrans htotal fun _ h => h).imp keyOrder_iff.1
  · exact pair_sublist_mergeSort_of_mem htrans htotal (fun _ h => h) (keyOrder_iff.2 hab) hsub

/-- The sorted rows and then their cells, or the cells and then the sorted rows. -/
theorem sort_then_project {P : Platform} {rows ordered : List Bindings}
    {out : List (List ResultCell)} (hsort : sortRows P e rows order params = .ok ordered)
    (hout : projectRows e items none 0 ordered = .ok out) :
    ∃ keyed sorted, List.Forall₂ (KeyedCells e params order items) rows keyed ∧
      out = sorted.map Prod.snd ∧ sorted.Perm keyed ∧
      (Unbridged order.direction (keyed.map Prod.fst) →
        sorted = keyed.mergeSort (keyOrder order.direction)) := by
  have hperm := perm_of_sortRows hsort
  obtain ⟨keyedRows, sortedRows, hkeyed, hsorted, rfl⟩ := sortRows_eq_ok_iff.1 hsort
  have hcells := mapM_eq_ok_iff.2 (projectRows_eq_ok_iff.1 hout)
  have hrow : ∀ row ∈ rows, ∃ kc, KeyedCells e params order items row kc := by
    intro row hrow
    obtain ⟨kr, -, hkr⟩ := mapM_ok hkeyed row hrow
    -- the row is among the sorted ones, so it was projected
    obtain ⟨cells, -, hproj⟩ := mapM_ok hcells row (hperm.mem_iff.2 hrow)
    exact ⟨(kr.1, cells), (keyedRow_eq_ok_iff.1 hkr).1, hproj⟩
  have : Nonempty (Value × List ResultCell) := ⟨.null, []⟩
  choose! f hf using hrow
  have hkeyedRows : keyedRows = rows.map fun row => ((f row).1, row) := by
    refine Except.ok.inj (hkeyed.symm.trans (mapM_eq_map fun row hrow => ?_))
    exact keyedRow_eq_ok_iff.2 ⟨(hf row hrow).key, rfl⟩
  refine ⟨rows.map f, (sortedRows.map Prod.snd).map f,
    List.forall₂_map_right_iff.2 (List.forall₂_same.2 hf), ?_, hperm.map f, fun hkeys => ?_⟩
  · refine Except.ok.inj (hcells.symm.trans ?_)
    rw [List.map_map]
    exact mapM_eq_map fun row hrow => (hf row (hperm.mem_iff.1 hrow)).cells
  · -- the platform sorts the rows by their keys, as the merge sort does
    have hfst : keyedRows.map Prod.fst = (rows.map f).map Prod.fst := by
      rw [hkeyedRows, List.map_map, List.map_map]
      rfl
    rw [← hfst] at hkeys
    rw [P.sortBy_total (unbridged_iff_totalOn.1 hkeys)] at hsorted
    rw [← Option.some.inj hsorted, hkeyedRows]
    let le : Bindings → Bindings → Bool := fun a b => keyOrder order.direction (f a) (f b)
    have hrows : ((rows.map fun row => ((f row).1, row)).mergeSort
        fun a b => compareForSort a.1 b.1 order.direction != .gt) =
          (rows.mergeSort le).map fun row => ((f row).1, row) := by
      rw [List.map_mergeSort]
      exact fun _ _ _ _ => rfl
    have hpairs : (rows.map f).mergeSort (keyOrder order.direction) =
        (rows.mergeSort le).map f := by
      rw [List.map_mergeSort]
      exact fun _ _ _ _ => rfl
    rw [hrows, hpairs, List.map_map, List.map_map]
    rfl

/-- Rows whose keys can be evaluated and put in order can be sorted. -/
theorem sortRows_succeeds {P : Platform} {rows : List Bindings}
    (h : ∀ row ∈ rows, ∃ v, evalExpr e row params order.expr = .ok v)
    (hkeys : Orderable e params order rows) :
    ∃ ordered, sortRows P e rows order params = .ok ordered := by
  have hpairs : ∀ row ∈ rows, ∃ kr, keyedRow e params order row = .ok kr := by
    intro row hmem
    obtain ⟨key, hkey⟩ := h row hmem
    exact ⟨(key, row), keyedRow_eq_ok_iff.2 ⟨hkey, rfl⟩⟩
  obtain ⟨keyed, hkeyed⟩ := mapM_succeeds hpairs
  exact ⟨_, sortRows_eq_ok_iff.2
    ⟨keyed, _, hkeyed, hkeys.sortBy hkeyed (List.Perm.refl _), rfl⟩⟩

/-- `ORDER BY` sorts the rows of the statement without it. A statement without aggregates that
succeeds with `ORDER BY` succeeds without it, and the key can be evaluated on every matched row; the
converse holds if no key of a matched row hides the order of two others. The statement then returns
the rows it returns without `ORDER BY`, in another order; and if no key hides the order of two
others, the keys are in order and rows that were in order already have kept their places. -/
theorem order_by_sorts_stably [Storage σ] {P : Platform} {patterns : List Pattern}
    {whereClause : Option Expr} (hplain : items.any isAggregate = false) :
    ((∀ rows e₁, findMatchRows P patterns whereClause params none e = .ok rows e₁ →
        Orderable e₁ params order rows) →
      (∃ q e', execute P (.matchReturn patterns whereClause items none none) params e = .ok q e' ∧
        ∀ rows e₁, findMatchRows P patterns whereClause params none e = .ok rows e₁ →
          ∀ row ∈ rows, ∃ v, evalExpr e₁ row params order.expr = .ok v) →
      ∃ q e', execute P (.matchReturn patterns whereClause items (some order) none) params e =
        .ok q e') ∧
    ∀ q e', execute P (.matchReturn patterns whereClause items (some order) none) params e =
        .ok q e' →
      ∃ rows keyed sorted, findMatchRows P patterns whereClause params none e = .ok rows e' ∧
        List.Forall₂ (KeyedCells e' params order items) rows keyed ∧
        execute P (.matchReturn patterns whereClause items none none) params e =
          .ok ⟨q.columns, keyed.map Prod.snd⟩ e' ∧
        q.rows = sorted.map Prod.snd ∧ sorted.Perm keyed ∧
        (Unbridged order.direction (keyed.map Prod.fst) →
          sorted.Pairwise (fun a b => compareForSort a.1 b.1 order.direction ≠ .gt) ∧
          ∀ a b, [a, b].Sublist keyed → compareForSort a.1 b.1 order.direction ≠ .gt →
            [a, b].Sublist sorted) := by
  refine ⟨?_, fun q e' h => ?_⟩
  · rintro horderable ⟨q, e', h, hkeys⟩
    obtain ⟨rows, _, hfind, hnone, hproj, hcols⟩ := execute_matchReturn_iff.1 h
    cases hnone
    rw [inlineLimit_none] at hfind
    obtain ⟨ordered, hsort⟩ := sortRows_succeeds (P := P) (hkeys rows e' hfind)
      (horderable rows e' hfind)
    have hperm := perm_of_sortRows hsort
    rw [projectedRows, if_neg (by simp [hplain]), projectRows_eq_ok_iff, ← mapM_eq_ok_iff] at hproj
    -- every row was projected in its old place
    have hcells : ∀ row ∈ ordered, ∃ cells, items.mapM (project e' row) = .ok cells := by
      intro row hrow
      obtain ⟨cells, -, hcells⟩ := mapM_ok hproj row (hperm.mem_iff.1 hrow)
      exact ⟨cells, hcells⟩
    obtain ⟨out, hout⟩ := mapM_succeeds hcells
    refine ⟨⟨q.columns, out⟩, e', execute_matchReturn_iff.2 ⟨rows, ordered, ?_, hsort, ?_, hcols⟩⟩
    · rwa [inlineLimit_none]
    · rw [projectedRows, if_neg (by simp [hplain]), projectRows_eq_ok_iff]
      exact mapM_eq_ok_iff.1 hout
  · obtain ⟨rows, ordered, hfind, hsort, hproj, hcols⟩ := execute_matchReturn_iff.1 h
    rw [inlineLimit_none] at hfind
    rw [projectedRows, if_neg (by simp [hplain])] at hproj
    obtain ⟨keyed, sorted, hkeyed, hrows, hperm, hstable⟩ := sort_then_project hsort hproj
    refine ⟨rows, keyed, sorted, hfind, hkeyed, ?_, hrows, hperm, fun hkeys => ?_⟩
    · refine execute_matchReturn_iff.2 ⟨rows, rows, by rwa [inlineLimit_none], rfl, ?_, hcols⟩
      rw [projectedRows, if_neg (by simp [hplain]), projectRows_eq_ok_iff,
        List.forall₂_map_right_iff]
      exact hkeyed.imp fun _ _ h => h.cells
    · rw [hstable hkeys]
      exact mergeSort_keyOrder hkeys

end Sorted

/-- `MATCH (n) RETURN n ORDER BY id(n) DESC`. -/
def nodesById : Statement :=
  .matchReturn [.node ⟨"n", none, ∅⟩] none [.var "n"] (some ⟨.idOf "n", .desc⟩) none

/-- On two nodes it returns both, and their ids descend. -/
theorem two_nodes_by_id :
    ∃ (q : QueryResult) (e' : Engine MemoryStorage) (sorted : List (Value × List ResultCell)),
      execute bincode nodesById ∅ nodesInOrder = .ok q e' ∧ q.rows = sorted.map Prod.snd ∧
      sorted.length = 2 ∧ sorted.Pairwise fun a b => compareForSort a.1 b.1 .desc ≠ .gt := by
  obtain ⟨q₀, e₀, hq₀, hlen⟩ := rowCount_eq_some (n := 2)
    (by decide +kernel : rowCount (execute bincode (returnNodes none) ∅ nodesInOrder) = some 2)
  -- every key is an id, so none hides the order of two others
  have hbound : (resultRows (findMatchRows bincode [.node ⟨"n", none, ∅⟩] none ∅ none
      nodesInOrder)).all (fun row => row["n"]?.isSome) = true := by decide +kernel
  have hids : ∀ rows e₁, findMatchRows bincode [.node ⟨"n", none, ∅⟩] none ∅ none nodesInOrder =
      .ok rows e₁ → ∀ row ∈ rows, ∃ id, evalExpr e₁ row ∅ (.idOf "n") = .ok (.string id) := by
    intro rows e₁ hfind row hrow
    rw [hfind] at hbound
    obtain ⟨b, hb⟩ := Option.isSome_iff_exists.1 (List.all_eq_true.1 hbound row hrow)
    exact ⟨b.id, by rw [evalExpr, hb]⟩
  have horderable : ∀ rows e₁, findMatchRows bincode [.node ⟨"n", none, ∅⟩] none ∅ none
      nodesInOrder = .ok rows e₁ → Orderable e₁ ∅ ⟨.idOf "n", .desc⟩ rows := by
    intro rows e₁ hfind keys hkeys
    have hstring : ∀ k ∈ keys, k.IsKey "string" := by
      intro k hk
      obtain ⟨row, hrow, hkey⟩ := mem_mapM hkeys k hk
      obtain ⟨id, hid⟩ := hids rows e₁ hfind row hrow
      rw [hid] at hkey
      cases hkey
      exact ⟨by decide, rfl⟩
    exact fun a ha b hb c _ _ => not_bridges (hstring a ha) (hstring b hb)
  obtain ⟨q, e', hq⟩ : ∃ q e', execute bincode nodesById ∅ nodesInOrder = .ok q e' := by
    refine (order_by_sorts_stably rfl).1 horderable
      ⟨q₀, e₀, hq₀, fun rows e₁ hfind row hrow => ?_⟩
    obtain ⟨id, hid⟩ := hids rows e₁ hfind row hrow
    exact ⟨_, hid⟩
  obtain ⟨rows, keyed, sorted, hfind, hkeyed, hplain, hrows, hperm, hsort⟩ :=
    (order_by_sorts_stably rfl).2 q e' hq
  refine ⟨q, e', sorted, hq, hrows, ?_, (hsort ?_).1⟩
  · have hsame : (⟨q.columns, keyed.map Prod.snd⟩ : QueryResult) = q₀ := by
      have heq := hplain.symm.trans hq₀
      cases heq
      rfl
    rw [← hsame] at hlen
    simpa [hperm.length_eq] using hlen
  · exact horderable rows e' hfind _
      (mapM_eq_ok_iff.2 (List.forall₂_map_right_iff.2 (hkeyed.imp fun _ _ h => h.key)))

/-! ## Aggregates -/

/-- What a collected target is as a column of its own. -/
def CollectTarget.item : CollectTarget → ReturnItem
  | .var x => .var x
  | .property x path => .property x path

/-- A cell as an element of a list: a record is collected as its id. -/
def ResultCell.collected : ResultCell → Value
  | .value v => v
  | .node n => .string n.id
  | .edge d => .string d.id

section Aggregates

variable {σ : Type} {e : Engine σ} {params : Params} {patterns : List Pattern}
  {whereClause : Option Expr} {items : List ReturnItem} {orderBy : Option OrderBy}

theorem collectOne_eq_ok_iff {row : Bindings} {target : CollectTarget} {v : Value} :
    collectOne e row target = .ok v ↔
      ∃ cell, project e row target.item = .ok cell ∧ cell.collected = v := by
  cases target with
  | var x => rcases hx : row[x]? with _ | n | d <;>
      simp [collectOne, project, CollectTarget.item, hx, ResultCell.collected, Binding.id]
  | property x path =>
      simp only [collectOne, project, CollectTarget.item, exceptBind_eq_ok_iff]
      constructor
      · intro h
        exact ⟨.value v, ⟨v, h, rfl⟩, rfl⟩
      · rintro ⟨cell, ⟨w, hw, hcell⟩, rfl⟩
        cases hcell
        exact hw

/-- The collected values are the cells of the column. -/
theorem mapM_collectOne_iff {target : CollectTarget} {rows : List Bindings} {list : List Value} :
    (rows.mapM fun row => collectOne e row target) = .ok list ↔
      ∃ out, projectRows e [target.item] none 0 rows = .ok out ∧
        list = out.flatten.map ResultCell.collected := by
  simp only [projectRows_eq_ok_iff, mapM_eq_ok_iff]
  induction rows generalizing list with
  | nil => simp
  | cons row rows ih =>
      constructor
      · intro h
        cases h with
        | cons hrow hrest =>
            obtain ⟨cell, hcell, rfl⟩ := collectOne_eq_ok_iff.1 hrow
            obtain ⟨out, hout, rfl⟩ := ih.1 hrest
            exact ⟨[cell] :: out, .cons (.cons hcell .nil) hout, by simp⟩
      · rintro ⟨out, h, rfl⟩
        cases h with
        | cons hrow hrest =>
            cases hrow with
            | cons hcell hnil =>
                cases hnil
                rw [List.flatten_cons, List.map_append]
                exact .cons (collectOne_eq_ok_iff.2 ⟨_, hcell, rfl⟩) (ih.2 ⟨_, hrest, rfl⟩)

/-- What an aggregate says about the rows of plain statements over the same match: the number of
their rows, or the column of what is collected. -/
inductive Summary [Storage σ] (P : Platform) (e : Engine σ) (patterns : List Pattern)
    (whereClause : Option Expr) (orderBy : Option OrderBy) (params : Params) :
    ReturnItem → ResultCell → Prop
  | count (target : Option String) {plain : List ReturnItem} {q : QueryResult} {e₁ : Engine σ} :
      plain.any isAggregate = false →
      execute P (.matchReturn patterns whereClause plain orderBy none) params e = .ok q e₁ →
      Summary P e patterns whereClause orderBy params (.count target)
        (.value (.i64 (Int64.ofInt q.rows.length)))
  | collect {target : CollectTarget} {q : QueryResult} {e₁ : Engine σ} :
      execute P (.matchReturn patterns whereClause [target.item] orderBy none) params e = .ok q e₁ →
      Summary P e patterns whereClause orderBy params (.collect target)
        (.value (.list (q.rows.flatten.map ResultCell.collected)))

theorem isAggregate_item (target : CollectTarget) : [target.item].any isAggregate = false := by
  cases target <;> rfl

variable [Storage σ] {P : Platform} {e' : Engine σ}

/-- A plain statement without a limit, once the match and the sort are known. -/
theorem execute_plain_iff {plain : List ReturnItem} (hplain : plain.any isAggregate = false)
    {rows ordered : List Bindings}
    (hfind : findMatchRows P patterns whereClause params none e = .ok rows e')
    (hordered : orderedRows P e' orderBy params rows = .ok ordered) {q : QueryResult}
    {e₁ : Engine σ} :
    execute P (.matchReturn patterns whereClause plain orderBy none) params e = .ok q e₁ ↔
      e₁ = e' ∧ projectRows e' plain none 0 ordered = .ok q.rows ∧
        q.columns = plain.map returnItemColumnName := by
  rw [execute_matchReturn_iff]
  simp only [inlineLimit_none, hfind, projectedRows, hplain]
  constructor
  · rintro ⟨rows', ordered', hfind', hordered', hproj, hcols⟩
    cases hfind'
    rw [hordered] at hordered'
    cases hordered'
    exact ⟨rfl, hproj, hcols⟩
  · rintro ⟨rfl, hproj, hcols⟩
    exact ⟨rows, ordered, rfl, hordered, hproj, hcols⟩

/-- An aggregate over the ordered rows of the match is a summary of plain statements. -/
theorem aggregateCell_iff {rows ordered : List Bindings}
    (hfind : findMatchRows P patterns whereClause params none e = .ok rows e')
    (hordered : orderedRows P e' orderBy params rows = .ok ordered) {item : ReturnItem}
    {cell : ResultCell} :
    aggregateCell e' ordered item = .ok cell ↔
      Summary P e patterns whereClause orderBy params item cell := by
  constructor
  · intro h
    cases item with
    | var v => cases h
    | property v path => cases h
    | count target =>
        cases h
        -- a statement without columns has one empty row for each match
        have hout : projectRows e' [] none 0 ordered = .ok (ordered.map fun _ => []) :=
          projectRows_eq_ok_iff.2
            (List.forall₂_map_right_iff.2 (List.forall₂_same.2 fun _ _ => rfl))
        have hcount := Summary.count (P := P) target rfl
          ((execute_plain_iff rfl hfind hordered (q := ⟨[], _⟩)).2 ⟨rfl, hout, rfl⟩)
        rwa [List.length_map] at hcount
    | collect target =>
        obtain ⟨list, hlist, hcell⟩ := exceptBind_eq_ok_iff.1 h
        cases hcell
        obtain ⟨out, hout, rfl⟩ := mapM_collectOne_iff.1 hlist
        exact .collect ((execute_plain_iff (isAggregate_item target) hfind hordered
          (q := ⟨[target.item].map returnItemColumnName, out⟩)).2 ⟨rfl, hout, rfl⟩)
  · intro h
    cases h with
    | count target hplain hexec =>
        obtain ⟨-, hout, -⟩ := (execute_plain_iff hplain hfind hordered).1 hexec
        rw [← (projectRows_eq_ok_iff.1 hout).length_eq]
        rfl
    | @collect target q e₁ hexec =>
        obtain ⟨-, hout, -⟩ :=
          (execute_plain_iff (isAggregate_item target) hfind hordered).1 hexec
        exact exceptBind_eq_ok_iff.2 ⟨_, mapM_collectOne_iff.2 ⟨q.rows, hout, rfl⟩, rfl⟩

/-- Aggregates summarise plain rows. A statement with an aggregate, under any limit and order,
returns `q` exactly if `q` is one row with a summary in each column: the number of rows of a plain
statement over the same match, or the column of what is collected. -/
theorem aggregates_summarise_plain_rows (hagg : items.any isAggregate = true) (limit : Option Nat)
    {q : QueryResult} :
    (∃ e', execute P (.matchReturn patterns whereClause items orderBy limit) params e = .ok q e') ↔
      q.columns = items.map returnItemColumnName ∧ ∃ cells, q.rows = [cells] ∧
        List.Forall₂ (Summary P e patterns whereClause orderBy params) items cells := by
  constructor
  · rintro ⟨e', h⟩
    obtain ⟨rows, ordered, hfind, hordered, hproj, hcols⟩ := execute_matchReturn_iff.1 h
    rw [inlineLimit_of_aggregate hagg] at hfind
    rw [projectedRows, if_pos hagg, projectAggregateRow_eq] at hproj
    obtain ⟨cells, hcells, hrow⟩ := exceptBind_eq_ok_iff.1 hproj
    refine ⟨hcols, cells, (Except.ok.inj hrow).symm, ?_⟩
    exact (mapM_eq_ok_iff.1 hcells).imp fun _ _ h => (aggregateCell_iff hfind hordered).1 h
  · rintro ⟨hcols, cells, hrow, hcells⟩
    -- the first summary shows that the match and the sort succeed
    obtain ⟨rows, ordered, e', hfind, hordered⟩ : ∃ rows ordered e',
        findMatchRows P patterns whereClause params none e = .ok rows e' ∧
        orderedRows P e' orderBy params rows = .ok ordered := by
      cases hcells with
      | nil => cases hagg
      | cons hfirst _ =>
          cases hfirst with
          | count target hplain hexec =>
              obtain ⟨rows, ordered, hfind, hordered, -⟩ := execute_matchReturn_iff.1 hexec
              rw [inlineLimit_none] at hfind
              exact ⟨rows, ordered, _, hfind, hordered⟩
          | collect hexec =>
              obtain ⟨rows, ordered, hfind, hordered, -⟩ := execute_matchReturn_iff.1 hexec
              rw [inlineLimit_none] at hfind
              exact ⟨rows, ordered, _, hfind, hordered⟩
    refine ⟨e', execute_matchReturn_iff.2 ⟨rows, ordered, ?_, hordered, ?_, hcols⟩⟩
    · rwa [inlineLimit_of_aggregate hagg]
    · rw [projectedRows, if_pos hagg, projectAggregateRow_eq, hrow]
      exact exceptBind_eq_ok_iff.2 ⟨cells, mapM_eq_ok_iff.2
        (hcells.imp fun _ _ h => (aggregateCell_iff hfind hordered).2 h), rfl⟩

end Aggregates

/-- `MATCH (n) RETURN count(*), collect(n)` on two nodes is one row with two summaries. -/
theorem count_and_collect_of_two_nodes :
    ∃ q e' cells, execute bincode
        (.matchReturn [.node ⟨"n", none, ∅⟩] none [.count none, .collect (.var "n")] none none) ∅
        nodesInOrder = .ok q e' ∧ q.rows = [cells] ∧
      List.Forall₂ (Summary bincode nodesInOrder [.node ⟨"n", none, ∅⟩] none none ∅)
        [.count none, .collect (.var "n")] cells := by
  obtain ⟨q, e', hq, -⟩ := rowCount_eq_some (n := 1)
    (by decide +kernel : rowCount (execute bincode
      (.matchReturn [.node ⟨"n", none, ∅⟩] none [.count none, .collect (.var "n")] none none) ∅
      nodesInOrder) = some 1)
  obtain ⟨-, cells, hrows, hall⟩ := (aggregates_summarise_plain_rows rfl none).1 ⟨e', hq⟩
  exact ⟨q, e', cells, hq, hrows, hall⟩

end Morceau
