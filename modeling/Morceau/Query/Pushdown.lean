import Morceau.Query.Limits
import Morceau.Query.Walks

/-!
# The fast path and plain scans

`find_match_rows` looks for an equation with `id(v)` in `WHERE` before it enumerates the nodes for
the first variable `v` of a pattern, and evaluates the other side of the equation outside of any
row. Without `WHERE` there is no such equation, so the join by plain scans is the pattern loop
without `WHERE`.

The rows of the fast path are among those of the scans (`Snapshot.join_subset`), so evaluating
`WHERE` over them raises no error that it does not raise over the scans. What can fail is the search
itself: it meets a side that is not a constant before it finds an id. That is the only way
(`fast_path_succeeds_iff`).
-/

set_option autoImplicit false

namespace Morceau

open Lib LawfulStorage Interpreter

/-! ## The search for an id -/

/-- The conjuncts of an expression, from left to right. -/
def Expr.conjuncts : Expr → List Expr
  | .binary .and lhs rhs => lhs.conjuncts ++ rhs.conjuncts
  | expr => [expr]

/-- What an equation says `id(var)` is. -/
def Expr.idSide (var : String) : Expr → Option Expr
  | .binary .eq lhs rhs => idPredicateSide var lhs rhs
  | _ => none

/-- What the conjuncts of an expression say `id(var)` is. -/
def Expr.idSides (var : String) (expr : Expr) : List Expr := expr.conjuncts.filterMap (idSide var)

/-- The first string among constants; a side that is not a constant ends the search with an error.
-/
def firstId (params : Params) : List Expr → Except InterpretError (Option String)
  | [] => .ok none
  | side :: sides => do
      match ← evalConst params side with
      | .string s => .ok (some s)
      | _ => firstId params sides

section Search

variable {params : Params}

theorem firstId_append (pre post : List Expr) :
    firstId params (pre ++ post) = (do
      match ← firstId params pre with
      | some found => .ok (some found)
      | none => firstId params post) := by
  induction pre with
  | nil => rfl
  | cons side pre ih =>
      rw [List.cons_append, firstId, firstId]
      cases evalConst params side with
      | error err => rfl
      | ok v => cases v <;> first | rfl | exact ih

/-- `extract_id_in_expr` searches the sides in the order of the conjuncts. -/
theorem extractIdInExpr_eq_firstId (var : String) (expr : Expr) :
    extractIdInExpr var params expr = firstId params (expr.idSides var) := by
  fun_induction extractIdInExpr var params expr with
  | case1 lhs rhs hside => simp [Expr.idSides, Expr.conjuncts, Expr.idSide, hside, firstId]
  | case2 lhs rhs other hside =>
      have hsides : (Expr.binary .eq lhs rhs).idSides var = [other] := by
        simp [Expr.idSides, Expr.conjuncts, Expr.idSide, hside]
      rewrite [hsides, firstId]
      cases evalConst params other with
      | error err => rfl
      | ok v => cases v <;> rfl
  | case3 lhs rhs ihl ihr =>
      have hsides : (Expr.binary .and lhs rhs).idSides var =
          lhs.idSides var ++ rhs.idSides var := by
        simp [Expr.idSides, Expr.conjuncts]
      rewrite [hsides, firstId_append, ihl, ihr]
      rfl
  | case4 expr heq hand =>
      -- neither an equation nor a conjunction: its one conjunct says nothing about the id
      have hconj : expr.conjuncts = [expr] := by
        unfold Expr.conjuncts
        split
        · exact absurd rfl (hand _ _)
        · rfl
      have hside : expr.idSide var = none := by
        unfold Expr.idSide
        split
        · exact absurd rfl (heq _ _)
        · rfl
      simp [Expr.idSides, hconj, hside, firstId]

/-- The search succeeds exactly if every side up to the first string is a constant. -/
theorem firstId_succeeds_iff {sides : List Expr} :
    (∃ found, firstId params sides = .ok found) ↔
      ∀ pre side post, sides = pre ++ side :: post →
        (∀ x ∈ pre, ∀ s, evalConst params x ≠ .ok (.string s)) →
        ∃ v, evalConst params side = .ok v := by
  induction sides with
  | nil => simp [firstId]
  | cons side sides ih =>
      have hhead : firstId params (side :: sides) = (do
          match ← evalConst params side with
          | .string s => .ok (some s)
          | _ => firstId params sides) := rfl
      rw [hhead]
      constructor
      · rintro ⟨found, hfound⟩ pre x post hsplit hpre
        -- the side is the first one, or the search went past the first one
        obtain ⟨v, hv, hrest⟩ := exceptBind_eq_ok_iff.1 hfound
        cases pre with
        | nil =>
            cases hsplit
            exact ⟨v, hv⟩
        | cons y pre =>
            cases hsplit
            have hnot := hpre side (by simp)
            have hrest : firstId params (pre ++ x :: post) = .ok found := by
              cases v <;> first | exact hrest | exact absurd hv (hnot _)
            exact (ih.1 ⟨found, hrest⟩) pre x post rfl fun z hz => hpre z (by simp [hz])
      · intro h
        obtain ⟨v, hv⟩ := h [] side sides rfl (by simp)
        rw [hv]
        -- a string ends the search, and any other constant lets it go on
        by_cases hs : ∃ s, v = .string s
        · obtain ⟨s, rfl⟩ := hs
          exact ⟨some s, rfl⟩
        · have hrest : ∃ found, firstId params sides = .ok found := by
            refine ih.2 fun pre x post hsplit hpre => ?_
            refine h (side :: pre) x post (by rw [hsplit]; rfl) ?_
            intro y hy s hs'
            rcases List.mem_cons.1 hy with rfl | hy
            · rw [hv] at hs'
              exact hs ⟨s, Except.ok.inj hs'⟩
            · exact hpre y hy s hs'
          cases v <;> first | exact hrest | exact absurd ⟨_, rfl⟩ hs

/-- The fast path can evaluate what `WHERE` says the id of the variable is: up to the first string,
every side is a literal or a parameter that is given. -/
def Pushable (params : Params) (var : String) (whereClause : Option Expr) : Prop :=
  ∀ expr, whereClause = some expr → ∀ pre side post, expr.idSides var = pre ++ side :: post →
    (∀ x ∈ pre, ∀ s, evalConst params x ≠ .ok (.string s)) → ∃ v, evalConst params side = .ok v

theorem pushable_iff {var : String} {whereClause : Option Expr} :
    Pushable params var whereClause ↔
      ∃ found, extractIdPredicate var params whereClause = .ok found := by
  cases whereClause with
  | none => simp [Pushable, extractIdPredicate]
  | some expr =>
      rw [extractIdPredicate, extractIdInExpr_eq_firstId, firstId_succeeds_iff]
      simp [Pushable]

end Search

/-! ## The rows of the fast path are rows of the scans -/

namespace Snapshot

variable {S : Snapshot} {params : Params} {whereClause : Option Expr}

/-- Whether the hops of a path can be walked does not depend on the rows. -/
theorem walk_subset {chain : List (EdgePattern × NodePattern)} :
    ∀ {prevVar : String} {rows rows' out' : List Bindings}, rows ⊆ rows' →
      S.walk params prevVar chain rows' = .ok out' →
      ∃ out, S.walk params prevVar chain rows = .ok out ∧ out ⊆ out' := by
  induction chain with
  | nil =>
      intro prevVar rows rows' out' hsub hwalk
      cases hwalk
      exact ⟨rows, rfl, hsub⟩
  | cons hop chain ih =>
      intro prevVar rows rows' out' hsub hwalk
      obtain ⟨edgeProps, hprops, hwalk⟩ := exceptBind_eq_ok_iff.1 hwalk
      have hsub : rows.flatMap (S.hopRows prevVar hop.1 hop.2 edgeProps) ⊆
          rows'.flatMap (S.hopRows prevVar hop.1 hop.2 edgeProps) := by
        intro m hm
        obtain ⟨r, hr, hm⟩ := List.mem_flatMap.1 hm
        exact List.mem_flatMap.2 ⟨r, hsub hr, hm⟩
      obtain ⟨out, hout, hsub'⟩ := ih hsub hwalk
      exact ⟨out, exceptBind_eq_ok_iff.2 ⟨edgeProps, hprops, hout⟩, hsub'⟩

/-- The nodes that a lookup finds are among all the nodes. -/
def Complete (S : Snapshot) : Prop := ∀ id n, S.graph.nodes.lookup id = some n → n ∈ S.nodes

theorem startRows_subset (h : S.Complete) (np : NodePattern) (found : Option String) :
    S.startRows np found ⊆ S.startRows np none := by
  refine List.map_subset _ (List.filter_subset _ ?_)
  cases found with
  | none => exact List.Subset.refl _
  | some id =>
      intro n hn
      exact h id n (Option.mem_toList.1 hn)

theorem candidates_subset (h : S.Complete) {p : Pattern} {scan : List Bindings}
    (hscan : S.candidates none params p = .ok scan)
    (hpush : Pushable params p.start.var whereClause) :
    ∃ cands, S.candidates whereClause params p = .ok cands ∧ cands ⊆ scan := by
  obtain ⟨found, hfound⟩ := pushable_iff.1 hpush
  obtain ⟨cands, hcands, hsub⟩ := walk_subset (startRows_subset h p.start found) hscan
  exact ⟨cands, exceptBind_eq_ok_iff.2 ⟨found, hfound, hcands⟩, hsub⟩

theorem joinRows_subset {rows rows' cands cands' : List Bindings} (hrows : rows ⊆ rows')
    (hcands : cands ⊆ cands') : joinRows rows cands ⊆ joinRows rows' cands' := by
  intro m hm
  obtain ⟨r, hr, t, ht, hm⟩ := mem_joinRows.1 hm
  exact mem_joinRows.2 ⟨r, hrows hr, t, hcands ht, hm⟩

/-- The fast path can be taken at every pattern that the loop reaches from these rows. -/
def AllPushable (S : Snapshot) (whereClause : Option Expr) (params : Params)
    (patterns : List Pattern) (rows : List Bindings) : Prop :=
  ∀ pre p post, patterns = pre ++ p :: post → ∀ out, S.join whereClause params pre rows = .ok out →
    out ≠ [] → Pushable params p.start.var whereClause

/-- The pattern loop computes the rows of the patterns so far. -/
theorem join_append {pre post : List Pattern} : ∀ {rows out : List Bindings},
    S.join whereClause params (pre ++ post) rows = .ok out →
    ∃ mid, S.join whereClause params pre rows = .ok mid := by
  induction pre with
  | nil => exact fun {rows _} _ => ⟨rows, rfl⟩
  | cons p pre ih =>
      intro rows out hjoin
      rw [List.cons_append] at hjoin
      obtain ⟨cands, hcands, -⟩ := exceptBind_eq_ok_iff.1 hjoin
      rw [join_cons hcands] at hjoin ⊢
      by_cases hempty : joinRows rows cands = []
      · exact ⟨[], if_pos hempty⟩
      · rw [if_neg hempty] at hjoin ⊢
        exact ih hjoin

/-- If the scans succeed and the fast path can be taken, it succeeds, with fewer rows. -/
theorem join_subset (h : S.Complete) {patterns : List Pattern} :
    ∀ {rows rows' out' : List Bindings}, rows ⊆ rows' → rows ≠ [] →
      S.join none params patterns rows' = .ok out' →
      S.AllPushable whereClause params patterns rows →
      ∃ out, S.join whereClause params patterns rows = .ok out ∧ out ⊆ out' := by
  induction patterns with
  | nil =>
      intro rows rows' out' hsub _ hjoin _
      cases hjoin
      exact ⟨rows, rfl, hsub⟩
  | cons p patterns ih =>
      intro rows rows' out' hsub hne hjoin hpush
      obtain ⟨scan, hscan, -⟩ := exceptBind_eq_ok_iff.1 hjoin
      obtain ⟨cands, hcands, hsub'⟩ :=
        candidates_subset h hscan (hpush [] p patterns rfl rows rfl hne)
      have hnext := joinRows_subset hsub hsub'
      rw [join_cons hscan] at hjoin
      by_cases hempty : joinRows rows cands = []
      · exact ⟨[], by rw [join_cons hcands, if_pos hempty], List.nil_subset _⟩
      · -- the scans have a row here too, so neither loop ends
        have hempty' : joinRows rows' scan ≠ [] := by
          intro hnil
          rw [hnil] at hnext
          exact hempty (List.subset_nil.1 hnext)
        rw [if_neg hempty'] at hjoin
        rw [join_cons hcands, if_neg hempty]
        refine ih hnext hempty hjoin fun pre q post hsplit out hout hne' => ?_
        refine hpush (p :: pre) q post (by rw [hsplit]; rfl) out ?_ hne'
        rw [join_cons hcands, if_neg hempty]
        exact hout

/-- If the pattern loop succeeds, the fast path could be taken wherever the loop came. -/
theorem allPushable_of_join {patterns : List Pattern} :
    ∀ {rows out : List Bindings}, S.join whereClause params patterns rows = .ok out →
      S.AllPushable whereClause params patterns rows := by
  induction patterns with
  | nil =>
      intro rows out _ pre p post hsplit
      simp at hsplit
  | cons q patterns ih =>
      intro rows out hjoin pre p post hsplit out' hout' hne
      -- the loop computed the candidates of its first pattern, so the search there succeeded
      obtain ⟨cands, hcands, -⟩ := exceptBind_eq_ok_iff.1 hjoin
      cases pre with
      | nil =>
          cases hsplit
          obtain ⟨found, hfound, -⟩ := exceptBind_eq_ok_iff.1 hcands
          exact pushable_iff.2 ⟨found, hfound⟩
      | cons q' pre =>
          cases hsplit
          rw [join_cons hcands] at hjoin hout'
          by_cases hempty : joinRows rows cands = []
          -- an empty join does not reach the later patterns
          · rw [if_pos hempty] at hout'
            cases hout'
            exact absurd rfl hne
          · rw [if_neg hempty] at hjoin hout'
            exact ih hjoin pre p post rfl out' hout' hne

variable {patterns : List Pattern} {scan : List Bindings} {σ : Type} {e : Engine σ}

theorem Faithful.complete (h : S.Faithful) : S.Complete := by
  intro id n hn
  obtain rfl := h.nodeIds id n hn
  exact (h.nodes.2 n).2 hn

/-- If the scans succeed and `WHERE` evaluates on their rows, the match succeeds exactly if the fast
path can be taken. -/
theorem matchRows_succeeds_iff (h : S.Complete)
    (hscan : S.join none params patterns [∅] = .ok scan)
    (heval : ∀ row ∈ scan, ∃ b, evalPredicate e row params whereClause = .ok b)
    (limit : Option Nat) :
    (∃ rows, S.matchRows e patterns whereClause params limit = .ok rows) ↔
      S.AllPushable whereClause params patterns [∅] := by
  constructor
  · rintro ⟨rows, hrows⟩
    obtain ⟨joined, hjoined, -⟩ := exceptBind_eq_ok_iff.1 hrows
    exact allPushable_of_join hjoined
  · intro hpush
    obtain ⟨joined, hjoined, hsub⟩ :=
      join_subset h (List.Subset.refl [(∅ : Bindings)]) (by simp) hscan hpush
    -- its rows are rows of the scans, on which the condition evaluates
    obtain ⟨out, hout⟩ := filterRows_succeeds (fun row hrow => heval row (hsub hrow)) limit
    exact ⟨out, exceptBind_eq_ok_iff.2 ⟨joined, hjoined, hout⟩⟩

/-- The loop reaches a pattern exactly if the scans of the patterns before it have a row whose walks
start at the ids that `WHERE` fixes. -/
theorem Faithful.allPushable_iff (h : S.Faithful)
    (hscan : S.join none params patterns [∅] = .ok scan) :
    S.AllPushable whereClause params patterns [∅] ↔
      ∀ pre p post, patterns = pre ++ p :: post →
        ∀ rows, S.join none params pre [∅] = .ok rows →
          (∃ row ∈ rows, ∃ walks, Joins S.graph params none ∅ pre walks row ∧
            List.Forall₂ (fun q w => w.StartsPinned params whereClause q) pre walks) →
          Pushable params p.start.var whereClause := by
  constructor
  · rintro hpush pre p post hsplit scanned - ⟨row, -, walks, hscanned, hpinned⟩
    -- the loop computed the rows of the patterns before, and this row is one of them
    obtain ⟨joined, hjoined, -⟩ :=
      join_subset h.complete (List.Subset.refl [(∅ : Bindings)]) (by simp) hscan hpush
    obtain ⟨mid, hmid⟩ := join_append (hsplit ▸ hjoined)
    have hmem : row ∈ mid := (h.mem_join_iff hmid).2
      ⟨∅, by simp, walks, joins_iff_pinned.2 ⟨hscanned, hpinned⟩⟩
    exact hpush pre p post hsplit mid hmid (List.ne_nil_of_mem hmem)
  · intro hpush pre p post hsplit out hout hne
    -- a row of the fast path is a row of the scans, with walks that start where they should
    obtain ⟨row, hrow⟩ := List.exists_mem_of_ne_nil out hne
    obtain ⟨_, hstart, walks, hjoins⟩ := (h.mem_join_iff hout).1 hrow
    rw [List.mem_singleton.1 hstart] at hjoins
    obtain ⟨hscanned, hpinned⟩ := joins_iff_pinned.1 hjoins
    obtain ⟨scanned, hmid⟩ := join_append (hsplit ▸ hscan)
    have hmem : row ∈ scanned := (h.mem_join_iff hmid).2 ⟨∅, by simp, walks, hscanned⟩
    exact hpush pre p post hsplit scanned hmid ⟨row, hmem, walks, hscanned, hpinned⟩

end Snapshot

/-! ## The fast path on an engine -/

section Engines

variable {σ : Type} [LawfulStorage σ] {P : Platform} {e e₁ : Engine σ} {params : Params}
  {patterns : List Pattern} {whereClause : Option Expr}

/-- When the fast path answers what plain scans answer. On a reachable engine, if the patterns are
joined by plain scans and `WHERE` evaluates on every row of that join, then `find_match_rows`
succeeds, under any limit, exactly if at every pattern that its loop reaches with a row the sides
that `WHERE` equates with the id of the first variable are constants up to the first string. The
loop reaches a pattern exactly if the scans of the patterns before it have a row whose walks start
at the ids that `WHERE` fixes. -/
theorem fast_path_succeeds_iff (h : Reach P e) {scan : List Bindings}
    (hscan : joinPatterns P none params patterns [∅] e = .ok scan e₁)
    (heval : ∀ row ∈ scan, ∃ b, evalPredicate e row params whereClause = .ok b)
    (limit : Option Nat) :
    ((∃ rows e', findMatchRows P patterns whereClause params limit e = .ok rows e') ↔
      ∀ pre p post, patterns = pre ++ p :: post →
        ∀ rows e', joinPatterns P whereClause params pre [∅] e = .ok rows e' → rows ≠ [] →
          Pushable params p.start.var whereClause) ∧
    ∃ log, contents e.storage = header ++ encodeLog P log ∧
      ((∃ rows e', findMatchRows P patterns whereClause params limit e = .ok rows e') ↔
        ∀ pre p post, patterns = pre ++ p :: post →
          ∀ rows e', joinPatterns P none params pre [∅] e = .ok rows e' →
            (∃ row ∈ rows, ∃ walks,
              Joins (PropertyGraph.ofLog log) params none ∅ pre walks row ∧
                List.Forall₂ (fun q w => w.StartsPinned params whereClause q) pre walks) →
            Pushable params p.start.var whereClause) := by
  obtain ⟨log, hinv⟩ := h.inv
  have hback := hinv.toCore.backed
  have hfaithful := hinv.toCore.faithful
  -- both sides are about the snapshot
  have hjoin : ∀ w pre rows, (∃ e', joinPatterns P w params pre [∅] e = .ok rows e') ↔
      (e.snapshot (PropertyGraph.ofLog log)).join w params pre [∅] = .ok rows :=
    fun w pre rows => (hback.joinPatterns params w pre [∅]).ok_iff
  have hscan := (hback.joinPatterns params none patterns [∅]).eq_ok hscan
  have hiff : (∃ rows e', findMatchRows P patterns whereClause params limit e = .ok rows e') ↔
      (e.snapshot (PropertyGraph.ofLog log)).AllPushable whereClause params patterns [∅] := by
    rw [← Snapshot.matchRows_succeeds_iff hfaithful.complete hscan heval limit]
    exact exists_congr fun rows => (hback.findMatchRows params whereClause patterns limit).ok_iff
  refine ⟨hiff.trans ?_, log, by simpa [storeImage] using hinv.contents, hiff.trans ?_⟩
  · simp only [Snapshot.AllPushable, ← hjoin, forall_exists_index]
  · rw [hfaithful.allPushable_iff hscan]
    simp only [← hjoin, forall_exists_index]
    rfl

end Engines

/-- The patterns `(a), (b)`. -/
def twoNodes : List Pattern := [.node ⟨"a", none, ∅⟩, .node ⟨"b", none, ∅⟩]

/-- `WHERE id(a) = id(b)`. -/
def sameIds : Expr := .binary .eq (.idOf "a") (.idOf "b")

/-- The scans for `(a), (b)` on one node give one row. -/
theorem scan_twoNodes : ∃ scan e₁,
    joinPatterns bincode none ∅ twoNodes [∅] oneNode = .ok scan e₁ ∧
      (∀ row ∈ scan, ∃ b, evalPredicate oneNode row ∅ (some fromX) = .ok b) ∧
      ∀ row ∈ scan, ∃ b, evalPredicate oneNode row ∅ (some sameIds) = .ok b := by
  have hrows : (resultRows (joinPatterns bincode none ∅ twoNodes [∅] oneNode)).length = 1 ∧
      ∀ row ∈ resultRows (joinPatterns bincode none ∅ twoNodes [∅] oneNode),
        evalPredicate oneNode row ∅ (some fromX) = .ok false ∧
          evalPredicate oneNode row ∅ (some sameIds) = .ok true := by
    decide +kernel
  obtain ⟨e₁, hscan⟩ := resultRows_spec (List.ne_nil_of_length_eq_add_one hrows.1)
  exact ⟨_, e₁, hscan, fun row hrow => ⟨false, (hrows.2 row hrow).1⟩,
    fun row hrow => ⟨true, (hrows.2 row hrow).2⟩⟩

/-- `MATCH (a), (b) WHERE id(a) = 'x'` on one node: the fast path is taken. -/
theorem fast_path_with_literal :
    ∃ rows e', findMatchRows bincode twoNodes (some fromX) ∅ none oneNode = .ok rows e' := by
  obtain ⟨scan, e₁, hscan, heval, -⟩ := scan_twoNodes
  refine (fast_path_succeeds_iff reach_oneNode hscan heval none).1.2 ?_
  intro pre p post hsplit rows e' _ _
  have hp : p = .node ⟨"a", none, ∅⟩ ∨ p = .node ⟨"b", none, ∅⟩ := by
    have hmem : p ∈ twoNodes := by simp [hsplit]
    simpa [twoNodes] using hmem
  rcases hp with rfl | rfl
  · exact pushable_iff.2 ⟨some "x", by decide⟩
  · exact pushable_iff.2 ⟨none, by decide⟩

/-- The error of a result. -/
def resultError (r : EStateM.Result InterpretError (Engine MemoryStorage) (List Bindings)) :
    Option InterpretError :=
  match r with
  | .ok _ _ => none
  | .error err _ => some err

/-- `MATCH (a), (b) WHERE id(a) = id(b)` on one node: `WHERE` is true of the one row of the join,
but the fast path fails. -/
theorem fast_path_rejects_same_ids :
    Reach bincode oneNode ∧
      (∃ scan e₁, joinPatterns bincode none ∅ twoNodes [∅] oneNode = .ok scan e₁ ∧
        ∀ row ∈ scan, ∃ b, evalPredicate oneNode row ∅ (some sameIds) = .ok b) ∧
      ∃ e', findMatchRows bincode twoNodes (some sameIds) ∅ none oneNode =
        .error (.expectedScalar "non-constant in constant context") e' := by
  obtain ⟨scan, e₁, hscan, -, heval⟩ := scan_twoNodes
  refine ⟨reach_oneNode, ⟨scan, e₁, hscan, heval⟩, ?_⟩
  have herr : resultError (findMatchRows bincode twoNodes (some sameIds) ∅ none oneNode) =
      some (.expectedScalar "non-constant in constant context") := by decide +kernel
  cases hr : findMatchRows bincode twoNodes (some sameIds) ∅ none oneNode with
  | ok rows e' => simp [hr, resultError] at herr
  | error err e' =>
      simp only [hr, resultError, Option.some.injEq] at herr
      exact ⟨e', by rw [herr]⟩

end Morceau
