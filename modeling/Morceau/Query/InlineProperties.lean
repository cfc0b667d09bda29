import Morceau.Query.Properties
import Morceau.Query.UnboundVariables

/-!
# Inline edge properties and `WHERE`

`-[r {k: c}]->` and `WHERE r.k = c` go through different code. The inline form drops an edge while
the pattern is walked, and needs the key to be there; the condition reads a missing key as `Null`
and is evaluated on the rows of the join. With distinct variables the join of the inline form is a
part of the other join (`join_inline`), and what is dropped from it fails the condition unless a key
is missing whose constant is `Null`.
-/

set_option autoImplicit false

namespace Morceau

open Lib LawfulStorage Interpreter

/-! ## The two forms -/

/-- `w AND q`, or `q` alone. -/
def conjoin : Option Expr → Expr → Expr
  | none, q => q
  | some w, q => .binary .and w q

/-- The condition `r.k = c`. -/
def propertyEq (r : String) (entry : String × Expr) : Expr :=
  .binary .eq (.property r [entry.1]) entry.2

/-- `WHERE` extended by `AND r.k = c` for each entry, from left to right. -/
def extendWhere (r : String) : List (String × Expr) → Option Expr → Option Expr
  | [], w => w
  | entry :: entries, w => extendWhere r entries (some (conjoin w (propertyEq r entry)))

/-- The edge pattern without its property block. -/
def EdgePattern.bare (edgePat : EdgePattern) : EdgePattern := { edgePat with properties := ∅ }

/-- A place for an edge pattern in a list of patterns. -/
structure EdgePlace where
  pre : List Pattern
  start : NodePattern
  before : List (EdgePattern × NodePattern)
  target : NodePattern
  after : List (EdgePattern × NodePattern)
  post : List Pattern

namespace EdgePlace

/-- The path through the place. -/
def path (pl : EdgePlace) (edgePat : EdgePattern) : Pattern :=
  .path pl.start (pl.before ++ (edgePat, pl.target) :: pl.after)

/-- The patterns with this edge pattern in the place. -/
def fill (pl : EdgePlace) (edgePat : EdgePattern) : List Pattern :=
  pl.pre ++ pl.path edgePat :: pl.post

/-- The variable does not occur around the place. -/
structure Free (pl : EdgePlace) (r : String) : Prop where
  pre : r ∉ pl.pre.flatMap Pattern.vars
  start : r ≠ pl.start.var
  before : r ∉ pl.before.flatMap hopVars
  target : r ≠ pl.target.var
  after : r ∉ pl.after.flatMap hopVars
  post : r ∉ pl.post.flatMap Pattern.vars

theorem free_of_nodup {pl : EdgePlace} {edgePat : EdgePattern}
    (h : ((pl.fill edgePat).flatMap Pattern.vars).Nodup) : pl.Free edgePat.var := by
  have hsplit : (pl.fill edgePat).flatMap Pattern.vars =
      (pl.pre.flatMap Pattern.vars ++ pl.start.var :: pl.before.flatMap hopVars) ++
        edgePat.var :: (pl.target.var :: pl.after.flatMap hopVars ++
          pl.post.flatMap Pattern.vars) := by
    simp [fill, path, Pattern.vars, Pattern.start, Pattern.hops, hopVars]
  rw [hsplit, List.nodup_middle, List.nodup_cons] at h
  have hnot := h.1
  simp only [List.mem_append, List.mem_cons, not_or] at hnot
  obtain ⟨⟨hpre, hstart, hbefore⟩, ⟨htarget, hafter⟩, hpost⟩ := hnot
  exact ⟨hpre, hstart, hbefore, htarget, hafter, hpost⟩

/-- The variable stands for no node, whatever is in the place. -/
theorem Free.not_mem_nodeVars {pl : EdgePlace} {r : String} (h : pl.Free r)
    (edgePat : EdgePattern) : ∀ p ∈ pl.fill edgePat, r ∉ p.nodeVars := by
  have hsub : ∀ (patterns : List Pattern), r ∉ patterns.flatMap Pattern.vars →
      ∀ p ∈ patterns, r ∉ p.nodeVars := fun patterns hr p hp hmem =>
    hr (List.mem_flatMap.2 ⟨p, hp, Pattern.mem_vars_iff.2 (.inl hmem)⟩)
  have hhops : ∀ (chain : List (EdgePattern × NodePattern)), r ∉ chain.flatMap hopVars →
      ∀ hop ∈ chain, hop.2.var ≠ r := fun chain hr hop hhop heq =>
    hr (List.mem_flatMap.2 ⟨hop, hhop, by simp [hopVars, heq]⟩)
  intro p hp
  rcases List.mem_append.1 hp with hp | hp
  · exact hsub pl.pre h.pre p hp
  · rcases List.mem_cons.1 hp with rfl | hp
    · simp only [path, Pattern.nodeVars, Pattern.start, Pattern.hops, List.map_append,
        List.map_cons, List.mem_cons, List.mem_append, List.mem_map, not_or, not_exists, not_and]
      exact ⟨h.start, hhops _ h.before, h.target, hhops _ h.after⟩
    · exact hsub pl.post h.post p hp

end EdgePlace

/-! ## The condition on a row -/

section Condition

variable {σ : Type} {e : Engine σ} {params : Params} {row : Bindings} {w : Option Expr}
  {r : String}

theorem evalPredicate_conjoin {q : Expr} {t b' : Bool}
    (hq : evalExpr e row params q = .ok (.bool t)) :
    evalPredicate e row params (some (conjoin w q)) = .ok b' ↔
      ∃ b, evalPredicate e row params w = .ok b ∧ b' = (b && t) := by
  cases w with
  | none =>
      show (evalExpr e row params q >>= _) = _ ↔ _
      rw [hq]
      simp [evalPredicate, bind, Except.bind, eq_comm]
  | some x =>
      rw [conjoin, evalPredicate, evalExpr, hq, evalPredicate]
      cases evalExpr e row params x with
      | error err => simp [bind, Except.bind]
      | ok v => cases v <;> simp [bind, Except.bind, applyBinop, applyLogic, eq_comm]

/-- Each entry adds a conjunct. -/
theorem evalPredicate_extendWhere {t : String × Expr → Bool} {entries : List (String × Expr)} :
    ∀ {w : Option Expr} {b' : Bool},
      (∀ entry ∈ entries, evalExpr e row params (propertyEq r entry) = .ok (.bool (t entry))) →
      (evalPredicate e row params (extendWhere r entries w) = .ok b' ↔
        ∃ b, evalPredicate e row params w = .ok b ∧ b' = (b && entries.all t)) := by
  induction entries with
  | nil =>
      intro w b' _
      simp [extendWhere]
  | cons entry entries ih =>
      intro w b' hq
      rw [extendWhere, ih fun entry' h => hq entry' (List.mem_cons_of_mem entry h)]
      simp only [evalPredicate_conjoin (hq entry List.mem_cons_self)]
      constructor
      · rintro ⟨_, ⟨b, hb, rfl⟩, rfl⟩
        exact ⟨b, hb, by rw [List.all_cons, Bool.and_assoc]⟩
      · rintro ⟨b, hb, rfl⟩
        exact ⟨_, ⟨b, hb, rfl⟩, by rw [List.all_cons, Bool.and_assoc]⟩

theorem mem_whereVars_extendWhere {entries : List (String × Expr)} :
    ∀ {w : Option Expr}, entries ≠ [] ∨ r ∈ whereVars w →
      r ∈ whereVars (extendWhere r entries w) := by
  induction entries with
  | nil => exact fun h => h.resolve_left (fun hne => hne rfl)
  | cons entry entries ih =>
      intro w _
      refine ih (.inr ?_)
      cases w <;> simp [whereVars, conjoin, propertyEq, Expr.vars]

/-- The added conditions do not fix the id of a node. -/
theorem extractIdPredicate_extendWhere (var : String) {entries : List (String × Expr)} :
    ∀ {w : Option Expr}, (∀ entry ∈ entries, ∃ v, evalConst params entry.2 = .ok v) →
      extractIdPredicate var params (extendWhere r entries w) =
        extractIdPredicate var params w := by
  induction entries with
  | nil => exact fun _ => rfl
  | cons entry entries ih =>
      intro w hconst
      rw [extendWhere, ih fun entry' h => hconst entry' (List.mem_cons_of_mem entry h)]
      have hside : extractIdInExpr var params (propertyEq r entry) = .ok none := by
        have hne : entry.2 ≠ .idOf var := by
          intro heq
          obtain ⟨v, hv⟩ := hconst entry List.mem_cons_self
          rw [heq] at hv
          cases hv
        rw [propertyEq, extractIdInExpr, idPredicateSide, if_neg (by simp), if_neg hne]
      cases w with
      | none => exact hside
      | some x =>
          rw [extractIdPredicate, conjoin, extractIdInExpr, hside, extractIdPredicate]
          cases extractIdInExpr var params x with
          | error err => rfl
          | ok found => cases found <;> rfl

end Condition

/-! ## The block on a row -/

section Block

variable {σ : Type} {e : Engine σ} {params : Params} {row : Bindings} {r : String}
  {props : BTreeMap String Expr} {vals : BTreeMap String Value}

/-- The value of a constant. -/
def constValue (params : Params) (c : Expr) : Value := (evalConst params c).toOption.getD .null

/-- The condition `r.k = c` on an edge. -/
def edgeTest (params : Params) (d : Edge) (entry : String × Expr) : Bool :=
  valuesEqual ((d.properties[entry.1]?).getD .null) (constValue params entry.2)

/-- The conditions of the block on the edge of a row. -/
def rowTest (params : Params) (r : String) (props : BTreeMap String Expr) (row : Bindings) : Bool :=
  match row[r]? with
  | some (.edge d) => props.toList.all (edgeTest params d)
  | _ => true

/-- The inline block, on an edge: the edge pattern without its label. -/
def blockMatches (vals : BTreeMap String Value) (d : Edge) : Bool :=
  edgePatternMatches ⟨"", none, ∅⟩ d vals

/-- The inline block, on what a variable is bound to. -/
def keepsBinding (vals : BTreeMap String Value) : Option Binding → Bool
  | some (.edge d) => blockMatches vals d
  | _ => true

/-- The edge of the row has every key of the block. -/
def RowHasKeys (r : String) (props : BTreeMap String Expr) (row : Bindings) : Prop :=
  ∀ d, row[r]? = some (.edge d) → ∀ k ∈ props, k ∈ d.properties

theorem constValue_eq {c : Expr} {v : Value} (h : evalConst params c = .ok v) :
    constValue params c = v := by
  rw [constValue, h]
  rfl

theorem evalExpr_propertyEq {d : Edge} {entry : String × Expr} (hrow : row[r]? = some (.edge d))
    (hconst : ∃ v, evalConst params entry.2 = .ok v) :
    evalExpr e row params (propertyEq r entry) = .ok (.bool (edgeTest params d entry)) := by
  obtain ⟨v, hv⟩ := hconst
  rw [propertyEq, evalExpr, evalExpr, evalExpr_of_evalConst hv, resolvePropertyPath, hrow, edgeTest,
    constValue_eq hv]
  rfl

/-- Where the extended condition evaluates, it is the condition and the conditions of the block. -/
theorem evalPredicate_extended {w : Option Expr} {b' : Bool} {entries : List (String × Expr)}
    (hentries : entries.Perm props.toList)
    (hconst : ∀ (k : String) (c : Expr), props[k]? = some c → ∃ v, evalConst params c = .ok v)
    (hedge : ∀ n, row[r]? ≠ some (.node n))
    (h : evalPredicate e row params (extendWhere r entries w) = .ok b') :
    ∃ b, evalPredicate e row params w = .ok b ∧ b' = (b && rowTest params r props row) := by
  rw [rowTest]
  rcases hrow : row[r]? with _ | n | d
  · -- the block would have looked the variable up
    have hnil : entries = [] := by
      by_contra hne
      have hbound := bound_of_evalPredicate h r (mem_whereVars_extendWhere (.inl hne))
      rw [Std.ExtTreeMap.mem_iff_isSome_getElem?, hrow] at hbound
      cases hbound
    rw [hnil] at h
    exact ⟨b', h, by simp⟩
  · exact absurd hrow (hedge n)
  · show ∃ b, _ ∧ b' = (b && props.toList.all (edgeTest params d))
    rw [← hentries.all_eq]
    refine (evalPredicate_extendWhere fun entry hentry => evalExpr_propertyEq hrow ?_).1 h
    exact hconst entry.1 entry.2
      (Std.ExtTreeMap.mem_toList_iff_getElem?_eq_some.1 (hentries.mem_iff.1 hentry))

/-- On an edge the inline block says more than the conditions: the keys are there. -/
theorem blockMatches_iff (hvals : evalPropertyMap props params = .ok vals) {d : Edge} :
    blockMatches vals d = true ↔
      props.toList.all (edgeTest params d) = true ∧ ∀ k ∈ props, k ∈ d.properties := by
  obtain ⟨hconst, hlookup⟩ := evalPropertyMap_ok hvals
  have hall : props.toList.all (edgeTest params d) = true ↔
      ∀ (k : String) (c : Expr), props[k]? = some c → edgeTest params d (k, c) = true := by
    simp only [List.all_eq_true, Prod.forall, Std.ExtTreeMap.mem_toList_iff_getElem?_eq_some]
  rw [blockMatches, edgePatternMatches_iff, hall]
  constructor
  · rintro ⟨-, hblock⟩
    have hfound : ∀ (k : String) (c : Expr), props[k]? = some c →
        ∃ actual, d.properties[k]? = some actual ∧
          valuesEqual actual (constValue params c) = true := by
      intro k c hc
      obtain ⟨v, hv⟩ := hconst k c hc
      rw [constValue_eq hv]
      exact hblock k v ((hlookup k v).2 ⟨c, hc, hv⟩)
    refine ⟨fun k c hc => ?_, fun k hk => ?_⟩
    · obtain ⟨actual, hactual, heq⟩ := hfound k c hc
      rw [edgeTest, hactual]
      exact heq
    · obtain ⟨c, hc⟩ := Option.isSome_iff_exists.1 (Std.ExtTreeMap.mem_iff_isSome_getElem?.1 hk)
      obtain ⟨actual, hactual, -⟩ := hfound k c hc
      rw [Std.ExtTreeMap.mem_iff_isSome_getElem?, hactual]
      rfl
  · rintro ⟨htest, hkeys⟩
    refine ⟨fun l hl => (Option.some_ne_none l hl.symm).elim, fun k v hv => ?_⟩
    obtain ⟨c, hc, hconst⟩ := (hlookup k v).1 hv
    have hk : k ∈ d.properties := hkeys k (by rw [Std.ExtTreeMap.mem_iff_isSome_getElem?, hc]; rfl)
    obtain ⟨actual, hactual⟩ :=
      Option.isSome_iff_exists.1 (Std.ExtTreeMap.mem_iff_isSome_getElem?.1 hk)
    have heq := htest k c hc
    rw [edgeTest, hactual, constValue_eq hconst] at heq
    exact ⟨actual, hactual, heq⟩

theorem keepsBinding_iff (hvals : evalPropertyMap props params = .ok vals) :
    keepsBinding vals row[r]? = true ↔
      rowTest params r props row = true ∧ RowHasKeys r props row := by
  rw [rowTest, RowHasKeys]
  rcases row[r]? with _ | n | d
  · simp [keepsBinding]
  · simp [keepsBinding]
  · simp only [keepsBinding, blockMatches_iff hvals, Option.some.injEq, Binding.edge.injEq,
      forall_eq']

/-- A key that is missing reads as `Null`, which equals no other constant. -/
theorem rowHasKeys_of_rowTest
    (hnull : ∀ (k : String) (c : Expr), props[k]? = some c → constValue params c ≠ .null)
    (htest : rowTest params r props row = true) : RowHasKeys r props row := by
  intro d hrow k hk
  rw [rowTest, hrow] at htest
  obtain ⟨c, hc⟩ := Option.isSome_iff_exists.1 (Std.ExtTreeMap.mem_iff_isSome_getElem?.1 hk)
  have hequal := List.all_eq_true.1 htest (k, c)
    (Std.ExtTreeMap.mem_toList_iff_getElem?_eq_some.2 hc)
  rw [edgeTest] at hequal
  rw [Std.ExtTreeMap.mem_iff_isSome_getElem?]
  cases hkey : d.properties[k]? with
  | some v => rfl
  | none =>
      rw [hkey] at hequal
      exfalso
      refine hnull k c hc ?_
      cases hv : constValue params c <;> simp_all [valuesEqual]

end Block

/-! ## The join of the inline form -/

section Join

variable {S : Snapshot} {params : Params} {w w' : Option Expr} {r : String}
  {keep : Option Binding → Bool}

theorem edgePatternMatches_bare {edgePat : EdgePattern} {d : Edge} {vals : BTreeMap String Value} :
    edgePatternMatches edgePat d vals =
      (edgePatternMatches edgePat.bare d ∅ && blockMatches vals d) := by
  rw [Bool.eq_iff_iff, Bool.and_eq_true, blockMatches]
  simp only [edgePatternMatches_iff, EdgePattern.bare]
  simp [LabelHolds]

/-- A hop over the edge pattern is a hop over the bare one whose edge matches the block. -/
theorem hopRow_inline {g : PropertyGraph} {edgePat : EdgePattern} {targetPat : NodePattern}
    {vals : BTreeMap String Value} {row : Bindings} (d : Edge)
    (htarget : edgePat.var ≠ targetPat.var) :
    hopRow g edgePat targetPat vals row d =
      (hopRow g edgePat.bare targetPat ∅ row d).filter
        fun m => keepsBinding vals m[edgePat.var]? := by
  rw [hopRow, hopRow, edgePatternMatches_bare]
  cases edgePatternMatches edgePat.bare d ∅ with
  | false => rfl
  | true =>
      cases g.nodes.lookup d.toId with
      | none => simp
      | some t =>
          cases hlabel : patternMatchesNode targetPat t with
          | false => simp [hlabel]
          | true =>
              have hkeep : keepsBinding vals ((row.insert edgePat.var (.edge d)).insert
                  targetPat.var (.node t))[edgePat.var]? = blockMatches vals d := by
                rw [Std.ExtTreeMap.getElem?_insert, if_neg (by simpa using htarget.symm),
                  Std.ExtTreeMap.getElem?_insert_self, keepsBinding]
              simp only [hlabel, Bool.true_and, if_true, EdgePattern.bare, Option.filter_some,
                hkeep]

theorem hopRows_inline {prevVar : String} {edgePat : EdgePattern} {targetPat : NodePattern}
    {vals : BTreeMap String Value} (row : Bindings) (htarget : edgePat.var ≠ targetPat.var) :
    S.hopRows prevVar edgePat targetPat vals row =
      (S.hopRows prevVar edgePat.bare targetPat ∅ row).filter
        fun m => keepsBinding vals m[edgePat.var]? := by
  rw [Snapshot.hopRows, Snapshot.hopRows]
  rcases row[prevVar]? with _ | n | d
  · rfl
  · rw [List.filter_filterMap]
    exact List.filterMap_congr fun d _ => hopRow_inline d htarget
  · rfl

/-- Hops over other variables pass a condition on `r` on to their rows. -/
theorem walk_filter {chain : List (EdgePattern × NodePattern)} :
    ∀ (prevVar : String) (rows : List Bindings), r ∉ chain.flatMap hopVars →
      S.walk params prevVar chain (rows.filter fun m => keep m[r]?) =
        (S.walk params prevVar chain rows).map (List.filter fun m => keep m[r]?) := by
  induction chain with
  | nil => exact fun _ _ _ => rfl
  | cons hop chain ih =>
      intro prevVar rows hr
      simp only [List.flatMap_cons, hopVars, List.mem_append, List.mem_cons, List.not_mem_nil,
        or_false, not_or] at hr
      obtain ⟨⟨hedge, htarget⟩, hr⟩ := hr
      have hkept : ∀ (edgeProps : BTreeMap String Value), ∀ row ∈ rows,
          ∀ m ∈ S.hopRows prevVar hop.1 hop.2 edgeProps row, keep m[r]? = keep row[r]? := by
        intro edgeProps row _ m hm
        obtain ⟨d, id, t, -, rfl⟩ := Snapshot.mem_hopRows hm
        rw [Std.ExtTreeMap.getElem?_insert, if_neg (by simpa using Ne.symm htarget),
          Std.ExtTreeMap.getElem?_insert, if_neg (by simpa using Ne.symm hedge)]
      rw [Snapshot.walk, Snapshot.walk]
      cases evalPropertyMap hop.1.properties params with
      | error err => rfl
      | ok edgeProps =>
          show S.walk params hop.2.var chain _ = _
          rw [flatMap_filter_eq (hkept edgeProps), ih hop.2.var _ hr]
          rfl

theorem evalPropertyMap_bare (edgePat : EdgePattern) (params : Params) :
    evalPropertyMap edgePat.bare.properties params = .ok ∅ := by
  rw [evalPropertyMap, show edgePat.bare.properties.toList = [] from rfl]
  rfl

theorem walk_inline {edgePat : EdgePattern} {targetPat : NodePattern}
    {vals : BTreeMap String Value} (hvals : evalPropertyMap edgePat.properties params = .ok vals)
    {before after : List (EdgePattern × NodePattern)} (htarget : edgePat.var ≠ targetPat.var)
    (hafter : edgePat.var ∉ after.flatMap hopVars) :
    ∀ (prevVar : String) (rows : List Bindings),
      S.walk params prevVar (before ++ (edgePat, targetPat) :: after) rows =
        (S.walk params prevVar (before ++ (edgePat.bare, targetPat) :: after) rows).map
          (List.filter fun m => keepsBinding vals m[edgePat.var]?) := by
  induction before with
  | nil =>
      intro prevVar rows
      rw [List.nil_append, List.nil_append, Snapshot.walk, Snapshot.walk, hvals,
        evalPropertyMap_bare]
      show S.walk params targetPat.var after _ = (S.walk params targetPat.var after _).map _
      rw [← walk_filter targetPat.var _ hafter, List.filter_flatMap]
      congr 1
      exact List.flatMap_congr fun row _ => hopRows_inline row htarget
  | cons hop before ih =>
      intro prevVar rows
      rw [List.cons_append, List.cons_append, Snapshot.walk, Snapshot.walk]
      cases evalPropertyMap hop.1.properties params with
      | error err => rfl
      | ok edgeProps => exact ih hop.2.var _

theorem candidates_inline {pl : EdgePlace} {edgePat : EdgePattern} {vals : BTreeMap String Value}
    (hfree : pl.Free edgePat.var) (hvals : evalPropertyMap edgePat.properties params = .ok vals)
    (hid : ∀ var, extractIdPredicate var params w' = extractIdPredicate var params w) :
    S.candidates w params (pl.path edgePat) =
      (S.candidates w' params (pl.path edgePat.bare)).map
        (List.filter fun m => keepsBinding vals m[edgePat.var]?) := by
  rw [Snapshot.candidates, Snapshot.candidates, hid]
  show (extractIdPredicate pl.start.var params w >>= _) =
    (extractIdPredicate pl.start.var params w >>= _).map _
  cases extractIdPredicate pl.start.var params w with
  | error err => rfl
  | ok found => exact walk_inline hvals hfree.target hfree.after _ _

/-- The candidates of a pattern bind its variables only. -/
theorem candidates_lack {p : Pattern} {cands : List Bindings}
    (hcands : S.candidates w params p = .ok cands) (hr : r ∉ p.vars) :
    ∀ t ∈ cands, t[r]? = none := by
  intro t ht
  have hvars := mem_vars_of_join (join_single hcands) t ht r
  rw [List.flatMap_singleton] at hvars
  exact Std.ExtTreeMap.getElem?_eq_none fun hmem => hr (hvars hmem)

/-- Joining with candidates that do not bind `r` leaves it as it is. -/
theorem joinRows_left {rows cands : List Bindings} (hcands : ∀ t ∈ cands, t[r]? = none) :
    ∀ row ∈ rows, ∀ m ∈ cands.filterMap (unifyBindings row), m[r]? = row[r]? := by
  intro row _ m hm
  obtain ⟨t, ht, hm⟩ := List.mem_filterMap.1 hm
  obtain ⟨-, rfl⟩ := unifyBindings_eq_some_iff.1 hm
  rw [getElem?_merge, hcands t ht, Option.or_none]

theorem joinRows_filter_left {rows cands : List Bindings} (hcands : ∀ t ∈ cands, t[r]? = none) :
    joinRows (rows.filter fun m => keep m[r]?) cands =
      (joinRows rows cands).filter fun m => keep m[r]? :=
  flatMap_filter_eq fun row hrow m hm => by rw [joinRows_left hcands row hrow m hm]

theorem joinRows_filter_right {rows cands : List Bindings} (hrows : ∀ row ∈ rows, row[r]? = none) :
    joinRows rows (cands.filter fun m => keep m[r]?) =
      (joinRows rows cands).filter fun m => keep m[r]? := by
  rw [joinRows, joinRows, List.filter_flatMap]
  refine List.flatMap_congr fun row hrow => ?_
  rw [List.filterMap_eq_flatMap_toList, List.filterMap_eq_flatMap_toList]
  refine flatMap_filter_eq fun c _ m hm => ?_
  obtain ⟨-, rfl⟩ := unifyBindings_eq_some_iff.1 (Option.mem_toList.1 hm)
  rw [getElem?_merge, hrows row hrow, Option.none_or]

/-- Patterns that do not bind `r` leave it as it is. -/
theorem join_keeps {patterns : List Pattern} :
    ∀ {rows out : List Bindings}, r ∉ patterns.flatMap Pattern.vars →
      S.join w params patterns rows = .ok out → ∀ m ∈ out, ∃ row ∈ rows, m[r]? = row[r]? := by
  induction patterns with
  | nil =>
      intro rows out _ h m hm
      cases h
      exact ⟨m, hm, rfl⟩
  | cons p patterns ih =>
      intro rows out hr h m hm
      rw [List.flatMap_cons, List.mem_append, not_or] at hr
      obtain ⟨cands, hcands, -⟩ := exceptBind_eq_ok_iff.1 h
      rw [Snapshot.join_cons hcands] at h
      split at h
      · cases h
        cases hm
      · obtain ⟨m', hm', heq⟩ := ih hr.2 h m hm
        obtain ⟨row, hrow, hm'⟩ := List.mem_flatMap.1 hm'
        exact ⟨row, hrow, heq.trans
          (joinRows_left (candidates_lack hcands hr.1) row hrow m' hm')⟩

/-- A turn of the pattern loop after which one join is a part of the other. The smaller join may
end the loop where the other goes on, but then no row of the other is kept. -/
theorem join_turn {patterns : List Pattern} {rows out out' : List Bindings}
    (hr : r ∉ patterns.flatMap Pattern.vars)
    (hnext : ∀ out, S.join w params patterns (rows.filter fun m => keep m[r]?) = .ok out →
      S.join w' params patterns rows = .ok out' → out = out'.filter fun m => keep m[r]?)
    (h : (if (rows.filter fun m => keep m[r]?) = [] then .ok []
      else S.join w params patterns (rows.filter fun m => keep m[r]?)) = .ok out)
    (h' : (if rows = [] then .ok [] else S.join w' params patterns rows) = .ok out') :
    out = out'.filter fun m => keep m[r]? := by
  split at h'
  · rename_i hempty
    cases h'
    subst hempty
    cases h
    rfl
  · split at h
    · rename_i hnone
      cases h
      refine (List.filter_eq_nil_iff.2 fun m hm => ?_).symm
      obtain ⟨row, hrow, heq⟩ := join_keeps hr h' m hm
      rw [heq]
      exact List.filter_eq_nil_iff.1 hnone row hrow
    · exact hnext out h h'

theorem join_filter {patterns : List Pattern}
    (hsame : ∀ p, S.candidates w params p = S.candidates w' params p) :
    ∀ {rows out out' : List Bindings}, r ∉ patterns.flatMap Pattern.vars →
      S.join w params patterns (rows.filter fun m => keep m[r]?) = .ok out →
      S.join w' params patterns rows = .ok out' → out = out'.filter fun m => keep m[r]? := by
  induction patterns with
  | nil =>
      intro rows out out' _ h h'
      cases h
      cases h'
      rfl
  | cons p patterns ih =>
      intro rows out out' hr h h'
      rw [List.flatMap_cons, List.mem_append, not_or] at hr
      obtain ⟨cands, hcands, -⟩ := exceptBind_eq_ok_iff.1 h'
      rw [Snapshot.join_cons hcands] at h'
      rw [Snapshot.join_cons ((hsame p).trans hcands),
        joinRows_filter_left (candidates_lack hcands hr.1)] at h
      exact join_turn hr.2 (fun _ => ih hr.2) h h'

/-- The join of the inline form is the part of the other join that the block keeps. -/
theorem join_inline {pl : EdgePlace} {edgePat : EdgePattern} {vals : BTreeMap String Value}
    (hfree : pl.Free edgePat.var) (hvals : evalPropertyMap edgePat.properties params = .ok vals)
    (hid : ∀ var, extractIdPredicate var params w' = extractIdPredicate var params w)
    {out out' : List Bindings} (h : S.join w params (pl.fill edgePat) [∅] = .ok out)
    (h' : S.join w' params (pl.fill edgePat.bare) [∅] = .ok out') :
    out = out'.filter fun m => keepsBinding vals m[edgePat.var]? := by
  have hsame : ∀ p, S.candidates w params p = S.candidates w' params p := by
    intro p
    rw [Snapshot.candidates, Snapshot.candidates, hid]
  -- up to the path the two joins are the same, and no row binds the variable yet
  have hpre : ∀ (pre : List Pattern) (rows : List Bindings),
      edgePat.var ∉ pre.flatMap Pattern.vars → (∀ row ∈ rows, row[edgePat.var]? = none) →
      S.join w params (pre ++ pl.path edgePat :: pl.post) rows = .ok out →
      S.join w' params (pre ++ pl.path edgePat.bare :: pl.post) rows = .ok out' →
      out = out'.filter fun m => keepsBinding vals m[edgePat.var]? := by
    intro pre
    induction pre with
    | nil =>
        intro rows _ hrows h h'
        obtain ⟨cands, hcands, -⟩ := exceptBind_eq_ok_iff.1 h'
        have hinline := candidates_inline (S := S) hfree hvals hid
        rw [hcands] at hinline
        rw [List.nil_append, Snapshot.join_cons hcands] at h'
        rw [List.nil_append, Snapshot.join_cons hinline, joinRows_filter_right hrows] at h
        exact join_turn hfree.post (fun _ => join_filter hsame hfree.post) h h'
    | cons p pre ih =>
        intro rows hr hrows h h'
        rw [List.flatMap_cons, List.mem_append, not_or] at hr
        obtain ⟨cands, hcands, -⟩ := exceptBind_eq_ok_iff.1 h'
        rw [List.cons_append, Snapshot.join_cons hcands] at h'
        rw [List.cons_append, Snapshot.join_cons ((hsame p).trans hcands)] at h
        split at h'
        · rename_i hempty
          rw [if_pos hempty] at h
          cases h
          cases h'
          rfl
        · rename_i hne
          rw [if_neg hne] at h
          refine ih _ hr.2 (fun m hm => ?_) h h'
          obtain ⟨row, hrow, hm⟩ := List.mem_flatMap.1 hm
          exact (joinRows_left (candidates_lack hcands hr.1) row hrow m hm).trans (hrows row hrow)
  exact hpre pl.pre [∅] hfree.pre (by simp) h h'

end Join

/-! ## The rows that are kept -/

section Kept

variable {σ : Type} {e : Engine σ} {S : Snapshot} {params : Params} {w : Option Expr}
  {pl : EdgePlace} {edgePat : EdgePattern} {entries : List (String × Expr)}

/-- A name that stands for no node in the patterns is not bound to one. -/
theorem not_node_of_join {patterns : List Pattern} {r : String} {rows : List Bindings}
    (hr : ∀ p ∈ patterns, r ∉ p.nodeVars) (hjoin : S.join w params patterns [∅] = .ok rows) :
    ∀ row ∈ rows, ∀ n, row[r]? ≠ some (.node n) := by
  refine Snapshot.join_induction (Q := fun rows => ∀ row ∈ rows, ∀ n, row[r]? ≠ some (.node n))
    (by simp) ?_ ?_ ?_ (by simp) hjoin
  · intro p hp found row hrow n
    obtain ⟨m, -, rfl⟩ := List.mem_map.1 hrow
    have hne : p.start.var ≠ r := fun heq => hr p hp (by simp [Pattern.nodeVars, heq])
    simp [nodeRow, hne]
  · intro p hp hop hhop prevVar edgeProps rows hrows m hm n
    obtain ⟨row, hrow, hm⟩ := List.mem_flatMap.1 hm
    obtain ⟨d, id, t, -, rfl⟩ := Snapshot.mem_hopRows hm
    have hne : hop.2.var ≠ r := fun heq =>
      hr p hp (List.mem_cons_of_mem _ (List.mem_map.2 ⟨hop, hhop, heq⟩))
    rw [Std.ExtTreeMap.getElem?_insert, if_neg (by simpa using hne), Std.ExtTreeMap.getElem?_insert]
    split
    · simp
    · exact hrows row hrow n
  · intro rows cands hrows hcands m hm n
    obtain ⟨row, hrow, c, hc, hm⟩ := Snapshot.mem_joinRows.1 hm
    obtain ⟨-, rfl⟩ := unifyBindings_eq_some_iff.1 hm
    rw [getElem?_merge]
    cases hx : row[r]? with
    | some b => rw [Option.some_or, ← hx]; exact hrows row hrow n
    | none => exact hcands c hc n

theorem acceptedRow_eq_ok_iff {row : Bindings} {x : Option Bindings} :
    acceptedRow e params w row = .ok x ↔
      ∃ b, evalPredicate e row params w = .ok b ∧ x = if b then some row else none := by
  rw [acceptedRow, exceptBind_eq_ok_iff]
  simp [pure, Except.pure, eq_comm]

/-- The assumptions about the two forms over a snapshot, and their joins. -/
structure TwoForms (S : Snapshot) (params : Params) (w : Option Expr) (pl : EdgePlace)
    (edgePat : EdgePattern) (entries : List (String × Expr)) (rows rows' : List Bindings) :
    Prop where
  free : pl.Free edgePat.var
  perm : entries.Perm edgePat.properties.toList
  consts : ∀ (k : String) (c : Expr), edgePat.properties[k]? = some c →
    ∃ v, evalConst params c = .ok v
  inlineJoin : S.join w params (pl.fill edgePat) [∅] = .ok rows
  bareJoin :
    S.join (extendWhere edgePat.var entries w) params (pl.fill edgePat.bare) [∅] = .ok rows'

namespace TwoForms

variable {rows rows' kept kept' : List Bindings} {limit : Option Nat}

/-- The rows of the inline form are those that the block keeps, and on a row of the other form the
extended condition is the condition with the conditions of the block. -/
theorem spec (h : TwoForms S params w pl edgePat entries rows rows') :
    ∃ keep : Bindings → Bool, rows = rows'.filter keep ∧
      (∀ row, keep row = true ↔ rowTest params edgePat.var edgePat.properties row = true ∧
        RowHasKeys edgePat.var edgePat.properties row) ∧
      ∀ row ∈ rows', ∀ b',
        evalPredicate e row params (extendWhere edgePat.var entries w) = .ok b' →
        ∃ b, evalPredicate e row params w = .ok b ∧
          b' = (b && rowTest params edgePat.var edgePat.properties row) := by
  obtain ⟨vals, hvals⟩ := evalPropertyMap_succeeds edgePat.properties params h.consts
  refine ⟨fun m => keepsBinding vals m[edgePat.var]?, ?_, fun row => keepsBinding_iff hvals, ?_⟩
  · refine join_inline h.free hvals (fun var => ?_) h.inlineJoin h.bareJoin
    refine extractIdPredicate_extendWhere var fun entry hentry => ?_
    exact h.consts entry.1 entry.2
      (Std.ExtTreeMap.mem_toList_iff_getElem?_eq_some.1 (h.perm.mem_iff.1 hentry))
  · intro row hrow b' hb'
    exact evalPredicate_extended h.perm h.consts
      (not_node_of_join (h.free.not_mem_nodeVars edgePat.bare) h.bareJoin row hrow) hb'

/-- If the rows that pass have the keys of the block, the filters keep the same rows. -/
theorem kept_eq (h : TwoForms S params w pl edgePat entries rows rows')
    (hkeys : ∀ row ∈ rows',
      evalPredicate e row params (extendWhere edgePat.var entries w) = .ok true →
        RowHasKeys edgePat.var edgePat.properties row)
    (hkept : filterRows e w params limit 0 rows = .ok kept)
    (hkept' : filterRows e (extendWhere edgePat.var entries w) params limit 0 rows' = .ok kept') :
    kept = kept' := by
  obtain ⟨keep, rfl, hkeep, hwhere⟩ := h.spec (e := e)
  rw [filterRows_eq_collectLoop] at hkept hkept'
  refine collectLoop_filter_eq (fun row hrow m hm => ?_) (fun row hrow hnone hrowkeep => ?_) hkept
    hkept'
  · obtain ⟨b', hb', hm⟩ := acceptedRow_eq_ok_iff.1 hm
    obtain ⟨b, hb, rfl⟩ := hwhere row hrow b' hb'
    cases hpass : b && rowTest params edgePat.var edgePat.properties row with
    | false => simp [hpass] at hm
    | true =>
        rw [hpass] at hb' hm
        obtain ⟨rfl, htest⟩ := Bool.and_eq_true_iff.1 hpass
        exact ⟨(hkeep row).2 ⟨htest, hkeys row hrow hb'⟩, acceptedRow_eq_ok_iff.2 ⟨true, hb, hm⟩⟩
  · obtain ⟨b', hb', hm⟩ := acceptedRow_eq_ok_iff.1 hnone
    obtain ⟨b, hb, rfl⟩ := hwhere row hrow b' hb'
    rw [((hkeep row).1 hrowkeep).1, Bool.and_true] at hm
    exact acceptedRow_eq_ok_iff.2 ⟨b, hb, hm⟩

/-- Without a limit, as many rows are kept only if every row that passes has the keys. -/
theorem keys_of_length_eq (h : TwoForms S params w pl edgePat entries rows rows')
    (hkept : filterRows e w params none 0 rows = .ok kept)
    (hkept' : filterRows e (extendWhere edgePat.var entries w) params none 0 rows' = .ok kept')
    (hlength : kept.length = kept'.length) :
    ∀ row ∈ rows', evalPredicate e row params (extendWhere edgePat.var entries w) = .ok true →
      RowHasKeys edgePat.var edgePat.properties row := by
  obtain ⟨keep, rfl, hkeep, hwhere⟩ := h.spec (e := e)
  have hsub : kept.Sublist kept' := by
    rw [filterRows_eq_collectLoop] at hkept hkept'
    refine collectLoop_filter_sublist (fun row hrow m hrowkeep hm r hr => ?_) hkept hkept'
    obtain ⟨b', hb', rfl⟩ := acceptedRow_eq_ok_iff.1 hr
    obtain ⟨b, hb, rfl⟩ := hwhere row hrow b' hb'
    obtain ⟨c, hc, hm⟩ := acceptedRow_eq_ok_iff.1 hm
    cases hb.symm.trans hc
    rw [((hkeep row).1 hrowkeep).1, Bool.and_true, hm]
  -- so the same rows are kept, and each of them is a row of the inline form
  obtain rfl := hsub.eq_of_length hlength
  intro row hrow htrue
  have hmem : row ∈ kept := (filterRows_ok hkept').2.2 rfl row hrow htrue
  have hrowkeep := (List.mem_filter.1 ((filterRows_ok hkept).1.subset hmem)).2
  exact ((hkeep row).1 hrowkeep).2

/-- Only a key that should be `NULL` can be missing from a row that passes. -/
theorem keys_of_ne_null (h : TwoForms S params w pl edgePat entries rows rows')
    (hnull : ∀ (k : String) (c : Expr), edgePat.properties[k]? = some c →
      evalConst params c ≠ .ok .null) :
    ∀ row ∈ rows', evalPredicate e row params (extendWhere edgePat.var entries w) = .ok true →
      RowHasKeys edgePat.var edgePat.properties row := by
  intro row hrow htrue
  obtain ⟨keep, -, -, hwhere⟩ := h.spec (e := e)
  obtain ⟨b, -, hpass⟩ := hwhere row hrow true htrue
  refine rowHasKeys_of_rowTest (fun k c hc heq => ?_) (Bool.and_eq_true_iff.1 hpass.symm).2
  obtain ⟨v, hv⟩ := h.consts k c hc
  rw [constValue_eq hv] at heq
  exact hnull k c hc (heq ▸ hv)

end TwoForms

theorem length_projectRows {items : List ReturnItem} {rows : List Bindings}
    {out : List (List ResultCell)} (h : projectRows e items none 0 rows = .ok out) :
    out.length = rows.length := by
  rw [projectRows_eq_collectLoop] at h
  refine length_collectLoop (fun row hnone => ?_) h
  obtain ⟨cells, -, hcells⟩ := exceptBind_eq_ok_iff.1 hnone
  cases hcells

/-- One aggregate row shows the number of rows it was computed from if it collects something. -/
theorem length_eq_of_collect {items : List ReturnItem} {ordered ordered' : List Bindings}
    {out out' : List (List ResultCell)} {target : CollectTarget} (htarget : .collect target ∈ items)
    (hout : projectAggregateRow e items ordered = .ok out)
    (hout' : projectAggregateRow e items ordered' = .ok out') (hperm : out.Perm out') :
    ordered.length = ordered'.length := by
  obtain ⟨cells, hcells, hout⟩ := exceptBind_eq_ok_iff.1 hout
  obtain ⟨cells', hcells', hout'⟩ := exceptBind_eq_ok_iff.1 hout'
  cases hout
  cases hout'
  obtain rfl : cells = cells' := by simpa using hperm
  obtain ⟨cell, hcell, hcell'⟩ := exists_common_of_mapM hcells hcells' htarget
  obtain ⟨list, hlist, hcell⟩ := exceptBind_eq_ok_iff.1 hcell
  obtain ⟨list', hlist', hcell'⟩ := exceptBind_eq_ok_iff.1 hcell'
  cases hcell
  cases hcell'
  rw [← length_mapM hlist, ← length_mapM hlist']

variable {items : List ReturnItem} {limit : Option Nat}

/-- The result shows how many rows it was computed from, one by one or in a list. -/
theorem length_eq_of_shows {ordered ordered' : List Bindings} {out out' : List (List ResultCell)}
    (hshape : limit = none ∧ items.any isAggregate = false ∨ ∃ target, .collect target ∈ items)
    (hout : projectedRows e items limit ordered = .ok out)
    (hout' : projectedRows e items limit ordered' = .ok out') (hperm : out.Perm out') :
    ordered.length = ordered'.length := by
  rcases hshape with ⟨rfl, hplain⟩ | ⟨target, htarget⟩
  · simp only [projectedRows, hplain, Bool.false_eq_true, if_false] at hout hout'
    rw [← length_projectRows hout, ← length_projectRows hout', hperm.length_eq]
  · have hagg : items.any isAggregate = true := List.any_eq_true.2 ⟨_, htarget, rfl⟩
    rw [projectedRows, if_pos hagg] at hout hout'
    exact length_eq_of_collect htarget hout hout' hperm

theorem inlineLimit_of_shows {orderBy : Option OrderBy}
    (hshape : limit = none ∧ items.any isAggregate = false ∨ ∃ target, .collect target ∈ items) :
    inlineLimit items orderBy limit = none := by
  rcases hshape with ⟨rfl, -⟩ | ⟨target, htarget⟩
  · exact inlineLimit_none items orderBy
  · exact inlineLimit_of_aggregate (List.any_eq_true.2 ⟨_, htarget, rfl⟩) orderBy limit

end Kept

/-! ## The two statements -/

section Results

variable {σ : Type} [LawfulStorage σ] {P : Platform} {e : Engine σ} {params : Params}
  {w : Option Expr} {pl : EdgePlace} {edgePat : EdgePattern} {entries : List (String × Expr)}
  {items : List ReturnItem} {orderBy : Option OrderBy} {limit : Option Nat}

/-- Every row of the patterns that passes `WHERE` has, on the edge of `r`, the keys of the block. -/
def PassingRowsHaveKeys (P : Platform) (patterns : List Pattern) (whereClause : Option Expr)
    (params : Params) (r : String) (props : BTreeMap String Expr) (e : Engine σ) : Prop :=
  ∀ rows e₁, joinPatterns P whereClause params patterns [∅] e = .ok rows e₁ →
    ∀ row ∈ rows, evalPredicate e₁ row params whereClause = .ok true → RowHasKeys r props row

theorem passingRowsHaveKeys_iff {g : PropertyGraph} (h : Backed P e g) {patterns : List Pattern}
    {r : String} {props : BTreeMap String Expr} {rows : List Bindings}
    (hjoin : (e.snapshot g).join w params patterns [∅] = .ok rows) :
    PassingRowsHaveKeys P patterns w params r props e ↔
      ∀ row ∈ rows, evalPredicate e row params w = .ok true → RowHasKeys r props row := by
  obtain ⟨e₁, hq, hrun⟩ := Backed.joinPatterns params w patterns [∅] h
  rw [hjoin] at hrun
  constructor
  · intro hkeys row hrow htrue
    rw [hq.sameMetadata.evalPredicate] at htrue
    exact hkeys rows e₁ hrun row hrow htrue
  · intro hkeys rows' e₂ hrun' row hrow htrue
    cases hrun.symm.trans hrun'
    rw [← hq.sameMetadata.evalPredicate] at htrue
    exact hkeys row hrow htrue

/-- When an inline property block is shorthand for equality in `WHERE`. Of two statements that
succeed, one with the block on an edge pattern and one with the condition `AND r.k = c` for each
entry instead, in any order, both return the same if on the rows that pass the edge has every key of
the block. If they return rows without a limit, or collect, this is the only case in which the
results agree; a limit may cut both to the same rows, and a count alone shows the number of rows
modulo 2^64 only. A block without a `Null` is shorthand on every graph. -/
theorem inline_properties_iff (h : Reach P e)
    (hnames : ((pl.fill edgePat).flatMap Pattern.vars).Nodup)
    (hconst : ∀ (k : String) (c : Expr), edgePat.properties[k]? = some c →
      ∃ v, evalConst params c = .ok v)
    (hentries : entries.Perm edgePat.properties.toList) {q q' : QueryResult} {e₁ e₂ : Engine σ}
    (hinline : execute P (.matchReturn (pl.fill edgePat) w items orderBy limit) params e = .ok q e₁)
    (hbare : execute P (.matchReturn (pl.fill edgePat.bare) (extendWhere edgePat.var entries w)
      items orderBy limit) params e = .ok q' e₂) :
    (PassingRowsHaveKeys P (pl.fill edgePat.bare) (extendWhere edgePat.var entries w) params
        edgePat.var edgePat.properties e → q = q') ∧
      (limit = none ∧ items.any isAggregate = false ∨ (∃ target, .collect target ∈ items) →
        (q.rows.Perm q'.rows ↔ PassingRowsHaveKeys P (pl.fill edgePat.bare)
          (extendWhere edgePat.var entries w) params edgePat.var edgePat.properties e)) ∧
      ((∀ (k : String) (c : Expr), edgePat.properties[k]? = some c →
        evalConst params c ≠ .ok .null) → q = q') := by
  obtain ⟨log, hinv⟩ := h.inv
  have hbacked := hinv.toCore.backed
  -- both statements are evaluated on the snapshot, up to the rows that are kept
  have hq := (hbacked.execMatchReturn params _ _ _ _ _).eq_ok hinline
  have hq' := (hbacked.execMatchReturn params _ _ _ _ _).eq_ok hbare
  obtain ⟨kept, ordered, hkept, hordered, hout, hcols⟩ := Snapshot.matchReturn_eq_ok_iff.1 hq
  obtain ⟨kept', ordered', hkept', hordered', hout', hcols'⟩ :=
    Snapshot.matchReturn_eq_ok_iff.1 hq'
  obtain ⟨rows, hjoin, hkept⟩ := exceptBind_eq_ok_iff.1 hkept
  obtain ⟨rows', hjoin', hkept'⟩ := exceptBind_eq_ok_iff.1 hkept'
  have hforms : TwoForms _ params w pl edgePat entries rows rows' :=
    ⟨EdgePlace.free_of_nodup hnames, hentries, hconst, hjoin, hjoin'⟩
  have heq : (∀ row ∈ rows',
      evalPredicate e row params (extendWhere edgePat.var entries w) = .ok true →
        RowHasKeys edgePat.var edgePat.properties row) → q = q' := by
    intro hkeys
    -- after the filter the two statements are the same
    obtain rfl := hforms.kept_eq hkeys hkept hkept'
    cases hordered.symm.trans hordered'
    exact QueryResult.eq_of_fields (hcols.trans hcols'.symm)
      (Except.ok.inj (hout.symm.trans hout'))
  rw [passingRowsHaveKeys_iff hbacked hjoin']
  refine ⟨heq, fun hshape => ⟨fun hperm => ?_, fun hkeys => ?_⟩, fun hnull => heq ?_⟩
  · rw [inlineLimit_of_shows hshape] at hkept hkept'
    have hlength := length_eq_of_shows hshape hout hout' hperm
    rw [(perm_of_orderedRows hordered).length_eq, (perm_of_orderedRows hordered').length_eq]
      at hlength
    exact hforms.keys_of_length_eq hkept hkept' hlength
  · rw [heq hkeys]
  · exact hforms.keys_of_ne_null hnull

end Results

/-- The place of the edge in `(a)-[...]->(b)`. -/
def onlyEdge : EdgePlace := ⟨[], ⟨"a", none, ∅⟩, [], ⟨"b", none, ∅⟩, [], []⟩

/-- The edge pattern `[r {p: c}]`. -/
def edgeWith (c : Value) : EdgePattern :=
  ⟨"r", none, (∅ : BTreeMap String Expr).insert "p" (.literal c)⟩

/-- `MATCH (a)-[r {p: c}]->(b) RETURN a`. -/
def sourcesInline (c : Value) : Statement :=
  .matchReturn (onlyEdge.fill (edgeWith c)) none [.var "a"] none none

/-- `MATCH (a)-[r]->(b) WHERE r.p = c RETURN a`. -/
def sourcesWhere (c : Value) : Statement :=
  .matchReturn (onlyEdge.fill (edgeWith c).bare) (extendWhere "r" [("p", .literal c)] none)
    [.var "a"] none none

/-- With an integer the two forms return the same. -/
theorem inline_integer_is_shorthand :
    ∃ q e₁ e₂, execute bincode (sourcesInline (.i64 1)) ∅ oneEdge = .ok q e₁ ∧
      execute bincode (sourcesWhere (.i64 1)) ∅ oneEdge = .ok q e₂ := by
  obtain ⟨q, e₁, hinline, -⟩ := rowCount_eq_some (n := 0)
    (by decide +kernel : rowCount (execute bincode (sourcesInline (.i64 1)) ∅ oneEdge) = some 0)
  obtain ⟨q', e₂, hbare, -⟩ := rowCount_eq_some (n := 0)
    (by decide +kernel : rowCount (execute bincode (sourcesWhere (.i64 1)) ∅ oneEdge) = some 0)
  have hentry : ∀ (k : String) (c : Expr), (edgeWith (.i64 1)).properties[k]? = some c →
      evalConst ∅ c = .ok (.i64 1) := by
    intro k c hc
    simp only [edgeWith, Std.ExtTreeMap.getElem?_insert] at hc
    split at hc
    · cases hc
      rfl
    · simp at hc
  obtain rfl := (inline_properties_iff reach_oneEdge (by decide)
    (fun k c hc => ⟨.i64 1, hentry k c hc⟩) (List.Perm.refl [("p", Expr.literal (.i64 1))]) hinline
    hbare).2.2 (fun k c hc => by rw [hentry k c hc]; simp)
  exact ⟨q, e₁, e₂, hinline, hbare⟩

/-- A missing key does not match an inline `NULL`, but equals `NULL` in `WHERE`: on an edge without
properties the first form returns no row and the second one. -/
theorem inline_null_is_not_shorthand :
    Reach bincode oneEdge ∧
      ((onlyEdge.fill (edgeWith .null)).flatMap Pattern.vars).Nodup ∧
      parse "MATCH (a)-[r \x7bp: NULL\x7d]->(b) RETURN a" = .ok (sourcesInline .null) ∧
      parse "MATCH (a)-[r]->(b) WHERE r.p = NULL RETURN a" = .ok (sourcesWhere .null) ∧
      (∃ q e', execute bincode (sourcesInline .null) ∅ oneEdge = .ok q e' ∧ q.rows.length = 0) ∧
      ∃ q e', execute bincode (sourcesWhere .null) ∅ oneEdge = .ok q e' ∧ q.rows.length = 1 := by
  refine ⟨reach_oneEdge, by decide, by decide +kernel, by decide +kernel, ?_, ?_⟩
  · exact rowCount_eq_some (by decide +kernel)
  · exact rowCount_eq_some (by decide +kernel)

end Morceau
