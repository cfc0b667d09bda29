import Mathlib.Data.List.Forall2
import Mathlib.Data.List.Induction
import Mathlib.Data.List.Nodup
import Mathlib.Data.Set.Basic
import Morceau.Lib.EState

/-!
# Rows and exact listings

A row is a finite map from variables to values. `ListsExactly p out` says that the list `out` holds
exactly the elements that satisfy `p`, each once. This file shows that exact listings are kept by
the two steps of a nested-loop evaluation of a conjunctive query: extending every row by more
variables (`ListsExactly.extend`), and the natural join of two listings (`ListsExactly.join`). Both
need the conditions on the rows to look at no more than the variables the rows bind (`Local`).

A row that is filled by insertions keeps every entry when no insertion rebinds a variable
(`NoRebinding.keeps`).
-/

set_option autoImplicit false

namespace Morceau.Lib

/-! ## Exact listings -/

/-- The list holds exactly what satisfies `p`, each once. -/
def ListsExactly {α : Type} (p : α → Prop) (out : List α) : Prop :=
  out.Nodup ∧ ∀ a, a ∈ out ↔ p a

namespace ListsExactly

variable {α β : Type} {p : α → Prop} {out : List α}

theorem congr {p' : α → Prop} (h : ListsExactly p out) (hp : ∀ a, p a ↔ p' a) :
    ListsExactly p' out :=
  ⟨h.1, fun a => (h.2 a).trans (hp a)⟩

/-- The empty list, when nothing satisfies `p`. -/
theorem nil (h : ∀ a, ¬ p a) : ListsExactly p [] :=
  ⟨List.nodup_nil, fun a => by simp [h a]⟩

theorem filter {f : α → Bool} (h : ListsExactly p out) :
    ListsExactly (fun a => p a ∧ f a = true) (out.filter f) :=
  ⟨h.1.filter f, fun a => by rw [List.mem_filter, h.2]⟩

theorem map {f : α → β} (h : ListsExactly p out) (hf : Function.Injective f) :
    ListsExactly (fun b => ∃ a, p a ∧ f a = b) (out.map f) :=
  ⟨h.1.map hf, fun b => by simp only [List.mem_map, h.2]⟩

/-- A partial function that is injective on what is listed. -/
theorem filterMap {f : α → Option β} (h : ListsExactly p out)
    (hf : ∀ a a' b, p a → p a' → f a = some b → f a' = some b → a = a') :
    ListsExactly (fun b => ∃ a, p a ∧ f a = some b) (out.filterMap f) := by
  refine ⟨?_, fun b => ?_⟩
  · refine List.pairwise_filterMap.2 (List.Pairwise.imp_of_mem ?_ h.1)
    rintro a a' ha ha' hne b hb b' hb' rfl
    exact hne (hf a a' b ((h.2 a).1 ha) ((h.2 a').1 ha') hb hb')
  · simp only [List.mem_filterMap, h.2]

/-- Listing one part and then what is new of another. -/
theorem append {q : α → Prop} {out' : List α} (h : ListsExactly p out)
    (h' : ListsExactly (fun a => q a ∧ ¬ p a) out') :
    ListsExactly (fun a => p a ∨ q a) (out ++ out') := by
  refine ⟨List.nodup_append.2 ⟨h.1, h'.1, ?_⟩, fun a => ?_⟩
  · rintro a ha _ ha' rfl
    exact ((h'.2 a).1 ha').2 ((h.2 a).1 ha)
  · rw [List.mem_append, h.2, h'.2]
    tauto

/-- Listings of disjoint parts, one for each element of a list without repetitions. -/
theorem flatten {q : α → β → Prop} {parts : List (List β)} (hout : out.Nodup)
    (hparts : List.Forall₂ (fun a part => ListsExactly (q a) part) out parts)
    (hdisj : ∀ a ∈ out, ∀ a' ∈ out, ∀ b, q a b → q a' b → a = a') :
    ListsExactly (fun b => ∃ a ∈ out, q a b) parts.flatten := by
  induction hparts with
  | nil => exact nil (by simp)
  | @cons a part out parts hpart _ ih =>
      obtain ⟨ha, hout⟩ := List.nodup_cons.1 hout
      have hrest := ih hout fun a₁ h₁ a₂ h₂ =>
        hdisj a₁ (List.mem_cons_of_mem a h₁) a₂ (List.mem_cons_of_mem a h₂)
      refine ⟨?_, fun b => ?_⟩
      · rw [List.flatten_cons]
        refine hpart.1.append hrest.1 fun b hb hb' => ?_
        obtain ⟨a', ha', hq⟩ := (hrest.2 b).1 hb'
        -- a common element would make the two parts those of the same element of the list
        have heq := hdisj a List.mem_cons_self a' (List.mem_cons_of_mem a ha') b
          ((hpart.2 b).1 hb) hq
        exact ha (heq ▸ ha')
      · simp only [List.flatten_cons, List.mem_append, hpart.2, hrest.2, List.exists_mem_cons_iff]

end ListsExactly

/-! ## Rows -/

section Rows

variable {κ β : Type} [Ord κ] [Std.TransOrd κ]

/-- The row binds exactly the variables `vars`. -/
def Binds (row : Std.ExtTreeMap κ β compare) (vars : List κ) : Prop := ∀ x, x ∈ row ↔ x ∈ vars

/-- The rows are the same at the variables `vars`. -/
def Agree (vars : List κ) (a b : Std.ExtTreeMap κ β compare) : Prop := ∀ x ∈ vars, a[x]? = b[x]?

/-- The condition looks at the variables `vars` only. -/
def Local (vars : List κ) (Q : Std.ExtTreeMap κ β compare → Prop) : Prop :=
  ∀ a b, Agree vars a b → Q a → Q b

/-- The part of a row at the variables `vars`. -/
def restrict [DecidableEq κ] (row : Std.ExtTreeMap κ β compare) (vars : List κ) :
    Std.ExtTreeMap κ β compare :=
  row.filter fun x _ => decide (x ∈ vars)

/-- The entries of both rows, where the first row has the say. -/
def merge (a b : Std.ExtTreeMap κ β compare) : Std.ExtTreeMap κ β compare :=
  b.toList.foldl (fun out (k, v) => out.insertIfNew k v) a

/-- The rows have the same value where they both have one. -/
def Compatible (a b : Std.ExtTreeMap κ β compare) : Prop :=
  ∀ (x : κ) (v w : β), a[x]? = some v → b[x]? = some w → v = w

variable {a b row : Std.ExtTreeMap κ β compare} {vars : List κ}

theorem Agree.symm (h : Agree vars a b) : Agree vars b a := fun x hx => (h x hx).symm

theorem Agree.mono {vars' : List κ} (h : Agree vars a b) (hsub : vars' ⊆ vars) : Agree vars' a b :=
  fun x hx => h x (hsub hx)

theorem Binds.getElem?_eq_none (h : Binds row vars) {x : κ} (hx : x ∉ vars) : row[x]? = none := by
  rw [← h x, Std.ExtTreeMap.mem_iff_isSome_getElem?] at hx
  simpa using hx

theorem Binds.exists_of_mem (h : Binds row vars) {x : κ} (hx : x ∈ vars) : ∃ v, row[x]? = some v :=
  Option.isSome_iff_exists.1 (Std.ExtTreeMap.mem_iff_isSome_getElem?.1 ((h x).2 hx))

variable [Std.LawfulEqOrd κ]

theorem binds_nil : Binds row [] ↔ row = ∅ := by
  constructor
  · intro h
    refine Std.ExtTreeMap.ext_getElem? fun x => ?_
    rw [h.getElem?_eq_none (by simp)]
    simp
  · rintro rfl x
    simp

/-- Rows that bind the same variables and agree there are the same. -/
theorem Binds.ext (ha : Binds a vars) (hb : Binds b vars) (h : Agree vars a b) : a = b := by
  refine Std.ExtTreeMap.ext_getElem? fun x => ?_
  by_cases hx : x ∈ vars
  · exact h x hx
  · rw [ha.getElem?_eq_none hx, hb.getElem?_eq_none hx]

/-- A row extended by one fresh variable. -/
theorem eq_insert_iff {m : Std.ExtTreeMap κ β compare} {x : κ} {v : β} (h : Binds row vars)
    (hx : x ∉ vars) :
    m = row.insert x v ↔ Binds m (vars ++ [x]) ∧ Agree vars row m ∧ m[x]? = some v := by
  have hinsert : Binds (row.insert x v) (vars ++ [x]) ∧ Agree vars row (row.insert x v) ∧
      (row.insert x v)[x]? = some v := by
    refine ⟨fun y => ?_, fun y hy => ?_, by simp⟩
    · rw [Std.ExtTreeMap.mem_insert, h y, Std.LawfulEqCmp.compare_eq_iff_eq]
      simp [or_comm, eq_comm]
    · have hne : x ≠ y := fun heq => hx (heq ▸ hy)
      rw [Std.ExtTreeMap.getElem?_insert, if_neg (by rwa [Std.LawfulEqCmp.compare_eq_iff_eq])]
  constructor
  · rintro rfl
    exact hinsert
  · rintro ⟨hm, hagree, hv⟩
    refine hm.ext hinsert.1 fun y hy => ?_
    rcases List.mem_append.1 hy with hy | hy
    · exact (hagree y hy).symm.trans (hinsert.2.1 y hy)
    · obtain rfl : y = x := by simpa using hy
      rw [hv, hinsert.2.2]

/-- A row extended by two fresh variables. -/
theorem eq_insert_insert_iff {m : Std.ExtTreeMap κ β compare} {x y : κ} {v w : β}
    (h : Binds row vars) (hx : x ∉ vars) (hy : y ∉ vars) (hxy : x ≠ y) :
    m = (row.insert x v).insert y w ↔
      Binds m (vars ++ [x, y]) ∧ Agree vars row m ∧ m[x]? = some v ∧ m[y]? = some w := by
  obtain ⟨hbinds, hagree, hv⟩ := (eq_insert_iff h hx).1 (rfl : row.insert x v = _)
  have hy' : y ∉ vars ++ [x] := by simp [hy, hxy.symm]
  rw [eq_insert_iff hbinds hy', List.append_assoc, List.singleton_append]
  refine and_congr_right fun _ => ?_
  constructor
  · rintro ⟨hm, hw⟩
    refine ⟨fun z hz => ?_, by rw [← hm x (by simp), hv], hw⟩
    rw [hagree z hz, hm z (by simp [hz])]
  · rintro ⟨hm, hmv, hw⟩
    refine ⟨fun z hz => ?_, hw⟩
    rcases List.mem_append.1 hz with hz | hz
    · rw [← hagree z hz, hm z hz]
    · obtain rfl : z = x := by simpa using hz
      rw [hv, hmv]

variable [DecidableEq κ]

theorem getElem?_restrict (row : Std.ExtTreeMap κ β compare) (vars : List κ) (x : κ) :
    (restrict row vars)[x]? = if x ∈ vars then row[x]? else none := by
  rw [restrict, Std.ExtTreeMap.getElem?_filter']
  split <;> rename_i hx <;> cases row[x]? <;> simp [hx]

theorem agree_restrict (row : Std.ExtTreeMap κ β compare) (vars : List κ) :
    Agree vars (restrict row vars) row := by
  intro x hx
  rw [getElem?_restrict, if_pos hx]

theorem Binds.restrict {vars' : List κ} (h : Binds row vars') (hsub : vars ⊆ vars') :
    Binds (restrict row vars) vars := by
  intro x
  rw [Std.ExtTreeMap.mem_iff_isSome_getElem?, getElem?_restrict]
  by_cases hx : x ∈ vars
  · obtain ⟨v, hv⟩ := h.exists_of_mem (hsub hx)
    simp [hx, hv]
  · simp [hx]

/-- Inserting pairs that are new, one after another: the first pair of a key wins. -/
theorem getElem?_foldl_insertIfNew (l : List (κ × β)) (x : κ) :
    ∀ a : Std.ExtTreeMap κ β compare,
      (l.foldl (fun out (k, v) => out.insertIfNew k v) a)[x]? =
        (a[x]?).or ((l.find? fun kv => kv.1 = x).map Prod.snd) := by
  induction l with
  | nil => simp
  | cons kv l ih =>
      intro a
      rw [List.foldl_cons, ih, Std.ExtTreeMap.getElem?_insertIfNew, List.find?_cons]
      by_cases hk : kv.1 = x
      · subst hk
        by_cases hmem : kv.1 ∈ a <;> simp [hmem]
      · simp [hk]

theorem getElem?_merge (a b : Std.ExtTreeMap κ β compare) (x : κ) :
    (merge a b)[x]? = (a[x]?).or b[x]? := by
  have hfind : ((b.toList.find? fun kv => kv.1 = x).map Prod.snd) = b[x]? := by
    cases hf : b.toList.find? fun kv => kv.1 = x with
    | some kv =>
        obtain ⟨hk, hmem⟩ := And.intro (List.find?_some hf) (List.mem_of_find?_eq_some hf)
        have hk : kv.1 = x := by simpa using hk
        rw [Option.map_some, eq_comm, ← Std.ExtTreeMap.mem_toList_iff_getElem?_eq_some, ← hk]
        exact hmem
    | none =>
        cases hb : b[x]? with
        | none => rfl
        | some v =>
            have hmem := Std.ExtTreeMap.mem_toList_iff_getElem?_eq_some.2 hb
            simpa using List.find?_eq_none.1 hf (x, v) hmem
  rw [merge, getElem?_foldl_insertIfNew, hfind]

/-! ## Extending rows -/

variable {D V : List κ} {Q R : Std.ExtTreeMap κ β compare → Prop}
  {rows cands : List (Std.ExtTreeMap κ β compare)}

/-- Every row over `D` that satisfies `Q` is extended, in all the ways that satisfy `R`, to the
variables `V` as well. Together these are all the rows over both that satisfy both. -/
theorem ListsExactly.extend {parts : List (List (Std.ExtTreeMap κ β compare))}
    (h : ListsExactly (fun r => Binds r D ∧ Q r) rows) (hQ : Local D Q)
    (hparts : List.Forall₂
      (fun r part => ListsExactly (fun m => Binds m (D ++ V) ∧ Agree D r m ∧ R m) part)
      rows parts) :
    ListsExactly (fun m => Binds m (D ++ V) ∧ Q m ∧ R m) parts.flatten := by
  have hall := ListsExactly.flatten h.1 hparts fun r hr r' hr' m hm hm' =>
    ((h.2 r).1 hr).1.ext ((h.2 r').1 hr').1 fun x hx => (hm.2.1 x hx).trans (hm'.2.1 x hx).symm
  refine hall.congr fun m => ?_
  constructor
  · rintro ⟨r, hr, hm, hagree, hR⟩
    exact ⟨hm, hQ r m hagree ((h.2 r).1 hr).2, hR⟩
  · rintro ⟨hm, hQm, hR⟩
    -- the row it comes from is its own part at `D`
    have hagree := agree_restrict m D
    refine ⟨restrict m D, (h.2 _).2 ⟨hm.restrict (by simp), hQ m _ hagree.symm hQm⟩, hm, hagree, hR⟩

omit [Std.LawfulEqOrd κ] [DecidableEq κ] in
/-- A row that agrees on the names of another has its values. -/
theorem Binds.value_eq {vars : List κ} {s m : Std.ExtTreeMap κ β compare} (hs : Binds s vars)
    (hagree : Agree vars s m) {x : κ} {v : β} (hv : s[x]? = some v) : m[x]? = some v := by
  have hx : x ∈ vars := by
    rw [← hs x, Std.ExtTreeMap.mem_iff_isSome_getElem?, hv]
    rfl
  rw [← hagree x hx, hv]

/-- A row extends two others exactly when these are compatible and it is their merge. -/
theorem compatible_merge_iff {r t m : Std.ExtTreeMap κ β compare} (hr : Binds r D)
    (hc : Binds t V) :
    Compatible r t ∧ m = merge r t ↔ Binds m (D ++ V) ∧ Agree D r m ∧ Agree V t m := by
  constructor
  · rintro ⟨hcomp, rfl⟩
    refine ⟨fun x => ?_, fun x hx => ?_, fun x hx => ?_⟩
    · rw [Std.ExtTreeMap.mem_iff_isSome_getElem?, getElem?_merge, List.mem_append, ← hr x, ← hc x,
        Std.ExtTreeMap.mem_iff_isSome_getElem?, Std.ExtTreeMap.mem_iff_isSome_getElem?]
      simp
    · obtain ⟨v, hv⟩ := hr.exists_of_mem hx
      rw [getElem?_merge, hv, Option.some_or]
    · obtain ⟨w, hw⟩ := hc.exists_of_mem hx
      rw [getElem?_merge, hw]
      cases hv : r[x]? with
      | none => rfl
      | some v => rw [hcomp x v w hv hw, Option.some_or]
  · rintro ⟨hm, hrm, hcm⟩
    refine ⟨fun x v w hv hw => ?_, Std.ExtTreeMap.ext_getElem? fun x => ?_⟩
    · exact Option.some.inj ((hr.value_eq hrm hv).symm.trans (hc.value_eq hcm hw))
    · rw [getElem?_merge]
      cases hv : r[x]? with
      | some v => rw [hr.value_eq hrm hv, Option.some_or]
      | none =>
          rw [Option.none_or]
          cases hw : t[x]? with
          | some w => exact hc.value_eq hcm hw
          | none =>
              -- a name that neither row binds is bound by nothing that binds their names
              refine hm.getElem?_eq_none fun hx => ?_
              rcases List.mem_append.1 hx with hx | hx
              · obtain ⟨v, hv'⟩ := hr.exists_of_mem hx
                simp [hv] at hv'
              · obtain ⟨w, hw'⟩ := hc.exists_of_mem hx
                simp [hw] at hw'

/-- The natural join. Nested loops over two listings, where a pair of rows is merged when it is
compatible, list exactly the rows that satisfy both conditions. -/
theorem ListsExactly.join
    {unify : Std.ExtTreeMap κ β compare → Std.ExtTreeMap κ β compare →
      Option (Std.ExtTreeMap κ β compare)}
    (h : ListsExactly (fun r => Binds r D ∧ Q r) rows)
    (hc : ListsExactly (fun c => Binds c V ∧ R c) cands) (hQ : Local D Q) (hR : Local V R)
    (hunify : ∀ r c m, Binds r D → Q r → Binds c V → R c →
      (unify r c = some m ↔ Compatible r c ∧ m = merge r c)) :
    ListsExactly (fun m => Binds m (D ++ V) ∧ Q m ∧ R m)
      (rows.flatMap fun r => cands.filterMap (unify r)) := by
  rw [List.flatMap_def]
  refine h.extend hQ (List.forall₂_map_right_iff.2 (List.forall₂_same.2 fun r hr => ?_))
  obtain ⟨hrD, hQr⟩ := (h.2 r).1 hr
  have hsome : ∀ c m, Binds c V ∧ R c →
      (unify r c = some m ↔ Binds m (D ++ V) ∧ Agree D r m ∧ Agree V c m) :=
    fun c m hcV => (hunify r c m hrD hQr hcV.1 hcV.2).trans (compatible_merge_iff hrD hcV.1)
  refine (hc.filterMap (f := unify r) fun c c' m hcV hcV' hm hm' => ?_).congr fun m => ?_
  · have hcm := ((hsome c m hcV).1 hm).2.2
    have hcm' := ((hsome c' m hcV').1 hm').2.2
    exact hcV.1.ext hcV'.1 fun x hx => (hcm x hx).trans (hcm' x hx).symm
  · constructor
    · rintro ⟨c, hcV, hm⟩
      obtain ⟨hmD, hrm, hcm⟩ := (hsome c m hcV).1 hm
      exact ⟨hmD, hrm, hR c m hcm hcV.2⟩
    · rintro ⟨hmD, hrm, hRm⟩
      -- the candidate it comes from is its part at `V`
      have hagree := agree_restrict m V
      have hcV : Binds (restrict m V) V ∧ R (restrict m V) :=
        ⟨hmD.restrict (by simp), hR m _ hagree.symm hRm⟩
      exact ⟨restrict m V, hcV, (hsome _ m hcV).2 ⟨hmD, hrm, hagree⟩⟩

end Rows

/-! ## Filling a map entry by entry -/

section Filling

variable {κ β γ ε : Type} [Ord κ] [Std.TransOrd κ] {g : γ → Except ε β}
  {f : Std.ExtTreeMap κ β compare → κ × γ → Except ε (Std.ExtTreeMap κ β compare)}

/-- A loop that computes a value for each entry ends if every value can be computed. -/
theorem foldlM_insert_succeeds
    (hf : ∀ out k c, f out (k, c) = g c >>= fun v => pure (out.insert k v))
    {entries : List (κ × γ)} (h : ∀ entry ∈ entries, ∃ v, g entry.2 = .ok v) :
    ∀ start, ∃ out, entries.foldlM f start = .ok out := by
  induction entries with
  | nil => exact fun start => ⟨start, rfl⟩
  | cons entry entries ih =>
      intro start
      obtain ⟨v, hv⟩ := h entry List.mem_cons_self
      obtain ⟨out, hout⟩ :=
        ih (fun e he => h e (List.mem_cons_of_mem _ he)) (start.insert entry.1 v)
      refine ⟨out, ?_⟩
      rw [List.foldlM_cons, hf, hv]
      exact hout

/-- When it ends, every value was computed, and the map holds them under their keys. -/
theorem foldlM_insert_ok [Std.LawfulEqOrd κ]
    (hf : ∀ out k c, f out (k, c) = g c >>= fun v => pure (out.insert k v))
    (entries : List (κ × γ)) :
    ∀ {out : Std.ExtTreeMap κ β compare}, entries.Pairwise (fun a b => a.1 ≠ b.1) →
      entries.foldlM f ∅ = .ok out →
      (∀ entry ∈ entries, ∃ v, g entry.2 = .ok v) ∧
        ∀ k v, out[k]? = some v ↔ ∃ c, (k, c) ∈ entries ∧ g c = .ok v := by
  -- the last entry is inserted last, under a key that no earlier entry has
  induction entries using List.reverseRecOn with
  | nil =>
      intro out _ h
      cases h
      simp
  | append_singleton entries entry ih =>
      intro out hdistinct h
      obtain ⟨key, c⟩ := entry
      obtain ⟨hdistinct, -, hnew⟩ := List.pairwise_append.1 hdistinct
      rw [List.foldlM_append] at h
      obtain ⟨out₀, hout₀, h⟩ := exceptBind_eq_ok_iff.1 h
      obtain ⟨hvalues, hlookup⟩ := ih hdistinct hout₀
      rw [List.foldlM_cons, hf] at h
      cases hc : g c with
      | error err =>
          rw [hc] at h
          cases h
      | ok w =>
          rw [hc] at h
          cases h
          refine ⟨fun entry hentry => ?_, fun k v => ?_⟩
          · rcases List.mem_append.1 hentry with hentry | hentry
            · exact hvalues entry hentry
            · rw [List.mem_singleton.1 hentry]
              exact ⟨w, hc⟩
          · rw [Std.ExtTreeMap.getElem?_insert]
            by_cases hk : key = k
            · subst hk
              have hnone : ∀ c', (key, c') ∉ entries := fun c' hmem =>
                hnew _ hmem _ List.mem_cons_self rfl
              simp [hnone, hc]
            · have hcmp : compare key k ≠ .eq := fun heq => hk (Std.LawfulEqCmp.eq_of_compare heq)
              simp [hcmp, hlookup, Ne.symm hk]

end Filling

/-! ## Insertions -/

section Insertions

variable {κ β : Type} [Ord κ] [Std.TransOrd κ]

/-- The entries of the first row are entries of the second. -/
def Within (a b : Std.ExtTreeMap κ β compare) : Prop :=
  ∀ (x : κ) (v : β), a[x]? = some v → b[x]? = some v

/-- Insert the entries, one after another. -/
def insertAll (row : Std.ExtTreeMap κ β compare) (entries : List (κ × β)) :
    Std.ExtTreeMap κ β compare :=
  entries.foldl (fun row entry => row.insert entry.1 entry.2) row

/-- No insertion gives a variable another value than the row has for it at that moment. -/
def NoRebinding : Std.ExtTreeMap κ β compare → List (κ × β) → Prop
  | _, [] => True
  | row, (x, v) :: entries =>
      (∀ w, row[x]? = some w → w = v) ∧ NoRebinding (row.insert x v) entries

variable [Std.LawfulEqOrd κ] {a b row out : Std.ExtTreeMap κ β compare} {entries : List (κ × β)}

theorem getElem?_insert_eq_some_iff {x y : κ} {v w : β} :
    (row.insert x v)[y]? = some w ↔ x = y ∧ v = w ∨ x ≠ y ∧ row[y]? = some w := by
  rw [Std.ExtTreeMap.getElem?_insert]
  by_cases hxy : x = y
  · simp [hxy]
  · simp [hxy, Std.LawfulEqCmp.compare_eq_iff_eq]

theorem Within.insert {x : κ} {v : β} (h : Within row out) (hv : out[x]? = some v) :
    Within (row.insert x v) out := by
  intro y w hw
  rcases getElem?_insert_eq_some_iff.1 hw with ⟨rfl, rfl⟩ | ⟨-, hw⟩
  · exact hv
  · exact h y w hw

/-- Without rebinding, the row keeps what it had and has every entry in the end. -/
theorem NoRebinding.keeps : ∀ {row : Std.ExtTreeMap κ β compare}, NoRebinding row entries →
    Within row (insertAll row entries) ∧
      ∀ entry ∈ entries, (insertAll row entries)[entry.1]? = some entry.2 := by
  induction entries with
  | nil => exact fun _ => ⟨fun _ _ hv => hv, by simp⟩
  | cons entry entries ih =>
      rintro row ⟨hfree, hrest⟩
      obtain ⟨hkeeps, hentries⟩ := ih hrest
      refine ⟨fun x v hv => hkeeps x v ?_, fun entry' hmem => ?_⟩
      · rw [getElem?_insert_eq_some_iff]
        by_cases hx : entry.1 = x
        · subst hx
          exact Or.inl ⟨rfl, (hfree v hv).symm⟩
        · exact Or.inr ⟨hx, hv⟩
      · rcases List.mem_cons.1 hmem with rfl | hmem
        · exact hkeeps _ _ (getElem?_insert_eq_some_iff.2 (Or.inl ⟨rfl, rfl⟩))
        · exact hentries entry' hmem

/-- What the insertions leave was there before or is one of the entries. -/
theorem mem_of_getElem?_insertAll {x : κ} {v : β} : ∀ {row : Std.ExtTreeMap κ β compare},
    (insertAll row entries)[x]? = some v → row[x]? = some v ∨ (x, v) ∈ entries := by
  induction entries with
  | nil => exact fun hv => Or.inl hv
  | cons entry entries ih =>
      intro row hv
      rcases ih hv with hv | hmem
      · rcases getElem?_insert_eq_some_iff.1 hv with ⟨rfl, rfl⟩ | ⟨-, hv⟩
        · exact Or.inr List.mem_cons_self
        · exact Or.inl hv
      · exact Or.inr (List.mem_cons_of_mem _ hmem)

/-- Entries that are all found in one row do not rebind each other. -/
theorem noRebinding_of_within : ∀ {row : Std.ExtTreeMap κ β compare}, Within row out →
    (∀ entry ∈ entries, out[entry.1]? = some entry.2) → NoRebinding row entries := by
  induction entries with
  | nil => exact fun _ _ => trivial
  | cons entry entries ih =>
      intro row hrow hall
      have hentry := hall entry List.mem_cons_self
      refine ⟨fun w hw => ?_, ih (hrow.insert hentry) fun entry' hmem =>
        hall entry' (List.mem_cons_of_mem _ hmem)⟩
      exact Option.some.inj ((hrow entry.1 w hw).symm.trans hentry)

theorem mem_insertAll_iff {x : κ} : ∀ {row : Std.ExtTreeMap κ β compare},
    x ∈ insertAll row entries ↔ x ∈ row ∨ x ∈ entries.map Prod.fst := by
  induction entries with
  | nil => simp [insertAll]
  | cons entry entries ih =>
      intro row
      show x ∈ insertAll (row.insert entry.1 entry.2) entries ↔ _
      rw [ih, Std.ExtTreeMap.mem_insert, Std.LawfulEqCmp.compare_eq_iff_eq, List.map_cons,
        List.mem_cons, eq_comm]
      tauto

/-- A row whose entries are in a row over the same variables is this row. -/
theorem Within.eq {vars : List κ} (h : Within a b) (ha : Binds a vars) (hb : Binds b vars) :
    a = b := by
  refine ha.ext hb fun x hx => ?_
  obtain ⟨v, hv⟩ := ha.exists_of_mem hx
  rw [hv, h x v hv]

variable [DecidableEq κ]

theorem mem_merge_iff {x : κ} : x ∈ merge a b ↔ x ∈ a ∨ x ∈ b := by
  simp only [Std.ExtTreeMap.mem_iff_isSome_getElem?, getElem?_merge, Option.isSome_or,
    Bool.or_eq_true]

theorem within_merge_left (a b : Std.ExtTreeMap κ β compare) : Within a (merge a b) := by
  intro x v hv
  rw [getElem?_merge, hv, Option.some_or]

theorem Within.merge (ha : Within a out) (hb : Within b out) : Within (merge a b) out := by
  intro x v hv
  rw [getElem?_merge, Option.or_eq_some_iff] at hv
  rcases hv with hv | ⟨-, hv⟩
  · exact ha x v hv
  · exact hb x v hv

end Insertions

end Morceau.Lib
