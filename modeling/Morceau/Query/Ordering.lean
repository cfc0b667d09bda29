import Morceau.Data.Doubles
import Morceau.Query.Interpreter

/-!
# The two orders of values

A comparison in `WHERE` turns two integers into doubles; `ORDER BY` compares them as integers. The
two agree on a pair of integers exactly when the pair does not become one double.

The comparator of `ORDER BY` puts a value after another one when the two are of one kind and the
first one is larger, and a null after everything else (`Value.After`); it is antisymmetric on all
values. It counts values that do not compare as equal, and compares an integer with a double as
doubles, so "equal" is not transitive: a value bridges two others when it counts as equal to both
and says nothing about their order (`Bridges`). The comparator is not transitive exactly on the
triples in which the first value is after the last one and the one in the middle bridges them.
-/

set_option autoImplicit false

namespace Morceau

open Interpreter

/-! ## Integers in `WHERE` -/

section Integers

variable {a b : Int64}

theorem compareValues_i64 (op : BinOp) (a b : Int64) :
    compareValues op (.i64 a) (.i64 b) = .ok (.bool (orderSatisfies op
      (compare (F64.nearestInt a.toInt) (F64.nearestInt b.toInt)))) := by
  rw [compareValues, F64.partialCmp_ofInt64, compareResult]

theorem eq_ofInt64_iff :
    (F64.ofInt64 a).eq (F64.ofInt64 b) = true ↔
      F64.nearestInt a.toInt = F64.nearestInt b.toInt := by
  rw [F64.eq, F64.partialCmp_ofInt64, beq_iff_eq, Option.some.injEq, compare_eq_iff_eq]

/-- The operators of `WHERE` compare the integers themselves: they give the relations of the
integers, one of `<`, `=` and `>` is true, and `<` is the strict order of `ORDER BY`. -/
structure ComparesExactly (a b : Int64) : Prop where
  lt : compareValues .lt (.i64 a) (.i64 b) = .ok (.bool (decide (a.toInt < b.toInt)))
  ltEq : compareValues .ltEq (.i64 a) (.i64 b) = .ok (.bool (decide (a.toInt ≤ b.toInt)))
  gt : compareValues .gt (.i64 a) (.i64 b) = .ok (.bool (decide (b.toInt < a.toInt)))
  gtEq : compareValues .gtEq (.i64 a) (.i64 b) = .ok (.bool (decide (b.toInt ≤ a.toInt)))
  one : ∃! op, op ∈ [BinOp.lt, .eq, .gt] ∧
    applyBinop op (.i64 a) (.i64 b) = .ok (.bool true)
  sort : applyBinop .lt (.i64 a) (.i64 b) = .ok (.bool true) ↔
    compareForSort (.i64 a) (.i64 b) .asc = .lt

theorem orderSatisfies_compare (x y : Int) :
    orderSatisfies .lt (compare x y) = decide (x < y) ∧
      orderSatisfies .ltEq (compare x y) = decide (x ≤ y) ∧
      orderSatisfies .gt (compare x y) = decide (y < x) ∧
      orderSatisfies .gtEq (compare x y) = decide (y ≤ x) := by
  rcases lt_trichotomy x y with h | rfl | h
  · rw [compare_lt_iff_lt.2 h]
    simp [orderSatisfies]
    omega
  · rw [compare_eq_iff_eq.2 rfl]
    simp [orderSatisfies]
  · rw [compare_gt_iff_gt.2 h]
    simp [orderSatisfies]
    omega

/-- If `<` and `>` compare the integers, one of the three operators is true. -/
theorem existsUnique_applyBinop
    (hlt : applyBinop .lt (.i64 a) (.i64 b) = .ok (.bool (decide (a.toInt < b.toInt))))
    (hgt : applyBinop .gt (.i64 a) (.i64 b) = .ok (.bool (decide (b.toInt < a.toInt)))) :
    ∃! op, op ∈ [BinOp.lt, .eq, .gt] ∧
      applyBinop op (.i64 a) (.i64 b) = .ok (.bool true) := by
  -- what it takes for each of them to be true
  have htrue : ∀ op ∈ [BinOp.lt, .eq, .gt], applyBinop op (.i64 a) (.i64 b) = .ok (.bool true) →
      op = .lt ∧ a.toInt < b.toInt ∨ op = .eq ∧ a = b ∨ op = .gt ∧ b.toInt < a.toInt := by
    intro op hop happly
    simp only [List.mem_cons, List.not_mem_nil, or_false] at hop
    rcases hop with rfl | rfl | rfl
    · have happly := hlt.symm.trans happly
      simp at happly
      exact .inl ⟨rfl, happly⟩
    · simp [applyBinop, valuesEqual] at happly
      exact .inr (.inl ⟨rfl, happly⟩)
    · have happly := hgt.symm.trans happly
      simp at happly
      exact .inr (.inr ⟨rfl, happly⟩)
  rcases lt_trichotomy a.toInt b.toInt with hl | he | hg
  · refine ⟨.lt, ⟨by decide, hlt.trans (by rw [decide_eq_true hl])⟩, fun op hop => ?_⟩
    rcases htrue op hop.1 hop.2 with ⟨rfl, -⟩ | ⟨rfl, rfl⟩ | ⟨rfl, hg⟩
    · rfl
    · omega
    · omega
  · obtain rfl := Int64.toInt_inj.1 he
    refine ⟨.eq, ⟨by decide, by simp [applyBinop, valuesEqual]⟩, fun op hop => ?_⟩
    rcases htrue op hop.1 hop.2 with ⟨rfl, hl⟩ | ⟨rfl, -⟩ | ⟨rfl, hg⟩
    · omega
    · rfl
    · omega
  · refine ⟨.gt, ⟨by decide, hgt.trans (by rw [decide_eq_true hg])⟩, fun op hop => ?_⟩
    rcases htrue op hop.1 hop.2 with ⟨rfl, hl⟩ | ⟨rfl, rfl⟩ | ⟨rfl, -⟩
    · omega
    · omega
    · rfl

/-- Integers whose order survives the conversion are compared exactly. -/
theorem ComparesExactly.of_compare
    (h : compare (F64.nearestInt a.toInt) (F64.nearestInt b.toInt) = compare a.toInt b.toInt) :
    ComparesExactly a b := by
  have hcmp : ∀ op, compareValues op (.i64 a) (.i64 b) =
      .ok (.bool (orderSatisfies op (compare a.toInt b.toInt))) := fun op => by
    rw [compareValues_i64, h]
  obtain ⟨hlt, hle, hgt, hge⟩ := orderSatisfies_compare a.toInt b.toInt
  have hlt := (hcmp .lt).trans (by rw [hlt])
  have hgt := (hcmp .gt).trans (by rw [hgt])
  refine ⟨hlt, (hcmp .ltEq).trans (by rw [hle]), hgt, (hcmp .gtEq).trans (by rw [hge]),
    existsUnique_applyBinop hlt hgt, ?_⟩
  have hsort : compareForSort (.i64 a) (.i64 b) .asc = compare a.toInt b.toInt := rfl
  rw [hsort, compare_lt_iff_lt, show applyBinop .lt (.i64 a) (.i64 b) = _ from hlt]
  simp

/-- Comparisons in `WHERE` are those of the integers, and those of `ORDER BY`, exactly on the pairs
that do not become one double; no two integers up to `2 ^ 53` in magnitude do. -/
theorem integer_comparison_exact_iff (a b : Int64) :
    (ComparesExactly a b ↔ ((F64.ofInt64 a).eq (F64.ofInt64 b) = true → a = b)) ∧
      (a.toInt.natAbs ≤ 2 ^ 53 → b.toInt.natAbs ≤ 2 ^ 53 → ComparesExactly a b) := by
  refine ⟨⟨fun h heq => ?_, fun h => ?_⟩, fun ha hb => ?_⟩
  · -- one double: neither `<` nor `>` is true
    have heq := compare_eq_iff_eq.2 (eq_ofInt64_iff.1 heq)
    have hlt := h.lt
    have hgt := h.gt
    rw [compareValues_i64, heq] at hlt hgt
    simp [orderSatisfies] at hlt hgt
    exact Int64.toInt_inj.1 (by omega)
  · refine ComparesExactly.of_compare (F64.compare_nearestInt fun heq => ?_)
    rw [h (eq_ofInt64_iff.2 heq)]
  · refine ComparesExactly.of_compare ?_
    rw [F64.nearestInt_of_le ha, F64.nearestInt_of_le hb]

/-- `2 ^ 53` and `2 ^ 53 + 1` become one double: neither is less, and they are not equal, while
`ORDER BY` puts the smaller one first. -/
theorem integer_comparison_two_pow_53 :
    ¬ComparesExactly (2 ^ 53) (2 ^ 53 + 1) ∧
      (∀ op ∈ [BinOp.lt, .eq, .gt],
        applyBinop op (.i64 (2 ^ 53)) (.i64 (2 ^ 53 + 1)) = .ok (.bool false)) ∧
      compareForSort (.i64 (2 ^ 53)) (.i64 (2 ^ 53 + 1)) .asc = .lt := by
  have hone : (F64.ofInt64 (2 ^ 53)).eq (F64.ofInt64 (2 ^ 53 + 1)) = true := by decide +kernel
  refine ⟨?_, by decide +kernel, by decide +kernel⟩
  intro h
  exact absurd ((integer_comparison_exact_iff _ _).1.1 h hone) (by decide)

end Integers

/-! ## Values in `ORDER BY` -/

theorem getD_partialCmp_swap (x y : F64) :
    (y.partialCmp x).getD .eq = ((x.partialCmp y).getD .eq).swap := by
  rw [F64.partialCmp_swap x y]
  cases x.partialCmp y <;> rfl

theorem naturalOrder_swap (a b : Value) : naturalOrder b a = (naturalOrder a b).swap := by
  cases a <;> cases b <;>
    first
      | rfl
      | exact Std.OrientedOrd.eq_swap
      | exact getD_partialCmp_swap _ _

/-- The kinds of values that the comparator tells apart. A NaN and a list compare with nothing. -/
inductive SortKind where
  | null
  | bool
  | number
  | string
  | timestamp
  | unordered
deriving DecidableEq, Repr

def Value.sortKind : Value → SortKind
  | .null => .null
  | .bool _ => .bool
  | .i64 _ => .number
  | .f64 x => if x.isNaN then .unordered else .number
  | .string _ => .string
  | .timestamp _ => .timestamp
  | .list _ => .unordered

/-- The value in the middle hides the order of its neighbours: it is of another kind, or it is a
double that two integers are rounded to. -/
inductive Bridges : Value → Value → Value → Prop
  | kind {a b c : Value} (ha : a ≠ .null) (hb : b ≠ .null) (hc : c ≠ .null)
      (hkind : b.sortKind ≠ a.sortKind) : Bridges a b c
  | rounded {x z : Int64} {y : F64} (hx : (F64.ofInt64 x).eq y = true)
      (hz : (F64.ofInt64 z).eq y = true) : Bridges (.i64 x) (.f64 y) (.i64 z)

section Bridges

variable {a b c : Value}

theorem sortKind_f64_ofInt64 (n : Int64) : (Value.f64 (F64.ofInt64 n)).sortKind = .number := by
  rw [Value.sortKind, F64.isNaN_ofInt64, if_neg Bool.false_ne_true]

/-- Two doubles of different kinds: one is a NaN. -/
theorem partialCmp_of_kind_ne {x y : F64}
    (h : (Value.f64 x).sortKind ≠ (Value.f64 y).sortKind) : (x.partialCmp y).getD .eq = .eq := by
  unfold F64.partialCmp
  split
  · rfl
  · rename_i hnan
    rw [Bool.or_eq_true, not_or] at hnan
    exact absurd (by rw [Value.sortKind, if_neg hnan.1, Value.sortKind, if_neg hnan.2]) h

/-- Values of two kinds count as equal. -/
theorem naturalOrder_of_kind_ne (ha : a ≠ .null) (hb : b ≠ .null) (h : a.sortKind ≠ b.sortKind) :
    naturalOrder a b = .eq := by
  cases a <;> cases b <;>
    first
      | rfl
      | exact absurd rfl ha
      | exact absurd rfl hb
      | exact absurd rfl h
      | exact partialCmp_of_kind_ne h
      | exact partialCmp_of_kind_ne (by rwa [sortKind_f64_ofInt64])

/-- A number as a double. -/
def Value.asDouble : Value → Option F64
  | .i64 n => some (F64.ofInt64 n)
  | .f64 x => some x
  | _ => none

theorem asDouble_of_kind (h : a.sortKind = .number) :
    ∃ x, a.asDouble = some x ∧ x.isNaN = false := by
  cases a with
  | i64 n => exact ⟨_, rfl, F64.isNaN_ofInt64 n⟩
  | f64 x =>
      refine ⟨x, rfl, ?_⟩
      by_contra hnan
      rw [Value.sortKind, if_pos (Bool.eq_true_of_not_eq_false hnan)] at h
      cases h
  | _ => cases h

/-- Two numbers are compared as doubles, unless both are integers. -/
theorem naturalOrder_number {x y : F64} (ha : a.asDouble = some x) (hb : b.asDouble = some y)
    (hx : x.isNaN = false) (hy : y.isNaN = false) :
    naturalOrder a b = compare x.scaled y.scaled ∨
      ∃ m n, a = .i64 m ∧ b = .i64 n ∧ naturalOrder a b = compare m.toInt n.toInt := by
  have hcmp : (x.partialCmp y).getD .eq = compare x.scaled y.scaled := by
    rw [F64.partialCmp_of_isNaN_false hx hy, Option.getD_some]
  cases a <;> cases b <;> cases ha <;> cases hb
  · exact .inr ⟨_, _, rfl, rfl, rfl⟩
  · exact .inl hcmp
  · exact .inl hcmp
  · exact .inl hcmp

/-- The value of a number, in the units of the doubles. -/
def Value.scaled (v : Value) : Int := (v.asDouble.map F64.scaled).getD 0

theorem scaled_le_of_naturalOrder (ha : a.sortKind = .number) (hb : b.sortKind = .number)
    (h : naturalOrder a b ≠ .gt) : a.scaled ≤ b.scaled := by
  obtain ⟨x, hx, hxn⟩ := asDouble_of_kind ha
  obtain ⟨y, hy, hyn⟩ := asDouble_of_kind hb
  rw [Value.scaled, Value.scaled, hx, hy]
  rcases naturalOrder_number hx hy hxn hyn with hcmp | ⟨m, n, rfl, rfl, hcmp⟩
  · rw [hcmp] at h
    exact compare_le_iff_le.1 h
  · cases hx
    cases hy
    rw [hcmp] at h
    exact F64.scaled_ofInt64_mono (compare_le_iff_le.1 h)

/-- Three numbers: the only way the comparator is not transitive is a double between two integers
that it stands for. -/
theorem rounded_of_number (ha : a.sortKind = .number) (hb : b.sortKind = .number)
    (hc : c.sortKind = .number) (hab : naturalOrder a b ≠ .gt) (hbc : naturalOrder b c ≠ .gt)
    (hac : naturalOrder a c = .gt) : Bridges a b c := by
  have hca : naturalOrder c a ≠ .gt := by
    rw [naturalOrder_swap a c, hac]
    decide
  have h₁ := scaled_le_of_naturalOrder ha hb hab
  have h₂ := scaled_le_of_naturalOrder hb hc hbc
  have h₃ := scaled_le_of_naturalOrder hc ha hca
  -- all three have one value, so `a` and `c` are told apart as integers
  obtain ⟨x, hx, hxn⟩ := asDouble_of_kind ha
  obtain ⟨y, hy, hyn⟩ := asDouble_of_kind hb
  obtain ⟨z, hz, hzn⟩ := asDouble_of_kind hc
  simp only [Value.scaled, hx, hy, hz, Option.map_some, Option.getD_some] at h₁ h₂ h₃
  rcases naturalOrder_number hx hz hxn hzn with hcmp | ⟨m, n, rfl, rfl, hcmp⟩
  · rw [hcmp, compare_gt_iff_gt] at hac
    omega
  · cases hx
    cases hz
    rw [hcmp, compare_gt_iff_gt] at hac
    cases b with
    | i64 k =>
        have h₁ : m.toInt ≤ k.toInt := compare_le_iff_le.1 hab
        have h₂ : k.toInt ≤ n.toInt := compare_le_iff_le.1 hbc
        omega
    | f64 w =>
        obtain rfl : w = y := Option.some.inj hy
        have heq : ∀ i : Int64, (F64.ofInt64 i).scaled = w.scaled →
            (F64.ofInt64 i).eq w = true := by
          intro i hi
          rw [F64.eq, F64.partialCmp_of_isNaN_false (F64.isNaN_ofInt64 i) hyn, hi,
            compare_eq_iff_eq.2 rfl]
          rfl
        exact .rounded (heq m (by omega)) (heq n (by omega))
    | _ => cases hy

/-- The first value is after the second one: it is a null and the other is not, or both are of one
kind and it is larger. Two integers are compared as they are, other numbers as doubles, of which a
NaN is after nothing. -/
inductive Value.After : Value → Value → Prop
  | null {v : Value} (hv : v ≠ .null) : Value.After .null v
  | bool : Value.After (.bool true) (.bool false)
  | i64 {m n : Int64} (h : n.toInt < m.toInt) : Value.After (.i64 m) (.i64 n)
  | f64 {x y : F64} (hx : x.isNaN = false) (hy : y.isNaN = false) (h : y.scaled < x.scaled) :
      Value.After (.f64 x) (.f64 y)
  | i64F64 {m : Int64} {y : F64} (hy : y.isNaN = false) (h : y.scaled < (F64.ofInt64 m).scaled) :
      Value.After (.i64 m) (.f64 y)
  | f64I64 {x : F64} {n : Int64} (hx : x.isNaN = false) (h : (F64.ofInt64 n).scaled < x.scaled) :
      Value.After (.f64 x) (.i64 n)
  | string {s t : String} (h : compare t s = .lt) : Value.After (.string s) (.string t)
  | timestamp {s t : Int64} (h : t.toInt < s.toInt) : Value.After (.timestamp s) (.timestamp t)

/-- A double is above another one when both are numbers and its value is larger. -/
theorem partialCmp_eq_gt_iff {x y : F64} :
    (x.partialCmp y).getD .eq = .gt ↔
      x.isNaN = false ∧ y.isNaN = false ∧ y.scaled < x.scaled := by
  cases hx : x.isNaN with
  | true => simp [F64.partialCmp, hx]
  | false =>
      cases hy : y.isNaN with
      | true => simp [F64.partialCmp, hy]
      | false =>
          rw [F64.partialCmp_of_isNaN_false hx hy, Option.getD_some, compare_gt_iff_gt]
          exact ⟨fun h => ⟨rfl, rfl, h⟩, fun h => h.2.2⟩

theorem naturalOrder_of_after (h : a.After b) : naturalOrder a b = .gt := by
  cases h with
  | null hv =>
      cases b with
      | null => exact absurd rfl hv
      | _ => rfl
  | bool => rfl
  | i64 h => exact compare_gt_iff_gt.2 h
  | f64 hx hy h => exact partialCmp_eq_gt_iff.2 ⟨hx, hy, h⟩
  | i64F64 hy h => exact partialCmp_eq_gt_iff.2 ⟨F64.isNaN_ofInt64 _, hy, h⟩
  | f64I64 hx h => exact partialCmp_eq_gt_iff.2 ⟨hx, F64.isNaN_ofInt64 _, h⟩
  | string h =>
      rw [naturalOrder]
      exact Std.OrientedCmp.gt_iff_lt.2 h
  | timestamp h => exact compare_gt_iff_gt.2 h

theorem after_of_naturalOrder (h : naturalOrder a b = .gt) : a.After b := by
  -- the pairs that the comparator tells apart; for the others it does not give `.gt`
  cases a with
  | null =>
      refine .null ?_
      rintro rfl
      cases h
  | bool x =>
      cases b with
      | bool y =>
          cases x <;> cases y <;> first | exact .bool | cases h
      | _ => cases h
  | i64 m =>
      cases b with
      | i64 n => exact .i64 (compare_gt_iff_gt.1 h)
      | f64 y =>
          obtain ⟨-, hy, hlt⟩ := partialCmp_eq_gt_iff.1 h
          exact .i64F64 hy hlt
      | _ => cases h
  | f64 x =>
      cases b with
      | i64 n =>
          obtain ⟨hx, -, hlt⟩ := partialCmp_eq_gt_iff.1 h
          exact .f64I64 hx hlt
      | f64 y =>
          obtain ⟨hx, hy, hlt⟩ := partialCmp_eq_gt_iff.1 h
          exact .f64 hx hy hlt
      | _ => cases h
  | string s =>
      cases b with
      | string t =>
          rw [naturalOrder] at h
          exact .string (Std.OrientedCmp.gt_iff_lt.1 h)
      | _ => cases h
  | timestamp s =>
      cases b with
      | timestamp t => exact .timestamp (compare_gt_iff_gt.1 h)
      | _ => cases h
  | list vs => cases b <;> cases h

/-- The comparator tells values apart by kind and value. -/
theorem naturalOrder_eq_gt_iff : naturalOrder a b = .gt ↔ a.After b :=
  ⟨after_of_naturalOrder, naturalOrder_of_after⟩

theorem naturalOrder_null_left (h : naturalOrder .null b ≠ .gt) : b = .null := by
  cases b with
  | null => rfl
  | _ => exact absurd rfl h

theorem naturalOrder_null_right : naturalOrder a .null ≠ .gt := by
  cases a <;> exact Ordering.noConfusion

theorem sortKind_f64 (x : F64) :
    (Value.f64 x).sortKind = .unordered ∨ (Value.f64 x).sortKind = .number := by
  rw [Value.sortKind]
  split
  · exact .inl rfl
  · exact .inr rfl

theorem bool_of_kind (h : a.sortKind = .bool) : ∃ x, a = .bool x := by
  cases a with
  | bool x => exact ⟨x, rfl⟩
  | f64 x => rcases sortKind_f64 x with hk | hk <;> cases hk.symm.trans h
  | _ => cases h

theorem string_of_kind (h : a.sortKind = .string) : ∃ s, a = .string s := by
  cases a with
  | string s => exact ⟨s, rfl⟩
  | f64 x => rcases sortKind_f64 x with hk | hk <;> cases hk.symm.trans h
  | _ => cases h

theorem timestamp_of_kind (h : a.sortKind = .timestamp) : ∃ t, a = .timestamp t := by
  cases a with
  | timestamp t => exact ⟨t, rfl⟩
  | f64 x => rcases sortKind_f64 x with hk | hk <;> cases hk.symm.trans h
  | _ => cases h

/-- What compares with nothing. -/
theorem naturalOrder_unordered (ha : a.sortKind = .unordered) (hc : c ≠ .null) :
    naturalOrder a c = .eq := by
  cases a with
  | list vs => cases c <;> first | rfl | exact absurd rfl hc
  | f64 x =>
      have hx : x.isNaN = true := by
        by_contra hnan
        rw [Value.sortKind, if_neg hnan] at ha
        cases ha
      have hnone : ∀ y, (x.partialCmp y).getD .eq = .eq := fun y => by
        rw [F64.partialCmp, hx, Bool.true_or, if_pos rfl, Option.getD_none]
      cases c <;> first | rfl | exact hnone _ | exact absurd rfl hc
  | _ => cases ha

/-- Within one kind other than the numbers the comparator is transitive. -/
theorem naturalOrder_trans_of_kind (hnum : a.sortKind ≠ .number) (ha : a ≠ .null) (hc : c ≠ .null)
    (hb : b.sortKind = a.sortKind) (hca : c.sortKind = a.sortKind)
    (hab : naturalOrder a b ≠ .gt) (hbc : naturalOrder b c ≠ .gt) : naturalOrder a c ≠ .gt := by
  cases a with
  | null => exact absurd rfl ha
  | i64 n => exact absurd rfl hnum
  | bool x =>
      obtain ⟨y, rfl⟩ := bool_of_kind hb
      obtain ⟨z, rfl⟩ := bool_of_kind hca
      rw [naturalOrder] at hab hbc ⊢
      exact Std.TransCmp.le_trans hab hbc
  | string x =>
      obtain ⟨y, rfl⟩ := string_of_kind hb
      obtain ⟨z, rfl⟩ := string_of_kind hca
      rw [naturalOrder] at hab hbc ⊢
      exact Std.TransCmp.le_trans hab hbc
  | timestamp x =>
      obtain ⟨y, rfl⟩ := timestamp_of_kind hb
      obtain ⟨z, rfl⟩ := timestamp_of_kind hca
      rw [naturalOrder] at hab hbc ⊢
      exact Std.TransCmp.le_trans hab hbc
  | f64 x =>
      rcases sortKind_f64 x with hk | hk
      · rw [naturalOrder_unordered hk hc]
        decide
      · exact absurd hk hnum
  | list vs =>
      rw [naturalOrder_unordered rfl hc]
      decide

/-- Where the comparator is not transitive, the value in the middle is a bridge. -/
theorem bridges_of_not_trans (hab : naturalOrder a b ≠ .gt) (hbc : naturalOrder b c ≠ .gt)
    (hac : naturalOrder a c = .gt) : Bridges a b c := by
  have hc : c ≠ .null := by
    rintro rfl
    exact naturalOrder_null_right hac
  have hb : b ≠ .null := by
    rintro rfl
    exact hc (naturalOrder_null_left hbc)
  have ha : a ≠ .null := by
    rintro rfl
    exact hb (naturalOrder_null_left hab)
  by_cases hkind : b.sortKind = a.sortKind
  · have hca : c.sortKind = a.sortKind := by
      by_contra hne
      rw [naturalOrder_of_kind_ne ha hc (Ne.symm hne)] at hac
      cases hac
    by_cases hnum : a.sortKind = .number
    · exact rounded_of_number hnum (hkind.trans hnum) (hca.trans hnum) hab hbc hac
    · exact absurd hac (naturalOrder_trans_of_kind hnum ha hc hkind hca hab hbc)
  · exact .kind ha hb hc hkind

/-- A bridge counts as equal to a value that it hides. -/
theorem Bridges.naturalOrder_eq (h : Bridges a b c) : naturalOrder a b = .eq := by
  cases h with
  | kind ha hb hc hkind => exact naturalOrder_of_kind_ne ha hb hkind.symm
  | rounded hx hz =>
      have hx := beq_iff_eq.1 hx
      rw [naturalOrder, hx, Option.getD_some]

/-- Seen from the other side, if the neighbours are told apart. -/
theorem Bridges.symm (h : Bridges a b c) (hac : naturalOrder a c ≠ .eq) : Bridges c b a := by
  cases h with
  | kind ha hb hc hkind =>
      refine .kind hc hb ha ?_
      have hca : a.sortKind = c.sortKind := by
        by_contra hne
        exact hac (naturalOrder_of_kind_ne ha hc hne)
      rwa [← hca]
  | rounded hx hz => exact .rounded hz hx

/-- On the values themselves: the bridges are the only failures of transitivity. -/
theorem naturalOrder_trans_iff :
    (naturalOrder a b ≠ .gt → naturalOrder b c ≠ .gt → naturalOrder a c ≠ .gt) ↔
      ¬(naturalOrder a c = .gt ∧ Bridges a b c) := by
  constructor
  · rintro htrans ⟨hac, hbridge⟩
    have hab := hbridge.naturalOrder_eq
    have hcb := (hbridge.symm (by rw [hac]; decide)).naturalOrder_eq
    have hbc : naturalOrder b c = .eq := by
      rw [naturalOrder_swap c b, hcb]
      rfl
    exact htrans (by rw [hab]; decide) (by rw [hbc]; decide) hac
  · intro hno hab hbc hac
    exact hno ⟨hac, bridges_of_not_trans hab hbc hac⟩

end Bridges

section Directions

variable (dir : SortDirection) (a b c : Value)

theorem compareForSort_desc : compareForSort a b .desc = naturalOrder b a :=
  (naturalOrder_swap a b).symm

theorem compareForSort_swap : compareForSort a b dir = (compareForSort b a dir).swap := by
  cases dir with
  | asc => exact naturalOrder_swap b a
  | desc =>
      rw [compareForSort_desc, compareForSort_desc]
      exact naturalOrder_swap a b

theorem compareForSort_total :
    (compareForSort a b dir != .gt || compareForSort b a dir != .gt) = true := by
  rw [compareForSort_swap dir a b]
  cases compareForSort b a dir <;> rfl

theorem compareForSort_trans_iff :
    (compareForSort a b dir ≠ .gt → compareForSort b c dir ≠ .gt → compareForSort a c dir ≠ .gt) ↔
      ¬(compareForSort a c dir = .gt ∧ Bridges a b c) := by
  cases dir with
  | asc => exact naturalOrder_trans_iff
  | desc =>
      simp only [compareForSort_desc]
      -- the triple read backwards
      have hiff := naturalOrder_trans_iff (a := c) (b := b) (c := a)
      have hsides : naturalOrder c a = .gt ∧ Bridges c b a ↔
          naturalOrder c a = .gt ∧ Bridges a b c := by
        refine and_congr_right fun hca => ?_
        have hac := naturalOrder_swap c a
        rw [hca] at hac
        exact ⟨fun h => h.symm (by rw [hca]; decide), fun h => h.symm (by rw [hac]; decide)⟩
      rw [hsides] at hiff
      rw [← hiff]
      exact ⟨fun h hcb hba => h hba hcb, fun h hba hcb => h hcb hba⟩

end Directions

/-- The first value is sorted after the second one. -/
def SortsAfter : SortDirection → Value → Value → Prop
  | .asc, a, b => a.After b
  | .desc, a, b => b.After a

theorem compareForSort_eq_gt_iff (dir : SortDirection) (a b : Value) :
    compareForSort a b dir = .gt ↔ SortsAfter dir a b := by
  cases dir with
  | asc => exact naturalOrder_eq_gt_iff
  | desc =>
      rw [compareForSort_desc]
      exact naturalOrder_eq_gt_iff

/-- The comparator of `ORDER BY` puts a value after another one exactly if it is after it by kind
and value, and it is antisymmetric, on all values and in both directions. It is transitive exactly
on the triples in which the first value is not after the last one, or the value in the middle does
not hide their order. -/
theorem sort_order_transitive_iff (dir : SortDirection) (a b c : Value) :
    (compareForSort a b dir = .gt ↔ SortsAfter dir a b) ∧
      compareForSort a b dir = (compareForSort b a dir).swap ∧
      ((compareForSort a b dir ≠ .gt → compareForSort b c dir ≠ .gt →
          compareForSort a c dir ≠ .gt) ↔
        ¬(SortsAfter dir a c ∧ Bridges a b c)) := by
  refine ⟨compareForSort_eq_gt_iff dir a b, compareForSort_swap dir a b, ?_⟩
  rw [← compareForSort_eq_gt_iff dir a c]
  exact compareForSort_trans_iff dir a b c

/-- No key hides the order of two others that are out of order. -/
def Unbridged (dir : SortDirection) (keys : List Value) : Prop :=
  ∀ a ∈ keys, ∀ b ∈ keys, ∀ c ∈ keys, SortsAfter dir a c → ¬Bridges a b c

/-- It is on such keys that the comparator is a total order. -/
theorem unbridged_iff_totalOn {α : Type} {dir : SortDirection} {keyed : List (Value × α)} :
    Unbridged dir (keyed.map Prod.fst) ↔
      Lib.TotalOn (fun a b => compareForSort a.1 b.1 dir) keyed := by
  constructor
  · intro h
    refine ⟨fun a _ b _ => compareForSort_swap dir a.1 b.1, fun a ha b hb c hc => ?_⟩
    refine (compareForSort_trans_iff dir a.1 b.1 c.1).2 fun hbad => ?_
    exact h a.1 (List.mem_map_of_mem ha) b.1 (List.mem_map_of_mem hb) c.1 (List.mem_map_of_mem hc)
      ((compareForSort_eq_gt_iff dir a.1 c.1).1 hbad.1) hbad.2
  · intro h _ hka _ hkb _ hkc hafter hbridge
    obtain ⟨a, ha, rfl⟩ := List.mem_map.1 hka
    obtain ⟨b, hb, rfl⟩ := List.mem_map.1 hkb
    obtain ⟨c, hc, rfl⟩ := List.mem_map.1 hkc
    exact (compareForSort_trans_iff dir a.1 b.1 c.1).1 (h.trans a ha b hb c hc)
      ⟨(compareForSort_eq_gt_iff dir a.1 c.1).2 hafter, hbridge⟩

/-- `2`, `"x"`, `1`: each is at most the next one, and `2` is above `1`. So are `2 ^ 53 + 1`, the
double `2 ^ 53` and `2 ^ 53`. -/
theorem sort_order_cycles :
    (compareForSort (.i64 2) (.string "x") .asc ≠ .gt ∧
      compareForSort (.string "x") (.i64 1) .asc ≠ .gt ∧
      compareForSort (.i64 2) (.i64 1) .asc = .gt) ∧
    (compareForSort (.i64 (2 ^ 53 + 1)) (.f64 (F64.ofInt64 (2 ^ 53))) .asc ≠ .gt ∧
      compareForSort (.f64 (F64.ofInt64 (2 ^ 53))) (.i64 (2 ^ 53)) .asc ≠ .gt ∧
      compareForSort (.i64 (2 ^ 53 + 1)) (.i64 (2 ^ 53)) .asc = .gt) := by
  decide +kernel

end Morceau
