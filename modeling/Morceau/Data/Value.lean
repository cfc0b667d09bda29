import Mathlib.Data.Finmap

/-!
# Property values

The scalar values of `value.rs`. An `f64` is its 64-bit pattern; its order and its equality are read
off the exact value of the pattern, which is an integer multiple of `2 ^ -1074` for every finite
double, so comparisons are comparisons of integers. Conversion from integers and from decimal
literals rounds to the nearest double, ties to even (`F64.roundRat`).

`BTreeMap` is the ordered map of the source. Its equality is extensional and its enumeration is in
key order.
-/

set_option autoImplicit false

namespace Morceau

/-- Raw bytes of a store, a frame or a payload. -/
abbrev Bytes := List UInt8

/-- The ordered map of the source: extensional, enumerated in key order. -/
abbrev BTreeMap (α β : Type) [Ord α] := Std.ExtTreeMap α β compare

/-! ## Doubles -/

/-- An IEEE 754 double, as its bit pattern. -/
structure F64 where
  bits : UInt64
deriving DecidableEq, Repr

namespace F64

/-- Sign bit. -/
def isNeg (x : F64) : Bool := decide (2 ^ 63 ≤ x.bits.toNat)

/-- Biased exponent field. -/
def expField (x : F64) : Nat := x.bits.toNat / 2 ^ 52 % 2 ^ 11

/-- Fraction field. -/
def fracField (x : F64) : Nat := x.bits.toNat % 2 ^ 52

/-- NaN patterns: all-ones exponent and a nonzero fraction. -/
def isNaN (x : F64) : Bool := x.expField == 2047 && x.fracField != 0

/-- Magnitude in units of `2 ^ -1074`. The infinities get `2 ^ 2098`, above every finite double. -/
def magnitude (x : F64) : Nat :=
  if x.expField = 0 then x.fracField
  else if x.expField = 2047 then 2 ^ 2098
  else (2 ^ 52 + x.fracField) * 2 ^ (x.expField - 1)

/-- Signed value in units of `2 ^ -1074`. Both zeros have value `0`. -/
def scaled (x : F64) : Int := if x.isNeg then -(x.magnitude : Int) else x.magnitude

/-- `f64::partial_cmp`: no answer when a NaN is involved. -/
def partialCmp (x y : F64) : Option Ordering :=
  if x.isNaN || y.isNaN then none else some (compare x.scaled y.scaled)

/-- `f64 == f64`. -/
def eq (x y : F64) : Bool := x.partialCmp y == some .eq

/-- The double nearest to `num / den`, ties to even. The significand carries into the exponent
field by plain addition, and an overflow ends at infinity. -/
def roundRat (neg : Bool) (num den : Nat) : F64 :=
  let n := num * 2 ^ 1074
  let shift := Nat.log2 (n / den) - 52
  let d := den * 2 ^ shift
  let q := n / d
  let r := n % d
  let rounded := if d < 2 * r ∨ (2 * r = d ∧ q % 2 = 1) then q + 1 else q
  let mag := min (shift * 2 ^ 52 + rounded) (2047 * 2 ^ 52)
  ⟨UInt64.ofNat (if neg then 2 ^ 63 + mag else mag)⟩

/-- `i64 as f64`. -/
def ofInt64 (n : Int64) : F64 := roundRat (decide (n.toInt < 0)) n.toInt.natAbs 1

end F64

/-! ## Values -/

/-- `Value`: the seven variants of `value.rs`. -/
inductive Value where
  | null
  | bool (b : Bool)
  | i64 (n : Int64)
  | f64 (x : F64)
  | string (s : String)
  | timestamp (t : Int64)
  | list (vs : List Value)

namespace Value

/-- `Value::type_name`. -/
def typeName : Value → String
  | null => "null"
  | bool _ => "bool"
  | i64 _ => "i64"
  | f64 _ => "f64"
  | string _ => "string"
  | timestamp _ => "timestamp"
  | list _ => "list"

mutual

/-- Structural comparison of two values. -/
def same : Value → Value → Bool
  | null, null => true
  | bool a, bool b => a == b
  | i64 a, i64 b => a == b
  | f64 a, f64 b => a == b
  | string a, string b => a == b
  | timestamp a, timestamp b => a == b
  | list as, list bs => sameList as bs
  | _, _ => false

/-- Structural comparison of two lists of values. -/
def sameList : List Value → List Value → Bool
  | [], [] => true
  | a :: as, b :: bs => same a b && sameList as bs
  | _, _ => false

end

mutual

theorem same_iff : ∀ a b : Value, same a b = true ↔ a = b
  | null, b => by cases b <;> simp [same]
  | bool x, b => by cases b <;> simp [same]
  | i64 x, b => by cases b <;> simp [same]
  | f64 x, b => by cases b <;> simp [same]
  | string x, b => by cases b <;> simp [same]
  | timestamp x, b => by cases b <;> simp [same]
  | list xs, b => by
      cases b with
      | list ys => simp [same, sameList_iff xs ys]
      | null => simp [same]
      | bool y => simp [same]
      | i64 y => simp [same]
      | f64 y => simp [same]
      | string y => simp [same]
      | timestamp y => simp [same]

theorem sameList_iff : ∀ as bs : List Value, sameList as bs = true ↔ as = bs
  | [], bs => by cases bs <;> simp [sameList]
  | a :: as, bs => by
      cases bs with
      | nil => simp [sameList]
      | cons b bs => simp [sameList, same_iff a b, sameList_iff as bs]

end

instance : DecidableEq Value := fun a b => decidable_of_iff (same a b = true) (same_iff a b)

end Value

end Morceau
