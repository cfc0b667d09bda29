import Mathlib.Algebra.Order.Ring.Int
import Morceau.Data.Value
import Morceau.Lib.Rounding

/-!
# Integers as doubles

`i64 as f64` rounds to the nearest double, ties to even. The value of the result is the integer
rounded to 53 significant bits (`scaled_ofInt64`), so the conversion is monotone, and it is exact up
to `2 ^ 53` in magnitude. It never gives a NaN, so two converted integers are always comparable.
-/

set_option autoImplicit false

namespace Morceau

open Lib

namespace F64

/-! ## The fields of a rounded double -/

/-- A significand with its leading bit, or one that has carried into the next power of two, at an
exponent that leaves room for the carry. -/
theorem magnitude_of_fields {x : F64} {shift r : Nat}
    (hbits : x.bits.toNat % 2 ^ 63 = shift * 2 ^ 52 + r) (hlow : 2 ^ 52 ≤ r) (hhigh : r ≤ 2 ^ 53)
    (hshift : shift < 2045) : x.magnitude = r * 2 ^ shift ∧ x.isNaN = false := by
  have hexp : x.expField = shift + r / 2 ^ 52 := by
    unfold expField
    omega
  have hfrac : x.fracField = r % 2 ^ 52 := by
    unfold fracField
    omega
  have hcarry : r / 2 ^ 52 = 1 ∨ r = 2 ^ 53 := by omega
  constructor
  · rw [magnitude, if_neg (by omega), if_neg (by omega), hfrac, hexp]
    rcases hcarry with hone | rfl
    · rw [hone, show 2 ^ 52 + r % 2 ^ 52 = r by omega, Nat.add_sub_cancel]
    · rw [show shift + 2 ^ 53 / 2 ^ 52 - 1 = shift + 1 by omega, Nat.pow_succ]
      omega
  · have hne : x.expField ≠ 2047 := by omega
    rw [isNaN, beq_false_of_ne hne, Bool.false_and]

section RoundRat

variable {neg : Bool} {num n shift : Nat}

/-- A significand of 53 bits, or the next power of two. -/
theorem halfEven_bounds (hn : n ≠ 0) (hshift : Nat.log2 n = 52 + shift) :
    2 ^ 52 ≤ halfEven n (2 ^ shift) ∧ halfEven n (2 ^ shift) ≤ 2 ^ 53 ∧
      halfEven n (2 ^ shift) * 2 ^ shift = nearest 52 n := by
  have hvalue : halfEven n (2 ^ shift) * 2 ^ shift = nearest 52 n := by
    rw [nearest, hshift, Nat.add_sub_cancel_left]
  have hlow := two_pow_le_nearest (p := 52) hn
  have hhigh : nearest 52 n ≤ 2 ^ (53 + shift) :=
    nearest_le_two_pow (by omega) (Nat.le_of_lt ((Nat.log2_lt hn).1 (by omega)))
  rw [← hvalue, hshift, Nat.pow_add] at hlow
  rw [← hvalue, Nat.pow_add] at hhigh
  exact ⟨Nat.le_of_mul_le_mul_right hlow (Nat.two_pow_pos shift),
    Nat.le_of_mul_le_mul_right hhigh (Nat.two_pow_pos shift), hvalue⟩

/-- The bits of an integer that is rounded, with the scaled integer and the exponent named. -/
theorem roundRat_eq (hn : num * 2 ^ 1074 = n) (hshift : Nat.log2 n = 52 + shift)
    (hfits : shift * 2 ^ 52 + halfEven n (2 ^ shift) ≤ 2047 * 2 ^ 52) :
    roundRat neg num 1 = ⟨UInt64.ofNat
      (if neg then 2 ^ 63 + (shift * 2 ^ 52 + halfEven n (2 ^ shift))
        else shift * 2 ^ 52 + halfEven n (2 ^ shift))⟩ := by
  unfold roundRat
  rw [hn]
  simp only [Nat.div_one, hshift, Nat.add_sub_cancel_left, Nat.one_mul]
  rw [← halfEven, Nat.min_eq_left hfits]

/-- The exponent and the significand that an integer is rounded to. -/
theorem roundRat_one (neg : Bool) (hnum : num ≠ 0) (hlt : num < 2 ^ 64) :
    ∃ shift r, roundRat neg num 1 =
        ⟨UInt64.ofNat (if neg then 2 ^ 63 + (shift * 2 ^ 52 + r) else shift * 2 ^ 52 + r)⟩ ∧
      2 ^ 52 ≤ r ∧ r ≤ 2 ^ 53 ∧ shift < 2045 ∧ r * 2 ^ shift = nearest 52 num * 2 ^ 1074 := by
  have hbits : Nat.log2 num < 64 := (Nat.log2_lt hnum).2 hlt
  have hfits : ∀ r ≤ 2 ^ 53, (Nat.log2 num + 1022) * 2 ^ 52 + r ≤ 2047 * 2 ^ 52 := by
    intro r hr
    omega
  have hsmall : Nat.log2 num + 1022 < 2045 := by omega
  have hshift := (log2_mul_two_pow hnum 1074).trans
    (show _ = 52 + (Nat.log2 num + 1022) by omega)
  obtain ⟨hlow, hhigh, hround⟩ := halfEven_bounds (mul_two_pow_ne_zero hnum 1074) hshift
  exact ⟨_, _, roundRat_eq rfl hshift (hfits _ hhigh), hlow, hhigh, hsmall,
    hround.trans (nearest_mul_two_pow 52 num 1074)⟩

theorem roundRat_zero : roundRat neg 0 1 = ⟨UInt64.ofNat (if neg then 2 ^ 63 else 0)⟩ := by
  unfold roundRat
  rw [Nat.zero_mul]
  cases neg <;> rfl

/-- An integer as a double: its magnitude is the integer rounded to 53 significant bits. -/
theorem roundRat_int (neg : Bool) (hlt : num < 2 ^ 64) :
    (roundRat neg num 1).magnitude = nearest 52 num * 2 ^ 1074 ∧
      (roundRat neg num 1).isNaN = false ∧ (roundRat neg num 1).isNeg = neg := by
  rcases Nat.eq_zero_or_pos num with rfl | hpos
  · rw [roundRat_zero, nearest_of_lt (Nat.two_pow_pos 53), Nat.zero_mul]
    cases neg <;> decide
  · obtain ⟨shift, r, hx, hlow, hhigh, hshift, hvalue⟩ := roundRat_one neg hpos.ne' hlt
    have hbits : (roundRat neg num 1).bits.toNat =
        if neg then 2 ^ 63 + (shift * 2 ^ 52 + r) else shift * 2 ^ 52 + r := by
      rw [hx, UInt64.toNat_ofNat']
      split <;> omega
    have hmod : (roundRat neg num 1).bits.toNat % 2 ^ 63 = shift * 2 ^ 52 + r := by
      rw [hbits]
      split <;> omega
    obtain ⟨hmag, hnan⟩ := magnitude_of_fields hmod hlow hhigh hshift
    refine ⟨hmag.trans hvalue, hnan, ?_⟩
    rw [isNeg, hbits]
    cases neg
    · exact decide_eq_false (by simp; omega)
    · exact decide_eq_true (by simp)

end RoundRat

/-! ## The conversion -/

theorem natAbs_toInt_lt (n : Int64) : n.toInt.natAbs < 2 ^ 64 := by
  have := n.toInt_lt
  have := n.le_toInt
  omega

theorem isNaN_ofInt64 (n : Int64) : (ofInt64 n).isNaN = false :=
  (roundRat_int _ (natAbs_toInt_lt n)).2.1

/-- An integer rounded to 53 significant bits, on both sides of zero. -/
def nearestInt (z : Int) : Int :=
  if z < 0 then -(nearest 52 z.natAbs : Int) else nearest 52 z.natAbs

theorem scaled_ofInt64 (n : Int64) :
    (ofInt64 n).scaled = nearestInt n.toInt * ((2 ^ 1074 : Nat) : Int) := by
  obtain ⟨hmag, -, hneg⟩ := roundRat_int (decide (n.toInt < 0)) (natAbs_toInt_lt n)
  rw [scaled, ofInt64, hneg, hmag, nearestInt]
  by_cases hlt : n.toInt < 0
  · rw [decide_eq_true hlt, if_pos rfl, if_pos hlt, Nat.cast_mul, Int.neg_mul]
  · rw [decide_eq_false hlt, if_neg Bool.false_ne_true, if_neg hlt, Nat.cast_mul]

theorem nearestInt_mono {a b : Int} (h : a ≤ b) : nearestInt a ≤ nearestInt b := by
  unfold nearestInt
  by_cases ha : a < 0
  · by_cases hb : b < 0
    · -- two negative integers: the magnitudes are in the other order
      have := nearest_mono (p := 52) (show b.natAbs ≤ a.natAbs by omega)
      rw [if_pos ha, if_pos hb]
      omega
    · rw [if_pos ha, if_neg hb]
      omega
  · have := nearest_mono (p := 52) (show a.natAbs ≤ b.natAbs by omega)
    rw [if_neg ha, if_neg (by omega)]
    omega

/-- Integers of up to 53 bits, and `2 ^ 53` itself, are doubles. -/
theorem nearestInt_of_le {z : Int} (h : z.natAbs ≤ 2 ^ 53) : nearestInt z = z := by
  have hexact : nearest 52 z.natAbs = z.natAbs := by
    rcases Nat.lt_or_eq_of_le h with hlt | heq
    · exact nearest_of_lt hlt
    · rw [heq]
      decide +kernel
  rw [nearestInt, hexact]
  split <;> omega

/-! ## Comparing converted integers -/

theorem scaled_ofInt64_mono {a b : Int64} (h : a.toInt ≤ b.toInt) :
    (ofInt64 a).scaled ≤ (ofInt64 b).scaled := by
  rw [scaled_ofInt64, scaled_ofInt64]
  exact Int.mul_le_mul_of_nonneg_right (nearestInt_mono h) (Int.natCast_nonneg _)

theorem partialCmp_of_isNaN_false {x y : F64} (hx : x.isNaN = false) (hy : y.isNaN = false) :
    x.partialCmp y = some (compare x.scaled y.scaled) := by
  rw [partialCmp, hx, hy, Bool.or_false, if_neg Bool.false_ne_true]

theorem partialCmp_swap (x y : F64) : y.partialCmp x = (x.partialCmp y).map Ordering.swap := by
  unfold partialCmp
  rw [Bool.or_comm]
  split
  · rfl
  · exact congrArg some Std.OrientedCmp.eq_swap

theorem partialCmp_ofInt64 (a b : Int64) :
    (ofInt64 a).partialCmp (ofInt64 b) =
      some (compare (nearestInt a.toInt) (nearestInt b.toInt)) := by
  rw [partialCmp_of_isNaN_false (isNaN_ofInt64 a) (isNaN_ofInt64 b), scaled_ofInt64,
    scaled_ofInt64]
  have hunit : (0 : Int) < ((2 ^ 1074 : Nat) : Int) := Int.natCast_pos.2 (pow_pos two_pos 1074)
  have hcmp := cmp_mul_pos_right hunit (nearestInt a.toInt) (nearestInt b.toInt)
  rw [cmp_eq_compare, cmp_eq_compare] at hcmp
  rw [hcmp]

/-- The order of two integers survives the conversion unless they become the same double. -/
theorem compare_nearestInt {a b : Int} (h : nearestInt a = nearestInt b → a = b) :
    compare (nearestInt a) (nearestInt b) = compare a b := by
  rcases lt_trichotomy a b with hlt | rfl | hgt
  · have hle := nearestInt_mono hlt.le
    rw [compare_lt_iff_lt.2 hlt, compare_lt_iff_lt]
    exact lt_of_le_of_ne hle fun heq => hlt.ne (h heq)
  · rw [compare_eq_iff_eq.2 rfl, compare_eq_iff_eq.2 rfl]
  · have hle := nearestInt_mono hgt.le
    rw [compare_gt_iff_gt.2 hgt, compare_gt_iff_gt]
    exact lt_of_le_of_ne hle fun heq => hgt.ne (h heq.symm).symm

end F64

end Morceau
