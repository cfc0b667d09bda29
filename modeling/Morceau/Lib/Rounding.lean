import Mathlib.Data.Nat.Log
import Mathlib.Tactic.Ring

/-!
# Rounding to nearest, ties to even

`halfEven n d` is the integer nearest to `n / d`, the even one of two that are equally near.
`nearest p n` rounds `n` to `p + 1` significant bits: the bits past those are cut off by a division
by a power of two, and the quotient is rounded. Both are monotone, `nearest p` leaves alone what
fits, and it commutes with powers of two.
-/

set_option autoImplicit false

namespace Morceau.Lib

/-- The integer nearest to `n / d`, ties to even. -/
def halfEven (n d : Nat) : Nat :=
  if d < 2 * (n % d) ∨ (2 * (n % d) = d ∧ n / d % 2 = 1) then n / d + 1 else n / d

section HalfEven

variable {n m d : Nat}

theorem div_le_halfEven : n / d ≤ halfEven n d := by
  unfold halfEven
  split
  · exact Nat.le_succ _
  · exact Nat.le_refl _

theorem halfEven_le_succ : halfEven n d ≤ n / d + 1 := by
  unfold halfEven
  split
  · exact Nat.le_refl _
  · exact Nat.le_succ _

theorem halfEven_mono (h : n ≤ m) : halfEven n d ≤ halfEven m d := by
  rcases Nat.lt_or_eq_of_le (Nat.div_le_div_right (c := d) h) with hlt | heq
  · calc halfEven n d ≤ n / d + 1 := halfEven_le_succ
      _ ≤ m / d := hlt
      _ ≤ halfEven m d := div_le_halfEven
  · -- the same quotient: the larger number has the larger remainder
    have hrem : n % d ≤ m % d := by
      have hn := Nat.div_add_mod n d
      have hm := Nat.div_add_mod m d
      rw [heq] at hn
      omega
    unfold halfEven
    rw [heq]
    split
    · split
      · exact Nat.le_refl _
      · omega
    · split
      · exact Nat.le_succ _
      · exact Nat.le_refl _

theorem halfEven_mul (n : Nat) (hd : 0 < d) : halfEven (n * d) d = n := by
  rw [halfEven, Nat.mul_mod_left, Nat.mul_div_cancel n hd, if_neg (by omega)]

theorem halfEven_mul_mul {c : Nat} (hc : 0 < c) : halfEven (n * c) (d * c) = halfEven n d := by
  have htwice : 2 * (n % d * c) = 2 * (n % d) * c := by ring
  simp only [halfEven, Nat.mul_mod_mul_right, Nat.mul_div_mul_right _ _ hc, htwice,
    Nat.mul_lt_mul_right hc, Nat.mul_left_inj (Nat.ne_of_gt hc)]

end HalfEven

/-- `n` rounded to `p + 1` significant bits. -/
def nearest (p n : Nat) : Nat :=
  halfEven n (2 ^ (Nat.log2 n - p)) * 2 ^ (Nat.log2 n - p)

section Nearest

variable {p n m : Nat}

/-- A number below a power of two is rounded to at most that power. -/
theorem nearest_le_two_pow {k : Nat} (hk : Nat.log2 n - p ≤ k) (h : n ≤ 2 ^ k) :
    nearest p n ≤ 2 ^ k := by
  have hsplit : 2 ^ k = 2 ^ (k - (Nat.log2 n - p)) * 2 ^ (Nat.log2 n - p) := by
    rw [← Nat.pow_add, Nat.sub_add_cancel hk]
  rw [nearest, hsplit]
  refine Nat.mul_le_mul_right _ ?_
  rw [hsplit] at h
  exact (halfEven_mono h).trans (le_of_eq (halfEven_mul _ (Nat.two_pow_pos _)))

/-- Rounding does not go below the leading bit. -/
theorem two_pow_le_nearest (hn : n ≠ 0) : 2 ^ Nat.log2 n ≤ nearest p n := by
  have hsplit : 2 ^ Nat.log2 n =
      2 ^ (Nat.log2 n - (Nat.log2 n - p)) * 2 ^ (Nat.log2 n - p) := by
    rw [← Nat.pow_add, Nat.sub_add_cancel (Nat.sub_le _ _)]
  have hle := Nat.log2_self_le hn
  rw [hsplit] at hle ⊢
  refine Nat.mul_le_mul_right _ ?_
  exact (le_of_eq (halfEven_mul _ (Nat.two_pow_pos _)).symm).trans (halfEven_mono hle)

theorem nearest_mono (h : n ≤ m) : nearest p n ≤ nearest p m := by
  rcases Nat.eq_zero_or_pos n with rfl | hpos
  · simp [nearest, halfEven]
  · have hm : m ≠ 0 := by omega
    have hlog : Nat.log2 n ≤ Nat.log2 m :=
      (Nat.le_log2 hm).2 ((Nat.log2_self_le (by omega)).trans h)
    rcases Nat.lt_or_eq_of_le hlog with hlt | heq
    · -- a power of two lies between the two numbers
      calc nearest p n ≤ 2 ^ (Nat.log2 n + 1) :=
            nearest_le_two_pow (by omega) (Nat.le_of_lt Nat.lt_log2_self)
        _ ≤ 2 ^ Nat.log2 m := Nat.pow_le_pow_right (by decide) hlt
        _ ≤ nearest p m := two_pow_le_nearest hm
    · rw [nearest, nearest, heq]
      exact Nat.mul_le_mul_right _ (halfEven_mono h)

/-- What fits into the significant bits is not changed. -/
theorem nearest_of_lt (h : n < 2 ^ (p + 1)) : nearest p n = n := by
  have hlog : Nat.log2 n - p = 0 := by
    rcases Nat.eq_zero_or_pos n with rfl | hpos
    · simp
    · have := (Nat.log2_lt (by omega)).2 h
      omega
  rw [nearest, hlog]
  have := halfEven_mul n (d := 1) Nat.one_pos
  simpa using this

theorem mul_two_pow_ne_zero (hn : n ≠ 0) (k : Nat) : n * 2 ^ k ≠ 0 :=
  Nat.mul_ne_zero hn (Nat.two_pow_pos k).ne'

theorem log2_mul_two_pow (hn : n ≠ 0) (k : Nat) : Nat.log2 (n * 2 ^ k) = Nat.log2 n + k := by
  rw [Nat.log2_eq_iff (mul_two_pow_ne_zero hn k)]
  have hlow := Nat.log2_self_le hn
  have hhigh := Nat.lt_log2_self (n := n)
  rw [show Nat.log2 n + k + 1 = Nat.log2 n + 1 + k by omega, Nat.pow_add, Nat.pow_add]
  exact ⟨Nat.mul_le_mul_right _ hlow, Nat.mul_lt_mul_of_pos_right hhigh (Nat.two_pow_pos k)⟩

theorem nearest_mul_two_pow (p n k : Nat) : nearest p (n * 2 ^ k) = nearest p n * 2 ^ k := by
  rcases Nat.eq_zero_or_pos n with rfl | hpos
  · simp [nearest, halfEven]
  · have hn : n ≠ 0 := by omega
    by_cases hbits : p ≤ Nat.log2 n
    · -- the same bits are cut off, and `k` zeros
      rw [nearest, nearest, log2_mul_two_pow hn,
        show Nat.log2 n + k - p = Nat.log2 n - p + k by omega, Nat.pow_add,
        halfEven_mul_mul (Nat.two_pow_pos k), Nat.mul_assoc]
    · -- only zeros are cut off
      have hfits : n < 2 ^ (p + 1) := (Nat.log2_lt hn).1 (by omega)
      have hcut : Nat.log2 n + k - p ≤ k := by omega
      have hsplit : n * 2 ^ k =
          n * 2 ^ (k - (Nat.log2 n + k - p)) * 2 ^ (Nat.log2 n + k - p) := by
        rw [Nat.mul_assoc, ← Nat.pow_add, Nat.sub_add_cancel hcut]
      rw [nearest_of_lt hfits, nearest, log2_mul_two_pow hn, hsplit,
        halfEven_mul _ (Nat.two_pow_pos _)]

end Nearest

end Morceau.Lib
