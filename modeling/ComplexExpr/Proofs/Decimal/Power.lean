import Mathlib.Algebra.Order.Field.Power
import Mathlib.Data.Rat.Cast.Order
import Mathlib.Tactic.NormNum

/-!
# Powers of ten and of two

How a power of ten compares with a power of two, from `10 ^ 3 ≤ 2 ^ 10` and
`2 ^ 33 ≤ 10 ^ 10`. The logarithm of 2 lies between 0.3 and 0.304, which is
close enough for all that printing and reading of doubles needs.
-/

namespace ComplexExpr

variable {k j : ℤ}

theorem ten_zpow_pos (k : ℤ) : (0 : ℚ) < 10 ^ k := zpow_pos (by norm_num) k

theorem two_zpow_pos (k : ℤ) : (0 : ℚ) < 2 ^ k := zpow_pos (by norm_num) k

theorem two_pow_mul_zpow (n : ℕ) (k : ℤ) : (2 : ℚ) ^ n * 2 ^ k = 2 ^ (n + k) := by
  rw [zpow_add₀ two_ne_zero, zpow_natCast]

/-- A power as a quotient of two, one of which is one. -/
theorem zpow_eq_div {a : ℚ} (ha : a ≠ 0) (k : ℤ) : a ^ k = a ^ k.toNat / a ^ (-k).toNat := by
  rw [← zpow_natCast, ← zpow_natCast, ← zpow_sub₀ ha]
  congr 1
  omega

theorem ten_zpow_le_two_zpow (hk : 0 ≤ k) (h : 10 * k ≤ 3 * j) : (10 : ℚ) ^ k ≤ 2 ^ j := by
  have hpow : ((10 : ℚ) ^ k) ^ 3 ≤ (2 ^ j) ^ 3 := by
    calc ((10 : ℚ) ^ k) ^ 3 = (10 ^ 3) ^ k := by
          rw [← zpow_natCast, ← zpow_natCast, zpow_comm]
      _ ≤ (2 ^ 10) ^ k := zpow_le_zpow_left₀ hk (by norm_num) (by norm_num)
      _ = 2 ^ (10 * k) := by rw [zpow_mul]; norm_cast
      _ ≤ 2 ^ (3 * j) := zpow_le_zpow_right₀ one_le_two h
      _ = (2 ^ j) ^ 3 := by rw [mul_comm, zpow_mul]; norm_cast
  exact (pow_le_pow_iff_left₀ (ten_zpow_pos k).le (two_zpow_pos j).le (by decide)).1 hpow

theorem two_zpow_le_ten_zpow (hk : 0 ≤ k) (h : 10 * j ≤ 33 * k) : (2 : ℚ) ^ j ≤ 10 ^ k := by
  have hpow : ((2 : ℚ) ^ j) ^ 10 ≤ (10 ^ k) ^ 10 := by
    calc ((2 : ℚ) ^ j) ^ 10 = 2 ^ (10 * j) := by rw [mul_comm, zpow_mul]; norm_cast
      _ ≤ 2 ^ (33 * k) := zpow_le_zpow_right₀ one_le_two h
      _ = (2 ^ 33) ^ k := by rw [zpow_mul]; norm_cast
      _ ≤ (10 ^ 10) ^ k := zpow_le_zpow_left₀ hk (by norm_num) (by norm_num)
      _ = (10 ^ k) ^ 10 := by rw [← zpow_natCast, ← zpow_natCast, zpow_comm]
  exact (pow_le_pow_iff_left₀ (two_zpow_pos j).le (ten_zpow_pos k).le (by decide)).1 hpow

theorem ten_zpow_le_two_zpow_of_neg (hk : k ≤ 0) (h : 33 * k ≤ 10 * j) : (10 : ℚ) ^ k ≤ 2 ^ j := by
  have hinv : (2 : ℚ) ^ (-j) ≤ 10 ^ (-k) := two_zpow_le_ten_zpow (by omega) (by omega)
  rwa [zpow_neg, zpow_neg, inv_le_inv₀ (two_zpow_pos j) (ten_zpow_pos k)] at hinv

end ComplexExpr
