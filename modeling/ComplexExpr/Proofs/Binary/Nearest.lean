import ComplexExpr.Proofs.Binary.Rounding
import Mathlib.Algebra.Order.Round
import Mathlib.Data.Rat.Floor
import Mathlib.Tactic.Positivity

/-!
# The nearest double

What arithmetic on doubles rounds to, for numbers of any size: `Rounds q r`
says that no double is nearer to `q` than `r` is, where a double may be as large
as it likes (`Representable`). That alone says that a double is rounded to itself
(`Rounds.eq`), that rounding goes past no double (`Rounds.le`, `Rounds.ge`) and
how far it goes (`Rounds.error_le`). A number whose bits are no lower than those of
`2 ^ e` is `OnGrid e`.
-/

namespace ComplexExpr.Binary

/-- A whole multiple of `2 ^ e`. -/
def OnGrid (e : ℤ) (q : ℚ) : Prop := ∃ n : ℤ, q = n * 2 ^ e

/-- A number of 53 bits, none of them lower than the last bit of the doubles next to zero. -/
def Representable (q : ℚ) : Prop := ∃ n e : ℤ, -1074 ≤ e ∧ |n| ≤ 2 ^ 53 ∧ q = n * 2 ^ e

/-- No double is nearer to `q` than `r`. -/
structure Rounds (q r : ℚ) : Prop where
  representable : Representable r
  nearest : ∀ f, Representable f → |q - r| ≤ |q - f|

variable {q r f : ℚ} {e k : ℤ}

/-! ## Grids -/

namespace OnGrid

theorem add (hq : OnGrid e q) (hr : OnGrid e r) : OnGrid e (q + r) := by
  obtain ⟨m, rfl⟩ := hq
  obtain ⟨n, rfl⟩ := hr
  exact ⟨m + n, by push_cast; ring⟩

theorem neg (hq : OnGrid e q) : OnGrid e (-q) := by
  obtain ⟨m, rfl⟩ := hq
  exact ⟨-m, by push_cast; ring⟩

theorem sub (hq : OnGrid e q) (hr : OnGrid e r) : OnGrid e (q - r) := by
  rw [sub_eq_add_neg]
  exact hq.add hr.neg

theorem mul (hq : OnGrid e q) (hr : OnGrid k r) : OnGrid (e + k) (q * r) := by
  obtain ⟨m, rfl⟩ := hq
  obtain ⟨n, rfl⟩ := hr
  exact ⟨m * n, by rw [zpow_add₀ two_ne_zero]; push_cast; ring⟩

/-- A coarser grid is part of a finer one. -/
theorem mono (hq : OnGrid e q) (h : k ≤ e) : OnGrid k q := by
  obtain ⟨m, rfl⟩ := hq
  obtain ⟨n, rfl⟩ := Int.le.dest h
  refine ⟨m * 2 ^ n, ?_⟩
  rw [zpow_add₀ two_ne_zero, zpow_natCast]
  push_cast
  ring

theorem pow (h : e ≤ k) : OnGrid e (2 ^ k) := mono ⟨1, by simp⟩ h

theorem representable (hq : OnGrid e q) (he : -1074 ≤ e) (h : |q| ≤ 2 ^ (e + 53)) :
    Representable q := by
  obtain ⟨n, rfl⟩ := hq
  refine ⟨n, e, he, ?_, rfl⟩
  rw [abs_mul, abs_of_pos (two_zpow_pos e), zpow_add₀ two_ne_zero, mul_comm,
    mul_le_mul_iff_right₀ (two_zpow_pos e)] at h
  exact_mod_cast h

end OnGrid

/-! ## Doubles of any size -/

namespace Representable

theorem zero : Representable 0 := ⟨0, 0, by decide, by decide, by simp⟩

theorem neg (hq : Representable q) : Representable (-q) := by
  obtain ⟨n, e, he, hn, rfl⟩ := hq
  exact ⟨-n, e, he, by rwa [abs_neg], by push_cast; ring⟩

theorem pow (h : -1074 ≤ k) : Representable (2 ^ k) := ⟨1, k, h, by decide, by simp⟩

theorem double (hq : Representable q) : Representable (2 * q) := by
  obtain ⟨n, e, he, hn, rfl⟩ := hq
  exact ⟨n, e + 1, by omega, hn, by rw [zpow_add_one₀ two_ne_zero]; ring⟩

theorem onGrid_least (hq : Representable q) : OnGrid (-1074) q := by
  obtain ⟨n, e, he, -, rfl⟩ := hq
  exact .mono ⟨n, rfl⟩ he

/-- The lowest bit of a large double is not low. -/
theorem onGrid (hq : Representable q) (h : 2 ^ k ≤ |q|) : OnGrid (k - 52) q := by
  obtain ⟨n, e, he, hn, rfl⟩ := hq
  rw [abs_mul, abs_of_pos (two_zpow_pos e)] at h
  rcases hn.lt_or_eq with hlt | heq
  · refine .mono ⟨n, rfl⟩ ?_
    have hcast : (|(n : ℚ)|) < 2 ^ (53 : ℤ) := by exact_mod_cast hlt
    have hpow : (2 : ℚ) ^ k < 2 ^ (53 + e) := by
      rw [zpow_add₀ two_ne_zero]
      exact h.trans_lt (mul_lt_mul_of_pos_right hcast (two_zpow_pos e))
    have := (zpow_lt_zpow_iff_right₀ one_lt_two).1 hpow
    omega
  · have hcast : (|(n : ℚ)|) = 2 ^ (53 : ℤ) := by exact_mod_cast heq
    rw [hcast, ← zpow_add₀ two_ne_zero, zpow_le_zpow_iff_right₀ one_lt_two] at h
    -- all bits but the highest are zero
    have hpow : OnGrid (k - 52) ((2 : ℚ) ^ (53 + e)) := .pow (by omega)
    have hsplit : (2 : ℚ) ^ (53 + e) = 2 ^ (53 : ℤ) * 2 ^ e := zpow_add₀ two_ne_zero 53 e
    rw [hsplit] at hpow
    rcases abs_choice (n : ℚ) with hpos | hneg
    · rw [← hpos, hcast]
      exact hpow
    · have hn : (n : ℚ) = -2 ^ (53 : ℤ) := by rw [← hcast, hneg, neg_neg]
      rw [hn, neg_mul]
      exact hpow.neg

end Representable

/-! ## Rounding -/

/-- A double is rounded to itself. -/
theorem Representable.rounds (h : Representable q) : Rounds q q :=
  ⟨h, fun f _ => by rw [sub_self, abs_zero]; exact abs_nonneg _⟩

namespace Rounds

theorem neg (h : Rounds q r) : Rounds (-q) (-r) := by
  refine ⟨h.representable.neg, fun f hf => ?_⟩
  have hnear := h.nearest (-f) hf.neg
  rw [← abs_neg (q - r), ← abs_neg (q - -f)] at hnear
  convert hnear using 2 <;> ring

/-- Nothing else is as near to a double as itself. -/
theorem eq (h : Rounds q r) (hq : Representable q) : r = q := by
  have hnear := h.nearest q hq
  rw [sub_self, abs_zero] at hnear
  exact (sub_eq_zero.1 (abs_nonpos_iff.1 hnear)).symm

/-- What is at most a double is rounded to at most that. -/
theorem le (h : Rounds q r) (hf : Representable f) (hle : q ≤ f) : r ≤ f := by
  by_contra hlt
  have hnear := h.nearest f hf
  rw [abs_of_nonpos (by linarith), abs_of_nonpos (by linarith)] at hnear
  linarith

theorem ge (h : Rounds q r) (hf : Representable f) (hle : f ≤ q) : f ≤ r :=
  neg_le_neg_iff.1 (h.neg.le hf.neg (neg_le_neg hle))

theorem magnitude_le (h : Rounds q r) (hf : Representable f) (hle : |q| ≤ f) : |r| ≤ f := by
  rw [abs_le] at hle ⊢
  exact ⟨h.ge hf.neg hle.1, h.le hf hle.2⟩

theorem nonneg (h : Rounds q r) (hq : 0 ≤ q) : 0 ≤ r := h.ge .zero hq

/-- A number is rounded by at most half of its last place. -/
theorem error_le {j : ℤ} (h : Rounds q r) (hq : |q| ≤ 2 ^ k) (hk : -1021 ≤ k) (hj : k - 54 ≤ j) :
    |q - r| ≤ 2 ^ j := by
  set u : ℚ := 2 ^ (k - 53) with hu
  have hpos : 0 < u := two_zpow_pos _
  have hhalf : u / 2 ≤ 2 ^ j := by
    rw [hu, show k - 53 = k - 54 + 1 by ring, zpow_add_one₀ two_ne_zero,
      mul_div_cancel_right₀ _ two_ne_zero]
    exact zpow_le_zpow_right₀ one_le_two hj
  have hsplit : (2 : ℚ) ^ k = 2 ^ (53 : ℤ) * u := by
    rw [hu, ← zpow_add₀ two_ne_zero]
    congr 1
    ring
  have hround := abs_sub_round (q / u)
  have hdist : |q - round (q / u) * u| ≤ u / 2 := by
    have hmul : q - round (q / u) * u = (q / u - round (q / u)) * u := by field_simp
    rw [hmul, abs_mul, abs_of_pos hpos]
    nlinarith
  refine ((h.nearest _ ?_).trans hdist).trans hhalf
  refine ⟨round (q / u), k - 53, by omega, ?_, rfl⟩
  have hunits : |q / u| ≤ 2 ^ (53 : ℤ) := by
    rw [abs_div, abs_of_pos hpos, div_le_iff₀ hpos, ← hsplit]
    exact hq
  have hbound : |(round (q / u) : ℚ)| < 2 ^ (53 : ℤ) + 1 := by
    rw [abs_le] at hunits hround
    rw [abs_lt]
    constructor <;> linarith
  have hcast : |round (q / u)| < 2 ^ 53 + 1 := by exact_mod_cast hbound
  exact Int.lt_add_one_iff.1 hcast

end Rounds

end ComplexExpr.Binary
