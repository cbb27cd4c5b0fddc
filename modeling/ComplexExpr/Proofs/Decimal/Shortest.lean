import ComplexExpr.Decimal.Shortest
import ComplexExpr.Proofs.Binary.Rounding

/-!
# Shortest decimals round to their doubles

A grid point that `Target.holds` admits is a number that rounds to the double
(`roundsTo_of_holds`), and the search ends on such a point, because the last
grids that it looks at are finer than the doubles are apart (`exists_onGrid`).
Main statement:

* `decimal_roundsTo`: the shortest decimal of a double rounds to it.
-/

namespace ComplexExpr.Shortest.Target

open Binary (Canonical RoundsTo halfBelow)

variable {t : Target} {k : ℤ} {n : ℕ}

/-! ## Units and steps -/

theorem scaleUnits_eq (t : Target) (k : ℤ) :
    t.scaleUnits k = 10 ^ (-k).toNat * 2 ^ (t.exponent - 2).toNat := rfl

theorem scaleSteps_eq (t : Target) (k : ℤ) :
    t.scaleSteps k = 10 ^ k.toNat * 2 ^ (2 - t.exponent).toNat := rfl

theorem scaleUnits_pos (t : Target) (k : ℤ) : 0 < t.scaleUnits k := by
  rw [scaleUnits_eq]
  positivity

theorem scaleSteps_pos (t : Target) (k : ℤ) : 0 < t.scaleSteps k := by
  rw [scaleSteps_eq]
  positivity

/-- A step of the grid in quarters of `2 ^ exponent`. -/
theorem step_eq (t : Target) (k : ℤ) :
    (10 ^ k / 2 ^ t.exponent : ℚ) = t.scaleSteps k / (4 * t.scaleUnits k) := by
  have hfour : (2 : ℚ) ^ t.exponent = 4 * 2 ^ (t.exponent - 2) := by
    rw [zpow_sub₀ two_ne_zero]
    norm_num
    field_simp
  rw [hfour, zpow_eq_div two_ne_zero (t.exponent - 2), zpow_eq_div (by norm_num) k, scaleSteps_eq,
    scaleUnits_eq, show -(t.exponent - 2) = 2 - t.exponent by omega]
  push_cast
  field_simp

theorem point_eq (t : Target) (k : ℤ) (n : ℕ) :
    (n * 10 ^ k / 2 ^ t.exponent : ℚ) = (n * t.scaleSteps k : ℕ) / (4 * t.scaleUnits k) := by
  rw [mul_div_assoc, step_eq]
  push_cast
  exact mul_div_assoc' ..

theorem below_eq (hm : 0 < t.mantissa) :
    (t.below : ℚ) = 4 * (t.mantissa - halfBelow t.mantissa t.exponent) := by
  have hbelow : t.below = if t.mantissa = 2 ^ 52 ∧ -1074 < t.exponent then 4 * t.mantissa - 1
      else 4 * t.mantissa - 2 := rfl
  rw [hbelow, halfBelow]
  split
  · rw [Nat.cast_sub (by omega)]
    push_cast
    ring
  · rw [Nat.cast_sub (by omega)]
    push_cast
    ring

theorem above_eq (t : Target) : (t.above : ℚ) = 4 * (t.mantissa + 1 / 2) := by
  unfold above
  push_cast
  ring

/-! ## Grid points that round to the double -/

theorem holds_of_lt (hlow : t.below * t.scaleUnits k < n * t.scaleSteps k)
    (hhigh : n * t.scaleSteps k < t.above * t.scaleUnits k) : t.holds k n = true := by
  unfold holds
  dsimp only
  split
  · rw [Bool.and_eq_true, decide_eq_true_eq, decide_eq_true_eq]
    exact ⟨hlow.le, hhigh.le⟩
  · rw [Bool.and_eq_true, decide_eq_true_eq, decide_eq_true_eq]
    exact ⟨hlow, hhigh⟩

theorem bounds_of_holds (h : t.holds k n = true) :
    t.below * t.scaleUnits k ≤ n * t.scaleSteps k ∧
      n * t.scaleSteps k ≤ t.above * t.scaleUnits k ∧
      (n * t.scaleSteps k = t.below * t.scaleUnits k ∨
        n * t.scaleSteps k = t.above * t.scaleUnits k → t.mantissa % 2 = 0) := by
  unfold holds at h
  dsimp only at h
  split at h
  next heven =>
    rw [Bool.and_eq_true, decide_eq_true_eq, decide_eq_true_eq] at h
    exact ⟨h.1, h.2, fun _ => of_decide_eq_true heven⟩
  next =>
    rw [Bool.and_eq_true, decide_eq_true_eq, decide_eq_true_eq] at h
    refine ⟨h.1.le, h.2.le, ?_⟩
    rintro (heq | heq)
    · exact absurd heq h.1.ne'
    · exact absurd heq h.2.ne

/-- What `holds` admits rounds to the double. -/
theorem roundsTo_of_holds (hm : 0 < t.mantissa) (h : t.holds k n = true) :
    RoundsTo (n * 10 ^ k) t.mantissa t.exponent := by
  obtain ⟨hlow, hhigh, heven⟩ := bounds_of_holds h
  have hpos : (0 : ℚ) < t.scaleUnits k := by exact_mod_cast t.scaleUnits_pos k
  -- both bounds in units of `2 ^ exponent`
  have hbelow : (t.mantissa - halfBelow t.mantissa t.exponent : ℚ) =
      (t.below * t.scaleUnits k : ℕ) / (4 * t.scaleUnits k) := by
    push_cast
    rw [below_eq hm]
    field_simp
  have habove : (t.mantissa + 1 / 2 : ℚ) =
      (t.above * t.scaleUnits k : ℕ) / (4 * t.scaleUnits k) := by
    push_cast
    rw [above_eq]
    field_simp
  have hunits : (4 * t.scaleUnits k : ℚ) ≠ 0 := by positivity
  refine ⟨?_, ?_, ?_⟩
  · rw [hbelow, point_eq]
    gcongr
  · rw [habove, point_eq]
    gcongr
  · rw [hbelow, habove, point_eq, div_left_inj' hunits, div_left_inj' hunits]
    exact_mod_cast heven

/-! ## The search -/

/-- A grid finer than half the distance of doubles has a point that rounds to the double. -/
theorem exists_onGrid (hm : 0 < t.mantissa) (h : t.scaleSteps k ≤ 2 * t.scaleUnits k) :
    ∃ n, t.onGrid k = some n := by
  have hsteps := t.scaleSteps_pos k
  have hunits := t.scaleUnits_pos k
  have hfloor : t.floor k * t.scaleSteps k ≤ t.centre * t.scaleUnits k := Nat.div_mul_le_self ..
  have hceil : t.centre * t.scaleUnits k < (t.floor k + 1) * t.scaleSteps k :=
    Nat.lt_mul_of_div_lt (Nat.lt_succ_self _) hsteps
  have hbelow : t.below * t.scaleUnits k < t.centre * t.scaleUnits k := by
    refine Nat.mul_lt_mul_of_pos_right ?_ hunits
    unfold below centre
    split <;> omega
  have habove : t.above * t.scaleUnits k = t.centre * t.scaleUnits k + 2 * t.scaleUnits k := by
    rw [above, centre, Nat.add_mul]
  have hsome : t.holds k (t.floor k) = true ∨ t.holds k (t.floor k + 1) = true := by
    by_cases heq : t.floor k * t.scaleSteps k = t.centre * t.scaleUnits k
    · exact .inl (holds_of_lt (by omega) (by omega))
    · refine .inr (holds_of_lt (by omega) ?_)
      rw [Nat.add_mul, Nat.one_mul]
      omega
  unfold onGrid
  dsimp only
  rcases hsome with hn | hn <;> rw [hn] <;> split <;> simp_all

theorem holds_of_onGrid (h : t.onGrid k = some n) : t.holds k n = true := by
  unfold onGrid at h
  dsimp only at h
  split at h
  next h₁ h₂ =>
    cases h
    split
    · exact h₂
    · exact h₁
  next h₁ h₂ => cases h; exact h₁
  next h₁ h₂ => cases h; exact h₂
  next => cases h

/-- The search ends on a point of a grid if one of its grids has one. -/
theorem holds_search {fuel : ℕ} (h : ∃ j < fuel, ∃ n, t.onGrid (k - j) = some n) :
    t.holds (t.search fuel k).2 (t.search fuel k).1 = true := by
  induction fuel generalizing k with
  | zero =>
    obtain ⟨j, hj, -⟩ := h
    omega
  | succ fuel ih =>
    unfold search
    split
    next n hn => exact holds_of_onGrid hn
    next hnone =>
      refine ih ?_
      obtain ⟨j, hj, n, hn⟩ := h
      have hj0 : j ≠ 0 := by
        rintro rfl
        rw [Nat.cast_zero, sub_zero, hnone] at hn
        cases hn
      refine ⟨j - 1, by omega, n, ?_⟩
      rwa [show k - 1 - ((j - 1 : ℕ) : ℤ) = k - j by omega]

/-- The last grid of the search is finer than the doubles are apart. -/
theorem ten_zpow_ceiling_le (hc : Canonical t.mantissa t.exponent) :
    (10 : ℚ) ^ (t.ceiling - 23) ≤ 2 ^ (t.exponent - 1) := by
  have hleast := hc.least
  have hmost := hc.most
  have hlog : t.mantissa.log2 < 53 := (Nat.log2_lt hc.pos.ne').2 hc.lt
  unfold ceiling
  by_cases hk : 0 ≤ (t.exponent + t.mantissa.log2 + 1) * 30103 / 100000 + 2 - 23
  · exact ten_zpow_le_two_zpow hk (by omega)
  · exact ten_zpow_le_two_zpow_of_neg (by omega) (by omega)

theorem scaleSteps_le (h : (10 : ℚ) ^ k ≤ 2 ^ (t.exponent - 1)) :
    t.scaleSteps k ≤ 2 * t.scaleUnits k := by
  have hunits : (0 : ℚ) < 4 * t.scaleUnits k := by
    have hpos := t.scaleUnits_pos k
    positivity
  have hhalf : (10 ^ k / 2 ^ t.exponent : ℚ) ≤ 1 / 2 := by
    rw [zpow_sub_one₀ two_ne_zero] at h
    rw [div_le_iff₀ (two_zpow_pos _)]
    linarith
  rw [step_eq, div_le_iff₀ hunits] at hhalf
  have hcast : (t.scaleSteps k : ℚ) ≤ 2 * t.scaleUnits k := by linarith
  exact_mod_cast hcast

/-- The shortest decimal of a double rounds to it. -/
theorem decimal_roundsTo (hc : Canonical t.mantissa t.exponent) :
    RoundsTo (t.decimal.1 * 10 ^ t.decimal.2) t.mantissa t.exponent := by
  refine roundsTo_of_holds hc.pos (holds_search ⟨23, by decide, ?_⟩)
  exact exists_onGrid hc.pos (scaleSteps_le (ten_zpow_ceiling_le hc))

end ComplexExpr.Shortest.Target
