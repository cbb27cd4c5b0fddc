import ComplexExpr.Proofs.Binary.Nearest
import Mathlib.Algebra.Order.Archimedean.Basic

/-!
# Sums and products without error

Some of what is lost in rounding is itself a double, and is found by operations on doubles that
round nothing. That is so of a sum with the larger summand first (`Rounds.fast_two_sum`), and of
the two halves of a double's digits, whose products have no more digits than a double
(`Rounds.upper_digits`, `Split`). At the end, how close to a double a number may be for not being
rounded below it (`Rounds.ge_of_lt`).
-/

namespace ComplexExpr.Binary

variable {p q r f v : ℚ} {e j k : ℤ}

/-! ## Binades -/

/-- The powers of two next to a positive number. -/
theorem exists_binade (hq : 0 < q) : ∃ k : ℤ, 2 ^ k ≤ q ∧ q < 2 ^ (k + 1) :=
  exists_mem_Ico_zpow hq one_lt_two

theorem two_zpow_halves (h : k = e + 1) : (2 : ℚ) ^ k = 2 ^ e + 2 ^ e := by
  rw [h, zpow_add_one₀ two_ne_zero, mul_two]

theorem two_zpow_le (h : e ≤ k) : (2 : ℚ) ^ e ≤ 2 ^ k := zpow_le_zpow_right₀ one_le_two h

theorem abs_add_le_two_zpow (hp : |p| ≤ 2 ^ e) (hq : |q| ≤ 2 ^ j) (he : e < k) (hj : j < k) :
    |p + q| ≤ 2 ^ k := by
  have hsplit : (2 : ℚ) ^ k = 2 ^ (k - 1) + 2 ^ (k - 1) := two_zpow_halves (by ring)
  calc |p + q| ≤ |p| + |q| := abs_add_le p q
    _ ≤ 2 ^ (k - 1) + 2 ^ (k - 1) :=
        add_le_add (hp.trans (two_zpow_le (by omega))) (hq.trans (two_zpow_le (by omega)))
    _ = 2 ^ k := hsplit.symm

theorem abs_sub_le_two_zpow (hp : |p| ≤ 2 ^ e) (hq : |q| ≤ 2 ^ j) (he : e < k) (hj : j < k) :
    |p - q| ≤ 2 ^ k := by
  rw [sub_eq_add_neg]
  exact abs_add_le_two_zpow hp (by rwa [abs_neg]) he hj

theorem abs_mul_le_two_zpow (hp : |p| ≤ 2 ^ e) (hq : |q| ≤ 2 ^ j) (hk : e + j ≤ k) :
    |p * q| ≤ 2 ^ k := by
  rw [abs_mul]
  calc |p| * |q| ≤ 2 ^ e * 2 ^ j := mul_le_mul hp hq (abs_nonneg q) (two_zpow_pos e).le
    _ = 2 ^ (e + j) := (zpow_add₀ two_ne_zero e j).symm
    _ ≤ 2 ^ k := two_zpow_le hk

/-- Two points of a grid are at least a unit apart. -/
theorem OnGrid.add_le_of_lt (hp : OnGrid e p) (hq : OnGrid e q) (h : p < q) : p + 2 ^ e ≤ q := by
  obtain ⟨m, rfl⟩ := hp
  obtain ⟨n, rfl⟩ := hq
  have hpow := two_zpow_pos e
  have hmn : (m : ℚ) < n := lt_of_mul_lt_mul_right h hpow.le
  have hle : m + 1 ≤ n := by exact_mod_cast hmn
  calc (m * 2 ^ e + 2 ^ e : ℚ) = (m + 1 : ℤ) * 2 ^ e := by push_cast; ring
    _ ≤ n * 2 ^ e := mul_le_mul_of_nonneg_right (by exact_mod_cast hle) hpow.le

/-- A point of a grid comes less than a unit after every number. -/
theorem exists_onGrid_ge (e : ℤ) (q : ℚ) : ∃ c, OnGrid e c ∧ q ≤ c ∧ c ≤ q + 2 ^ e := by
  have hpow := two_zpow_pos e
  have hle := Int.le_ceil (q / 2 ^ e)
  have hlt := (Int.ceil_lt_add_one (q / 2 ^ e)).le
  rw [div_le_iff₀ hpow] at hle
  rw [← sub_le_iff_le_add, le_div_iff₀ hpow, sub_mul, one_mul] at hlt
  exact ⟨⌈q / 2 ^ e⌉ * 2 ^ e, ⟨_, rfl⟩, hle, by linarith⟩

/-- Numbers with few bits each have a double for a product. -/
theorem OnGrid.mul_representable {a b : ℤ} (hp : OnGrid e p) (hq : OnGrid k q)
    (hpa : |p| ≤ 2 ^ a) (hqb : |q| ≤ 2 ^ b) (hek : -1074 ≤ e + k) (hab : a + b ≤ e + k + 53) :
    Representable (p * q) :=
  (hp.mul hq).representable hek (abs_mul_le_two_zpow hpa hqb hab)

theorem OnGrid.abs (h : OnGrid e q) : OnGrid e |q| := by
  rcases abs_choice q with heq | heq
  · rwa [heq]
  · rw [heq]
    exact h.neg

theorem Rounds.magnitude_ge (h : Rounds q r) (hf : Representable f) (hle : f ≤ |q|) : f ≤ |r| := by
  rcases abs_cases q with ⟨heq, -⟩ | ⟨heq, -⟩
  · exact (h.ge hf (heq ▸ hle)).trans (le_abs_self r)
  · exact (h.neg.ge hf (heq ▸ hle)).trans (neg_le_abs r)

/-! ## Sums -/

/-- No sum is farther from its double than from a summand. -/
theorem Rounds.error_le_right (h : Rounds (p + q) r) (hp : Representable p) : |p + q - r| ≤ |q| := by
  have hnear := h.nearest p hp
  rwa [add_sub_cancel_left] at hnear

/-- What is kept of the smaller summand, where the sum has lost a place. -/
theorem Rounds.kept_representable (h : Rounds (p + q) r) (hp : Representable p) (hpe : OnGrid e p)
    (hr : OnGrid (e + 1) r) (hle : |q| ≤ |p|) (hq : |q| ≤ 2 ^ (e + 53)) (he : -1074 ≤ e) :
    Representable (p - r) := by
  have hkept : |p - r| ≤ |p + q - r| + |q| := by
    have htriangle := abs_sub (p + q - r) q
    rwa [show p + q - r - q = p - r by ring] at htriangle
  by_cases hlarge : 2 ^ (e + 53) ≤ |p|
  · have hpe' : OnGrid (e + 1) p := (hp.onGrid hlarge).mono (by omega)
    refine (hpe'.sub hr).representable (by omega) ?_
    rw [two_zpow_halves (show e + 1 + 53 = e + 53 + 1 by ring)]
    linarith [h.error_le_right hp]
  · -- below the next power of two, `p` leaves room for an error of half a place
    have hroom := hpe.abs.add_le_of_lt (.pow (by omega)) (not_le.1 hlarge)
    have hhalf : |p + q - r| ≤ 2 ^ e := by
      refine h.error_le (k := e + 54) ?_ (by omega) (by omega)
      rw [two_zpow_halves (show e + 54 = e + 53 + 1 by ring)]
      linarith [abs_add_le p q]
    exact (hpe.sub (hr.mono (by omega))).representable (by omega) (by linarith)

/-- If the second summand is the smaller one, what is lost of it in a sum is a double, and so is
what is kept of it. -/
theorem Rounds.fast_two_sum (h : Rounds (p + q) r) (hp : Representable p) (hq : Representable q)
    (hle : |q| ≤ |p|) : Representable (p - r) ∧ Representable (p + q - r) := by
  by_cases hzero : q = 0
  · subst hzero
    rw [add_zero] at h ⊢
    rw [h.eq hp, sub_self]
    exact ⟨.zero, .zero⟩
  obtain ⟨k, hlow, hhigh⟩ := exists_binade (abs_pos.2 hzero)
  -- the last place of `q`
  obtain ⟨e, he⟩ : ∃ e, e = max (k - 52) (-1074) := ⟨_, rfl⟩
  have hgrid {f : ℚ} (hf : Representable f) (hkf : 2 ^ k ≤ |f|) : OnGrid e f := by
    rcases max_choice (k - 52) (-1074) with hmax | hmax <;> rw [he, hmax]
    · exact hf.onGrid hkf
    · exact hf.onGrid_least
  have hpe := hgrid hp (hlow.trans hle)
  have hqe := hgrid hq hlow
  have hqlt : |q| ≤ 2 ^ (e + 53) := hhigh.le.trans (two_zpow_le (by omega))
  by_cases hsmall : |p + q| ≤ 2 ^ (e + 53)
  · have hsum : Representable (p + q) := (hpe.add hqe).representable (by omega) hsmall
    rw [h.eq hsum, sub_self, sub_add_cancel_left]
    exact ⟨hq.neg, .zero⟩
  · have hr : OnGrid (e + 1) r := by
      have hrlarge := h.magnitude_ge (.pow (by omega)) (not_le.1 hsmall).le
      exact (h.representable.onGrid hrlarge).mono (by omega)
    have hlost := (hpe.add hqe).sub (hr.mono (by omega))
    exact ⟨h.kept_representable hp hpe hr hle hqlt (by omega),
      hlost.representable (by omega) ((h.error_le_right hp).trans hqlt)⟩

/-! ## Numbers just below a double -/

/-- A number is not rounded below a double that is less than a quarter of its last place away. -/
theorem Rounds.ge_of_lt (h : Rounds q r) (hp : Representable p) (hlow : 2 ^ k ≤ p)
    (hq : p - 2 ^ (k - 54) < q) : p ≤ r := by
  by_contra hlt
  have hlt := not_le.1 hlt
  have hqp : q < p := lt_of_not_ge fun hle => hlt.not_ge (h.ge hp hle)
  have hpow := two_zpow_pos (k - 54)
  have hhalf : (2 : ℚ) ^ (k - 53) = 2 ^ (k - 54) + 2 ^ (k - 54) := two_zpow_halves (by ring)
  -- the next double below is two such distances away
  have hgap : r + 2 ^ (k - 53) ≤ p := by
    have hpgrid : OnGrid (k - 53) p := (hp.onGrid (hlow.trans (le_abs_self p))).mono (by omega)
    by_cases hr : 2 ^ (k - 1) ≤ |r|
    · have hrgrid : OnGrid (k - 53) r := (h.representable.onGrid hr).mono (by omega)
      exact hrgrid.add_le_of_lt hpgrid hlt
    · have hsplit : (2 : ℚ) ^ k = 2 ^ (k - 1) + 2 ^ (k - 1) := two_zpow_halves (by ring)
      have hunit : (2 : ℚ) ^ (k - 53) ≤ 2 ^ (k - 1) := two_zpow_le (by omega)
      linarith [le_abs_self r, not_le.1 hr]
  have hnear := h.nearest p hp
  rw [abs_of_nonneg (by linarith), abs_of_nonpos (by linarith)] at hnear
  linarith

/-! ## Halves -/

section

variable {w t d : ℚ}

/-- Shifted by 27 bits, a number between `2 ^ j` and `2 ^ (j + 1)` has no bits below `2 ^ (j - 25)`,
and so leaves room for one more such bit. -/
theorem OnGrid.shift (hv : OnGrid (j - 52) v) (hlow : 2 ^ j ≤ v) (hhigh : v < 2 ^ (j + 1))
    (hw : w = v * 2 ^ (27 : ℤ)) :
    OnGrid (j - 25) w ∧ 2 ^ (j + 27) ≤ w ∧ w + 2 ^ (j - 25) ≤ 2 ^ (j + 28) := by
  have hshift (k : ℤ) : (2 : ℚ) ^ (k + 27) = 2 ^ k * 2 ^ (27 : ℤ) := zpow_add₀ two_ne_zero k 27
  have hwgrid : OnGrid (j - 25) w := hw ▸ (hv.mul (.pow (le_refl (27 : ℤ)))).mono (by omega)
  refine ⟨hwgrid, ?_, hwgrid.add_le_of_lt (.pow (by omega)) ?_⟩
  · rw [hw, hshift]
    exact mul_le_mul_of_nonneg_right hlow (two_zpow_pos 27).le
  · rw [hw, show j + 28 = j + 1 + 27 by ring, hshift]
    exact mul_lt_mul_of_pos_right hhigh (two_zpow_pos 27)

/-- The sum of a number and its shift is not rounded below the number and the power of two under the
shift. -/
theorem Rounds.shifted_ge (ht : Rounds (w + v) t) (hv : OnGrid (j - 52) v) (hlow : 2 ^ j ≤ v)
    (hhigh : v < 2 ^ (j + 1)) (hw : w = v * 2 ^ (27 : ℤ)) (hj : -1000 ≤ j) :
    2 ^ (j + 27) + v ≤ t := by
  obtain ⟨hwgrid, hwlow, -⟩ := hv.shift hlow hhigh hw
  have hv0 : 0 < v := (two_zpow_pos j).trans_le hlow
  -- a point of the sum's grid lies between `v` and what the sum has above `2 ^ (j + 27)`
  obtain ⟨c, hc, hvc, hcv, hcw⟩ : ∃ c, OnGrid (j - 25) c ∧ v ≤ c ∧ c ≤ v + 2 ^ (j - 25) ∧
      2 ^ (j + 27) + c ≤ w + v := by
    rcases hlow.eq_or_lt with heq | hlt
    · have hunit := two_zpow_pos (j - 25)
      exact ⟨v, heq ▸ .pow (by omega), le_rfl, by linarith, by linarith⟩
    · have hlt : (2 : ℚ) ^ (j + 27) < w := by
        rw [hw, zpow_add₀ two_ne_zero]
        exact mul_lt_mul_of_pos_right hlt (two_zpow_pos 27)
      have hnext := OnGrid.add_le_of_lt (.pow (by omega)) hwgrid hlt
      obtain ⟨c, hc, hvc, hcv⟩ := exists_onGrid_ge (j - 25) v
      exact ⟨c, hc, hvc, hcv, by linarith⟩
  have hgrid : OnGrid (j - 25) (2 ^ (j + 27) + c) := OnGrid.add (.pow (by omega)) hc
  have hsize : |2 ^ (j + 27) + c| ≤ 2 ^ (j - 25 + 53) := by
    have h27 := two_zpow_pos (j + 27)
    have hsmall : (2 : ℚ) ^ (j + 1) ≤ 2 ^ (j + 26) := two_zpow_le (by omega)
    have hunit : (2 : ℚ) ^ (j - 25) ≤ 2 ^ (j + 26) := two_zpow_le (by omega)
    have hhalf : (2 : ℚ) ^ (j + 27) = 2 ^ (j + 26) + 2 ^ (j + 26) := two_zpow_halves (by ring)
    have hroom : (2 : ℚ) ^ (j - 25 + 53) = 2 ^ (j + 27) + 2 ^ (j + 27) := two_zpow_halves (by ring)
    rw [abs_of_nonneg (by linarith)]
    linarith
  have hle := ht.ge (hgrid.representable (by omega) hsize) hcw
  linarith

/-- Splitting off the upper digits of a double: what is split off has 26 bits, and so has the
rest. -/
theorem Rounds.upper_digits (ht : Rounds (v * 134217729) t) (hd : Rounds (t - v) d)
    (hv : Representable v) (hlow : 2 ^ j ≤ v) (hhigh : v < 2 ^ (j + 1)) (hj : -1000 ≤ j) :
    OnGrid (j - 25) (t - d) ∧ t - d ≤ 2 ^ (j + 1) ∧ |v - (t - d)| ≤ 2 ^ (j - 26) := by
  have hvgrid : OnGrid (j - 52) v := hv.onGrid (hlow.trans (le_abs_self v))
  obtain ⟨w, hw⟩ : ∃ w, w = v * 2 ^ (27 : ℤ) := ⟨_, rfl⟩
  have hsum : v * 134217729 = w + v := by
    rw [hw]
    norm_num
    ring
  rw [hsum] at ht
  obtain ⟨-, -, hwhigh⟩ := hvgrid.shift hlow hhigh hw
  have htlow := ht.shifted_ge hvgrid hlow hhigh hw hj
  have hv0 : 0 < v := (two_zpow_pos j).trans_le hlow
  have hunit := two_zpow_pos (j - 25)
  have hhalf : (2 : ℚ) ^ (j - 25) = 2 ^ (j - 26) + 2 ^ (j - 26) := two_zpow_halves (by ring)
  have hvsmall : (2 : ℚ) ^ (j + 1) ≤ 2 ^ (j + 28) := two_zpow_le (by omega)
  have hterror : |w + v - t| ≤ 2 ^ (j - 25) := by
    refine ht.error_le (k := j + 29) ?_ (by omega) (by omega)
    have hw0 : 0 < w := hw ▸ mul_pos hv0 (two_zpow_pos 27)
    rw [abs_of_nonneg (by linarith), two_zpow_halves (show j + 29 = j + 28 + 1 by ring)]
    linarith
  rw [abs_le] at hterror
  have h27 := two_zpow_pos (j + 27)
  have hderror : |t - v - d| ≤ 2 ^ (j - 26) := by
    refine hd.error_le (k := j + 28) ?_ (by omega) (by omega)
    rw [abs_of_nonneg (by linarith)]
    linarith
  -- both `t` and `d` are large enough to have no bits below those of `w`
  have hlarge {f : ℚ} (hf : Representable f) (hle : 2 ^ (j + 27) ≤ f) : OnGrid (j - 25) f :=
    (hf.onGrid (hle.trans (le_abs_self f))).mono (by omega)
  have hdlow : 2 ^ (j + 27) ≤ d := hd.ge (.pow (by omega)) (by linarith)
  have hgrid := (hlarge ht.representable (by linarith)).sub (hlarge hd.representable hdlow)
  have hclose : |v - (t - d)| ≤ 2 ^ (j - 26) := by
    rwa [show v - (t - d) = -(t - v - d) by ring, abs_neg]
  refine ⟨hgrid, not_lt.1 fun hgt => ?_, hclose⟩
  have hnext := OnGrid.add_le_of_lt (.pow (by omega)) hgrid hgt
  rw [abs_le] at hclose
  linarith [two_zpow_pos (j - 26)]

end

/-- A number as the sum of two whose products are doubles. -/
structure Split (v high low : ℚ) : Prop where
  sum : high + low = v
  high_sq : Representable (high * high)
  cross : Representable (2 * high * low)
  low_sq : Representable (low * low)
  nonneg : 0 ≤ high
  cross_le : |2 * high * low| ≤ high * high / 8
  high_le : v < 1 → high ≤ 1
  low_le : v < 2 → |low| ≤ 2 ^ (-26 : ℤ)

theorem Split.low_sq_le {high low : ℚ} (h : Split v high low) (hv : v < 2) :
    |low * low| ≤ 2 ^ (-52 : ℤ) :=
  abs_mul_le_two_zpow (h.low_le hv) (h.low_le hv) (by decide)

/-- Two numbers with 26 bits each make products with no more bits than a double. -/
theorem Split.of_grid {high low : ℚ} (hsum : high + low = v) (hv : Representable v)
    (hlow : 2 ^ j ≤ v) (hj : -400 ≤ j) (hgrid : OnGrid (j - 25) high)
    (hle : high ≤ 2 ^ (j + 1)) (hclose : |low| ≤ 2 ^ (j - 26)) :
    Representable high ∧ Representable low ∧ Split v high low := by
  have hlgrid : OnGrid (j - 52) low := by
    rw [eq_sub_iff_add_eq'.2 hsum]
    exact (hv.onGrid (hlow.trans (le_abs_self v))).sub (hgrid.mono (by omega))
  have hnonneg : 2 ^ (j - 1) ≤ high := by
    have hunit : (2 : ℚ) ^ (j - 26) ≤ 2 ^ (j - 1) := two_zpow_le (by omega)
    have hhalf : (2 : ℚ) ^ j = 2 ^ (j - 1) + 2 ^ (j - 1) := two_zpow_halves (by ring)
    rw [abs_le] at hclose
    linarith
  have hpos : 0 ≤ high := (two_zpow_pos _).le.trans hnonneg
  have habs : |high| ≤ 2 ^ (j + 1) := by rwa [abs_of_nonneg hpos]
  have hdouble : OnGrid (1 + (j - 25)) (2 * high) := OnGrid.mul ⟨1, by norm_num⟩ hgrid
  have habs2 : |2 * high| ≤ 2 ^ (j + 2) := by
    rw [abs_mul, abs_two, two_mul, two_zpow_halves (show j + 2 = j + 1 + 1 by ring)]
    exact add_le_add habs habs
  have hsmall : 16 * |low| ≤ high := by
    have hsixteen : (2 : ℚ) ^ (j - 26 + 4) = 2 ^ (j - 26) * 2 ^ (4 : ℤ) := zpow_add₀ two_ne_zero _ _
    have hle : (2 : ℚ) ^ (j - 26 + 4) ≤ 2 ^ (j - 1) := two_zpow_le (by omega)
    norm_num at hsixteen
    linarith
  have hexponent {k : ℤ} (hk : v < 2 ^ k) : j < k :=
    (zpow_lt_zpow_iff_right₀ one_lt_two).1 (hlow.trans_lt hk)
  refine ⟨hgrid.representable (by omega) (habs.trans (two_zpow_le (by omega))),
    hlgrid.representable (by omega) (hclose.trans (two_zpow_le (by omega))), ?_⟩
  exact {
    sum := hsum
    high_sq := hgrid.mul_representable hgrid habs habs (by omega) (by omega)
    cross := hdouble.mul_representable hlgrid habs2 hclose (by omega) (by omega)
    low_sq := hlgrid.mul_representable hlgrid hclose hclose (by omega) (by omega)
    nonneg := hpos
    cross_le := by
      rw [abs_mul, abs_mul, abs_two, abs_of_nonneg hpos]
      nlinarith
    high_le := fun hv =>
      hle.trans (zpow_le_one_of_nonpos₀ one_le_two (hexponent (by rwa [zpow_zero])))
    low_le := fun hv => by
      have hj : j < 1 := hexponent (by rwa [zpow_one])
      exact hclose.trans (two_zpow_le (by omega)) }

end ComplexExpr.Binary
