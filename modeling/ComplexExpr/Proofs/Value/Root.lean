import ComplexExpr.Proofs.Value.Closeness
import ComplexExpr.Proofs.Value.Length

/-!
# What square roots are taken of

The length of two doubles is not a number, or it is no less than the size of either that is a
number (`le_hypot`). Neither sum nor difference of a double and a smaller one is negative, nor half
of it, and so the two roots that make a value's square root exist (`Value.not_half_sum_lt`,
`Value.not_half_difference_lt`).
-/

namespace ComplexExpr

namespace Binary

open Float.Model (UnpackedFloat)

variable {x y m : Float} {q : ℚ} {s : UnpackedFloat.Sign}

/-- A double is not a number, infinite or finite. -/
theorem notANumber_or (x : Float) : x.toModel.unpack = .notANumber ∨
    (∃ s, x.toModel.unpack = .infinity s) ∨ ∃ q, HasValue x q := by
  cases hx : x.toModel.unpack with
  | notANumber => exact .inl rfl
  | infinity s => exact .inr (.inl ⟨s, rfl⟩)
  | zero s | finite s k e hk =>
    refine .inr (.inr (exists_hasValue ?_))
    show x.toModel.unpack.isFinite
    rw [hx]
    rfl

theorem isNaN_iff : x.isNaN ↔ x.toModel.unpack = .notANumber := by
  show x.toModel.unpack.isNaN ↔ _
  cases x.toModel.unpack with
  | notANumber => exact iff_of_true rfl rfl
  | infinity s | zero s | finite s k e hk => exact iff_of_false nofun nofun

theorem isInf_iff : x.isInf ↔ ∃ s, x.toModel.unpack = .infinity s := by
  show x.toModel.unpack.isInf ↔ _
  cases x.toModel.unpack with
  | infinity s => exact iff_of_true rfl ⟨s, rfl⟩
  | notANumber | zero s | finite s k e hk => exact iff_of_false nofun nofun

theorem unpack_abs_notANumber (h : x.toModel.unpack = .notANumber) :
    x.abs.toModel.unpack = .notANumber := by
  show (Float.Model.pack x.toModel.unpack.abs).unpack = _
  rw [h]
  rfl

theorem unpack_abs_infinity (h : x.toModel.unpack = .infinity s) :
    x.abs.toModel.unpack = .infinity .positive := by
  show (Float.Model.pack x.toModel.unpack.abs).unpack = _
  rw [h]
  exact unpack_pack_infinity .positive

theorem HasValue.isNaN_eq (h : HasValue x q) : x.isNaN = false := by
  obtain ⟨s, k, e, h, -⟩ := h
  show x.toModel.unpack.isNaN = false
  cases h with
  | zero h => rw [h]; rfl
  | nonzero hc h => rw [h]; rfl

theorem HasValue.isInf_eq (h : HasValue x q) : x.isInf = false := by
  obtain ⟨s, k, e, h, -⟩ := h
  show x.toModel.unpack.isInf = false
  cases h with
  | zero h => rw [h]; rfl
  | nonzero hc h => rw [h]; rfl

theorem isNaN_of_abs (h : x.abs.isNaN) : x.isNaN := by
  rcases notANumber_or x with hnan | ⟨s, hs⟩ | ⟨q, hq⟩
  · exact isNaN_iff.2 hnan
  · rw [isNaN_iff, unpack_abs_infinity hs] at h
    cases h
  · rw [hq.abs.isNaN_eq] at h
    cases h

theorem exists_hasValue_abs (hinf : ¬x.abs.isInf) (hnan : ¬x.abs.isNaN) :
    ∃ q, HasValue x.abs q ∧ 0 ≤ q := by
  rcases notANumber_or x with h | ⟨s, hs⟩ | ⟨q, hq⟩
  · exact absurd (isNaN_iff.2 (unpack_abs_notANumber h)) hnan
  · exact absurd (isInf_iff.2 ⟨_, unpack_abs_infinity hs⟩) hinf
  · exact ⟨|q|, hq.abs, abs_nonneg q⟩

theorem HasValue.beq_zero (h : HasValue x q) : (x == 0.0) = true ↔ q = 0 := by
  obtain ⟨s, k, e, h, rfl⟩ := h
  rw [h.beq_zero, ← abs_eq_zero, abs_signed, abs_eq_zero, mul_eq_zero,
    or_iff_left (two_zpow_pos e).ne', Nat.cast_eq_zero]

/-! ## Comparisons with infinity and zero -/

theorem le_infinity (h : ¬x.isNaN) : x ≤ Decimal.infinity := by
  rw [le_iff, unpack_infinity]
  rw [isNaN_iff] at h
  cases hx : x.toModel.unpack with
  | notANumber => exact absurd hx h
  | infinity s => cases s <;> rfl
  | zero s => rfl
  | finite s k e hk => cases s <;> rfl

theorem not_lt_zero_of_le (h : 0.0 ≤ x) : ¬x < 0.0 := by
  have hzero : (0.0 : Float).toModel.unpack = .zero .positive := rfl
  rw [le_iff, hzero] at h
  rw [lt_iff, hzero]
  cases hx : x.toModel.unpack with
  | notANumber => exact nofun
  | infinity s | finite s k e hk =>
    rw [hx] at h
    cases s with
    | positive => exact nofun
    | negative => exact nomatch h
  | zero s => exact nofun

theorem HasValue.not_lt_zero_iff (h : HasValue x q) : ¬x < 0.0 ↔ 0 ≤ q := by
  rw [h.lt_iff .zero, not_lt]

theorem Rounded.not_lt_zero (h : Rounded x q) (hq : 0 ≤ q) : ¬x < 0.0 :=
  not_lt_zero_of_le (h.ge .zero le_rfl hq)

/-! ## Sums, differences and halves -/

theorem not_lt_zero_of_infinity (h : x.toModel.unpack = .infinity .positive) : ¬x < 0.0 := by
  rw [lt_iff, h]
  exact nofun

/-- A double that is no smaller than the size of another one, unless that is not a number. -/
theorem bounded_cases (hm : 0.0 ≤ m) (h : ¬x.isNaN → x.abs ≤ m) :
    x.toModel.unpack = .notANumber ∨ m.toModel.unpack = .infinity .positive ∨
      ∃ u q, HasValue m u ∧ HasValue x q ∧ |q| ≤ u := by
  rw [isNaN_iff] at h
  rcases notANumber_or m with hnan | ⟨s, hs⟩ | ⟨u, hu⟩
  · rw [le_iff, hnan] at hm
    exact nomatch hm
  · rw [le_iff, hs] at hm
    cases s with
    | positive => exact .inr (.inl hs)
    | negative => exact nomatch hm
  · rcases notANumber_or x with hnan | ⟨s, hs⟩ | ⟨q, hq⟩
    · exact .inl hnan
    · -- an infinite size is above every finite one
      have hle := h (by rw [hs]; exact nofun)
      obtain ⟨t, k, e, hu, -⟩ := hu
      rw [le_iff, unpack_abs_infinity hs] at hle
      cases hu with
      | zero hu => rw [hu] at hle; exact nomatch hle
      | nonzero hc hu => rw [hu] at hle; cases t <;> exact nomatch hle
    · have hle := h fun hnan => by
        rw [← isNaN_iff, hq.isNaN_eq] at hnan
        cases hnan
      exact .inr (.inr ⟨u, q, hu, hq, (hq.abs.le_iff hu).1 hle⟩)

theorem unpack_add_notANumber
    (h : x.toModel.unpack = .notANumber ∨ y.toModel.unpack = .notANumber) :
    (x + y).toModel.unpack = .notANumber := by
  have hsum : UnpackedFloat.add .binary64 x.toModel.unpack y.toModel.unpack = .notANumber := by
    rcases h with h | h <;> rw [h]
    · rfl
    · cases x.toModel.unpack <;> rfl
  show (Float.Model.pack (.add .binary64 x.toModel.unpack y.toModel.unpack)).unpack = _
  rw [hsum]
  rfl

theorem not_add_lt_zero (hm : 0.0 ≤ m) (h : ¬x.isNaN → x.abs ≤ m) : ¬m + x < 0.0 := by
  have hsum : m + x = .ofModel (.pack (.add .binary64 m.toModel.unpack x.toModel.unpack)) := rfl
  rcases bounded_cases hm h with hx | hm | ⟨u, q, hu, hq, hle⟩
  · exact not_lt_of_notANumber (unpack_add_notANumber (.inr hx))
  · rw [hsum, hm]
    cases x.toModel.unpack with
    | notANumber => exact not_lt_of_notANumber rfl
    | infinity s =>
      cases s with
      | positive => exact not_lt_zero_of_infinity (unpack_pack_infinity .positive)
      | negative => exact not_lt_of_notANumber rfl
    | zero s | finite s k e hk => exact not_lt_zero_of_infinity (unpack_pack_infinity .positive)
  · exact (rounded_add hu hq).not_lt_zero (by linarith [neg_abs_le q])

theorem not_sub_lt_zero (hm : 0.0 ≤ m) (h : ¬x.isNaN → x.abs ≤ m) : ¬m - x < 0.0 := by
  rw [sub_eq]
  have habs : (-x).abs = x.abs := by
    show Float.ofModel (.pack (-x).toModel.unpack.abs) = .ofModel (.pack x.toModel.unpack.abs)
    rw [unpack_neg]
    cases x.toModel.unpack <;> rfl
  have hnan : (-x).isNaN = x.isNaN := by
    show (-x).toModel.unpack.isNaN = x.toModel.unpack.isNaN
    rw [unpack_neg]
    cases x.toModel.unpack <;> rfl
  refine not_add_lt_zero hm ?_
  rwa [habs, hnan]

/-- What is not negative has a half that is not negative. -/
theorem not_half_lt_zero (h : ¬x < 0.0) : ¬x / 2.0 < 0.0 := by
  have hhalf : x / 2.0 =
      .ofModel (.pack (.div .binary64 x.toModel.unpack (2.0 : Float).toModel.unpack)) := rfl
  rcases notANumber_or x with hx | ⟨s, hs⟩ | ⟨q, hq⟩
  · rw [hhalf, hx]
    exact not_lt_of_notANumber rfl
  · obtain rfl : s = .positive := by
      cases s with
      | positive => rfl
      | negative => rw [lt_iff, hs] at h; exact absurd rfl h
    rw [hhalf, hs]
    exact not_lt_zero_of_infinity (unpack_pack_infinity .positive)
  · exact (rounded_div hq hasValue_two two_ne_zero).not_lt_zero
      (div_nonneg (hq.not_lt_zero_iff.1 h) two_pos.le)

end Binary

open Binary

/-! ## Lengths -/

/-- The length of two finite doubles is no less than either of them. -/
theorem le_hypot_of_hasValue {a b : Float} {p q : ℚ} (hp : HasValue a.abs p) (hp0 : 0 ≤ p)
    (hq : HasValue b.abs q) (hq0 : 0 ≤ q) :
    0.0 ≤ hypot a b ∧ a.abs ≤ hypot a b ∧ b.abs ≤ hypot a b := by
  -- the larger part
  obtain ⟨m, u, hm, hmu, hpu, hqu, hone⟩ : ∃ m u, (if b.abs < a.abs then a.abs else b.abs) = m ∧
      HasValue m u ∧ p ≤ u ∧ q ≤ u ∧ (p = u ∨ q = u) := by
    by_cases hlt : b.abs < a.abs
    · exact ⟨a.abs, p, if_pos hlt, hp, le_rfl, ((hq.lt_iff hp).1 hlt).le, .inl rfl⟩
    · exact ⟨b.abs, q, if_neg hlt, hq, not_lt.1 fun h => hlt ((hq.lt_iff hp).2 h), le_rfl, .inr rfl⟩
  have hlength : hypot a b = if m == 0.0 then 0.0 else scaledLength m a.abs b.abs := by
    unfold hypot
    dsimp only
    rw [hp.isInf_eq, hq.isInf_eq, hp.isNaN_eq, hq.isNaN_eq, hm]
    rfl
  rw [hlength]
  by_cases hzero : (m == 0.0) = true
  · have hu : u = 0 := hmu.beq_zero.1 hzero
    rw [if_pos hzero]
    exact ⟨(HasValue.zero.le_iff .zero).2 le_rfl, (hp.le_iff .zero).2 (hpu.trans hu.le),
      (hq.le_iff .zero).2 (hqu.trans hu.le)⟩
  · have hu : 0 < u := lt_of_le_of_ne (hp0.trans hpu) fun h => hzero (hmu.beq_zero.2 h.symm)
    rw [if_neg hzero]
    obtain ⟨t, ht, hle⟩ := exists_rounded_scaledLength hmu hu hp hp0 hpu hq hq0 hqu hone
    exact ⟨ht.ge .zero le_rfl (hu.le.trans hle), ht.ge hp hp0 (hpu.trans hle),
      ht.ge hq hq0 (hqu.trans hle)⟩

/-- A length is not a number, or it is not negative and no less than the size of either part that
is a number. -/
theorem le_hypot (a b : Float) : (hypot a b).isNaN ∨
    0.0 ≤ hypot a b ∧ (¬a.isNaN → a.abs ≤ hypot a b) ∧ (¬b.isNaN → b.abs ≤ hypot a b) := by
  by_cases hinf : a.abs.isInf || b.abs.isInf
  · have hlength : hypot a b = Decimal.infinity := if_pos hinf
    have hle {x : Float} (hx : ¬x.isNaN) : x.abs ≤ Decimal.infinity :=
      le_infinity (mt isNaN_of_abs hx)
    rw [hlength]
    exact .inr ⟨le_infinity (by decide), hle, hle⟩
  by_cases hnan : a.abs.isNaN || b.abs.isNaN
  · have hlength : hypot a b = 0.0 / 0.0 := (if_neg hinf).trans (if_pos hnan)
    rw [hlength]
    exact .inl rfl
  rw [Bool.or_eq_true, not_or] at hinf hnan
  obtain ⟨p, hp, hp0⟩ := exists_hasValue_abs hinf.1 hnan.1
  obtain ⟨q, hq, hq0⟩ := exists_hasValue_abs hinf.2 hnan.2
  obtain ⟨hzero, ha, hb⟩ := le_hypot_of_hasValue hp hp0 hq hq0
  exact .inr ⟨hzero, fun _ => ha, fun _ => hb⟩

namespace Value

theorem not_modulus_lt (z : Value) : ¬z.modulus < 0.0 := by
  rcases le_hypot z.re z.im with hnan | ⟨hzero, -⟩
  · exact not_lt_of_notANumber (isNaN_iff.1 hnan)
  · exact not_lt_zero_of_le hzero

/-- The real part of a square root is the root of a number that is not negative. -/
theorem not_half_sum_lt (z : Value) : ¬(z.modulus + z.re) / 2.0 < 0.0 := by
  refine not_half_lt_zero ?_
  rcases le_hypot z.re z.im with hnan | ⟨hzero, hre, -⟩
  · exact not_lt_of_notANumber (unpack_add_notANumber (.inl (isNaN_iff.1 hnan)))
  · exact not_add_lt_zero hzero hre

/-- So is the size of the imaginary part. -/
theorem not_half_difference_lt (z : Value) : ¬(z.modulus - z.re) / 2.0 < 0.0 := by
  refine not_half_lt_zero ?_
  rcases le_hypot z.re z.im with hnan | ⟨hzero, hre, -⟩
  · rw [sub_eq]
    exact not_lt_of_notANumber (unpack_add_notANumber (.inl (isNaN_iff.1 hnan)))
  · exact not_sub_lt_zero hzero hre

end Value

end ComplexExpr
