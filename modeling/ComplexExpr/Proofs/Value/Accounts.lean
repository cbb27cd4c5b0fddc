import ComplexExpr.Proofs.Binary.Arithmetic
import ComplexExpr.Proofs.Binary.ErrorFree
import ComplexExpr.Value.Magnitude

/-!
# Sums with accounts

What a sum's total loses when a term is added is a double and goes to an account, so that total
and accounts together stay next to the exact sum (`Sum.Tracks`), one step after the other. A square
is added and taken away in three terms, each of them a double.
-/

namespace ComplexExpr

open Binary

namespace Sum

/-- After `n` steps the total is `T`, and together with the accounts it is next to `1 + q`. -/
structure Tracks (s : Sum) (n : ℕ) (T q : ℚ) : Prop where
  total : HasValue s.total T
  total_le : |T| ≤ 2 ^ (2 : ℤ)
  accounts : ∃ f g h, HasValue s.first f ∧ HasValue s.second g ∧ HasValue s.third h ∧
    |f| ≤ n * 2 ^ (-51 : ℤ) ∧ |g| ≤ n * 2 ^ (-51 : ℤ) ∧ |h| ≤ n * 2 ^ (-51 : ℤ) ∧
    |T - 1 + (f + g + h) - q| ≤ n * 2 ^ (-98 : ℤ)

variable {s : Sum} {n : ℕ} {T q v f : ℚ} {x total account : Float}

/-- The start: one, and nothing on the accounts. -/
theorem tracks_start : ({} : Sum).Tracks 0 1 0 := by
  refine ⟨.one, by norm_num, 0, 0, 0, .zero, .zero, .zero, ?_⟩
  norm_num

/-- A term added to a total, with what is lost added to an account. -/
theorem exists_account (ht : HasValue total T) (ha : HasValue account f) (hx : HasValue x v)
    (hT : |T| ≤ 2 ^ (2 : ℤ)) (hle : |v| ≤ |T|) (hsum : |T + v| ≤ 2 ^ (2 : ℤ))
    (hf : |f| ≤ 2 ^ (-45 : ℤ)) :
    ∃ T' f', Rounds (T + v) T' ∧ HasValue (total + x) T' ∧ |T'| ≤ 2 ^ (2 : ℤ) ∧
      HasValue (account + ((total - (total + x)) + x)) f' ∧
      |f' - f| ≤ 2 ^ (-51 : ℤ) ∧ |T' + f' - (T + v + f)| ≤ 2 ^ (-98 : ℤ) := by
  obtain ⟨T', hT', hround, hT'le⟩ := (rounded_add ht hx).exists_rounds_le hsum (by decide)
  obtain ⟨hkept, hlost⟩ := hround.fast_two_sum ht.representable hx.representable hle
  have herror : |T + v - T'| ≤ 2 ^ (-52 : ℤ) := hround.error_le hsum (by decide) (by decide)
  have hdiff : HasValue (total - (total + x)) (T - T') := by
    exact (rounded_sub ht hT').exact hkept (k := 3)
      (abs_sub_le_two_zpow hT hT'le (by decide) (by decide)) (by decide)
  have hrest : HasValue (total - (total + x) + x) (T + v - T') := by
    have hcomm : T - T' + v = T + v - T' := by ring
    have hround' := rounded_add hdiff hx
    rw [hcomm] at hround'
    exact hround'.exact hlost herror (by decide)
  have hsmall : |f + (T + v - T')| ≤ 2 ^ (-44 : ℤ) :=
    abs_add_le_two_zpow hf herror (by decide) (by decide)
  obtain ⟨f', hf', hround'⟩ := (rounded_add ha hrest).exists_rounds hsmall (by decide)
  have herror' : |f + (T + v - T') - f'| ≤ 2 ^ (-98 : ℤ) :=
    hround'.error_le hsmall (by decide) (by decide)
  refine ⟨T', f', hround, hT', hT'le, hf', ?_, ?_⟩
  · rw [abs_le] at herror herror' ⊢
    norm_num at herror herror' ⊢
    constructor <;> linarith
  · rwa [show T' + f' - (T + v + f) = -(f + (T + v - T') - f') by ring, abs_neg]

theorem account_le (hn : n ≤ 16) (hf : |f| ≤ n * 2 ^ (-51 : ℤ)) : |f| ≤ 2 ^ (-45 : ℤ) := by
  have hcast : (n : ℚ) ≤ 16 := by exact_mod_cast hn
  norm_num at hf ⊢
  linarith

theorem account_step {f' : ℚ} (hf : |f| ≤ n * 2 ^ (-51 : ℤ)) (hstep : |f' - f| ≤ 2 ^ (-51 : ℤ)) :
    |f'| ≤ (n + 1 : ℕ) * 2 ^ (-51 : ℤ) := by
  have htriangle := abs_add_le (f' - f) f
  rw [sub_add_cancel] at htriangle
  push_cast
  linarith

theorem account_keep (hf : |f| ≤ n * 2 ^ (-51 : ℤ)) : |f| ≤ (n + 1 : ℕ) * 2 ^ (-51 : ℤ) := by
  have hpow := two_zpow_pos (-51)
  push_cast
  linarith

/-- What a step adds to the sum and what it adds to the error. -/
theorem near_step {c c' T' : ℚ} (h : |T - 1 + c - q| ≤ n * 2 ^ (-98 : ℤ))
    (hstep : |T' + c' - (T + v + c)| ≤ 2 ^ (-98 : ℤ)) :
    |T' - 1 + c' - (q + v)| ≤ (n + 1 : ℕ) * 2 ^ (-98 : ℤ) := by
  have htriangle := abs_add_le (T' + c' - (T + v + c)) (T - 1 + c - q)
  rw [show T' + c' - (T + v + c) + (T - 1 + c - q) = T' - 1 + c' - (q + v) by ring] at htriangle
  push_cast
  linarith

namespace Tracks

theorem addFirst (h : s.Tracks n T q) (hn : n ≤ 16) (hx : HasValue x v) (hle : |v| ≤ |T|)
    (hsum : |T + v| ≤ 2 ^ (2 : ℤ)) :
    ∃ T', Rounds (T + v) T' ∧ (s.addFirst x).Tracks (n + 1) T' (q + v) := by
  obtain ⟨f, g, h', hf, hg, hh, hf', hg', hh', hnear⟩ := h.accounts
  obtain ⟨T', f', hround, hT', hT'le, hfx, hstep, herror⟩ :=
    exists_account h.total hf hx h.total_le hle hsum (account_le hn hf')
  refine ⟨T', hround, hT', hT'le, f', g, h', hfx, hg, hh,
    account_step hf' hstep, account_keep hg', account_keep hh', near_step hnear ?_⟩
  rwa [show T' + (f' + g + h') - (T + v + (f + g + h')) = T' + f' - (T + v + f) by ring]

/-- No account is different from the others. -/
theorem swapFirst (h : s.Tracks n T q) :
    (⟨s.total, s.second, s.first, s.third⟩ : Sum).Tracks n T q := by
  obtain ⟨f, g, h', hf, hg, hh, hf', hg', hh', hnear⟩ := h.accounts
  exact ⟨h.total, h.total_le, g, f, h', hg, hf, hh, hg', hf', hh', by rwa [add_comm g f]⟩

theorem swapSecond (h : s.Tracks n T q) :
    (⟨s.total, s.first, s.third, s.second⟩ : Sum).Tracks n T q := by
  obtain ⟨f, g, h', hf, hg, hh, hf', hg', hh', hnear⟩ := h.accounts
  exact ⟨h.total, h.total_le, f, h', g, hf, hh, hg, hf', hh', hg', by rwa [add_right_comm f h' g]⟩

theorem addSecond (h : s.Tracks n T q) (hn : n ≤ 16) (hx : HasValue x v) (hle : |v| ≤ |T|)
    (hsum : |T + v| ≤ 2 ^ (2 : ℤ)) :
    ∃ T', Rounds (T + v) T' ∧ (s.addSecond x).Tracks (n + 1) T' (q + v) := by
  obtain ⟨T', hround, h'⟩ := h.swapFirst.addFirst hn hx hle hsum
  exact ⟨T', hround, h'.swapFirst⟩

theorem addThird (h : s.Tracks n T q) (hn : n ≤ 16) (hx : HasValue x v) (hle : |v| ≤ |T|)
    (hsum : |T + v| ≤ 2 ^ (2 : ℤ)) :
    ∃ T', Rounds (T + v) T' ∧ (s.addThird x).Tracks (n + 1) T' (q + v) := by
  obtain ⟨T', hround, h'⟩ := h.swapSecond.addSecond hn hx hle hsum
  exact ⟨T', hround, h'.swapSecond⟩

/-- A small term may go to the third account at once. -/
theorem third (h : s.Tracks n T q) (hn : n ≤ 16) (hx : HasValue x v)
    (hv : |v| ≤ 2 ^ (-52 : ℤ)) :
    ({ s with third := s.third + x } : Sum).Tracks (n + 1) T (q + v) := by
  obtain ⟨f, g, h', hf, hg, hh, hf', hg', hh', hnear⟩ := h.accounts
  have hsmall : |h' + v| ≤ 2 ^ (-44 : ℤ) :=
    abs_add_le_two_zpow (account_le hn hh') hv (by decide) (by decide)
  obtain ⟨h₁, hhx, hround⟩ := (rounded_add hh hx).exists_rounds hsmall (by decide)
  have herror : |h' + v - h₁| ≤ 2 ^ (-98 : ℤ) := hround.error_le hsmall (by decide) (by decide)
  refine ⟨h.total, h.total_le, f, g, h₁, hf, hg, hhx, account_keep hf', account_keep hg',
    account_step hh' ?_, near_step hnear ?_⟩
  · rw [abs_le] at herror hv ⊢
    norm_num at herror hv ⊢
    constructor <;> linarith
  · rwa [show T + (f + g + h₁) - (T + v + (f + g + h')) = -(h' + v - h₁) by ring, abs_neg]

/-- The total alone is next to the sum, if not as near. -/
theorem near (h : s.Tracks n T q) (hn : n ≤ 16) : |T - (1 + q)| ≤ 2 ^ (-43 : ℤ) := by
  obtain ⟨f, g, h', -, -, -, hf, hg, hh, hnear⟩ := h.accounts
  have hf := account_le hn hf
  have hg := account_le hn hg
  have hh := account_le hn hh
  have hcast : (n : ℚ) ≤ 16 := by exact_mod_cast hn
  rw [abs_le] at hf hg hh hnear ⊢
  norm_num at hf hg hh hnear ⊢
  constructor <;> linarith

/-- The total without the one it started with is a double. -/
theorem representable_sub_one (h : s.Tracks n T q) (hT : 1 / 2 ≤ T) : Representable (T - 1) := by
  have hle := (abs_le.1 h.total_le).2
  norm_num at hle
  have hgrid {k : ℤ} (hk : -1 ≤ k ∧ k ≤ 52) (hlow : (2 : ℚ) ^ k ≤ T)
      (habs : |T - 1| ≤ 2 ^ (k + 1)) : Representable (T - 1) := by
    have hT : OnGrid (k - 52) T := h.total.representable.onGrid (hlow.trans (le_abs_self T))
    have hone : OnGrid (k - 52) 1 := zpow_zero (2 : ℚ) ▸ OnGrid.pow (by omega)
    refine (hT.sub hone).representable (by omega) ?_
    rwa [show k - 52 + 53 = k + 1 by ring]
  rcases le_or_gt 2 T with htwo | htwo
  · refine hgrid (k := 1) (by decide) (by norm_num; linarith) ?_
    rw [abs_of_nonneg (by linarith)]
    norm_num
    linarith
  · rcases le_or_gt 1 T with hone | hone
    · refine hgrid (k := 0) (by decide) (by norm_num; linarith) ?_
      rw [abs_of_nonneg (by linarith)]
      norm_num
      linarith
    · refine hgrid (k := -1) (by decide) (by norm_num; linarith) ?_
      rw [abs_of_nonpos (by linarith)]
      norm_num
      linarith

/-- The sum is rounded once when it is read off, but for an error of the accounts. -/
theorem value (h : s.Tracks n T q) (hn : n ≤ 16) (hT : 1 / 2 ≤ T) :
    ∃ q' V, HasValue s.value V ∧ Rounds q' V ∧ |q' - q| ≤ 2 ^ (-90 : ℤ) ∧ |q'| ≤ 2 ^ (3 : ℤ) := by
  obtain ⟨f, g, h', hf, hg, hh, hf', hg', hh', hnear⟩ := h.accounts
  have hf' := account_le hn hf'
  have hg' := account_le hn hg'
  have hh' := account_le hn hh'
  have hcast : (n : ℚ) ≤ 16 := by exact_mod_cast hn
  have hle := h.total_le
  have hdiff : HasValue (s.total - 1.0) (T - 1) := by
    refine (rounded_sub h.total .one).exact (h.representable_sub_one hT) (k := 3) ?_ (by decide)
    rw [abs_le] at hle ⊢
    norm_num at hle ⊢
    constructor <;> linarith
  have htwo : |f + g| ≤ 2 ^ (-44 : ℤ) := abs_add_le_two_zpow hf' hg' (by decide) (by decide)
  obtain ⟨c, hc, hround, hcle⟩ := (rounded_add hf hg).exists_rounds_le htwo (by decide)
  have herror : |f + g - c| ≤ 2 ^ (-98 : ℤ) := hround.error_le htwo (by decide) (by decide)
  have hthree : |c + h'| ≤ 2 ^ (-43 : ℤ) := abs_add_le_two_zpow hcle hh' (by decide) (by decide)
  obtain ⟨d, hd, hround', hdle⟩ := (rounded_add hc hh).exists_rounds_le hthree (by decide)
  have herror' : |c + h' - d| ≤ 2 ^ (-97 : ℤ) := hround'.error_le hthree (by decide) (by decide)
  have hsum : |T - 1 + d| ≤ 2 ^ (3 : ℤ) := by
    rw [abs_le] at hle hdle ⊢
    norm_num at hle hdle ⊢
    constructor <;> linarith
  obtain ⟨V, hV, hround''⟩ := (rounded_add hdiff hd).exists_rounds hsum (by decide)
  refine ⟨T - 1 + d, V, hV, hround'', ?_, hsum⟩
  rw [abs_le] at hnear herror herror' ⊢
  norm_num at hnear herror herror' ⊢
  constructor <;> linarith

end Tracks

end Sum

/-! ## Halves -/

variable {x : Float} {v : ℚ}

theorem hasValue_splitter : HasValue 134217729.0 134217729 := by
  have hparts : HasParts 134217729.0 .positive 4503599660924928 (-25) :=
    .of_ofFloat (by decide +kernel)
  refine hparts.hasValue.of_eq ?_
  norm_num [signed]

theorem splitter_le : |(134217729 : ℚ)| ≤ 2 ^ (28 : ℤ) := by
  norm_num

theorem hasValue_two : HasValue 2.0 2 := by
  have hparts : HasParts 2.0 .positive 4503599627370496 (-51) := .of_ofFloat (by decide +kernel)
  refine hparts.hasValue.of_eq ?_
  norm_num [signed]

/-- A double is split into halves, unless it is so small that their products are out of range. -/
theorem exists_split (hx : HasValue x v) (hlow : 2 ^ (-100 : ℤ) ≤ v) (hhigh : v < 2) :
    ∃ high low, HasValue (halves x).1 high ∧ HasValue (halves x).2 low ∧ Split v high low := by
  have hv0 : 0 < v := (two_zpow_pos _).trans_le hlow
  obtain ⟨j, hj, hj'⟩ := exists_binade hv0
  have hjlow : -102 < j := by
    have h : (2 : ℚ) ^ (-101 : ℤ) < 2 ^ (j + 1) :=
      (zpow_lt_zpow_right₀ one_lt_two (by decide)).trans_le (hlow.trans hj'.le)
    have h := (zpow_lt_zpow_iff_right₀ one_lt_two).1 h
    omega
  have hv1 : |v| ≤ 2 ^ (1 : ℤ) := by
    rw [abs_of_pos hv0, zpow_one]
    exact hhigh.le
  have hmul : |v * 134217729| ≤ 2 ^ (29 : ℤ) :=
    abs_mul_le_two_zpow hv1 splitter_le (by decide)
  obtain ⟨t, ht, htround, htle⟩ :=
    (rounded_mul hx hasValue_splitter).exists_rounds_le hmul (by decide)
  have hsub : |t - v| ≤ 2 ^ (30 : ℤ) := abs_sub_le_two_zpow htle hv1 (by decide) (by decide)
  obtain ⟨d, hd, hdround⟩ := (rounded_sub ht hx).exists_rounds hsub (by decide)
  obtain ⟨hgrid, hle, hclose⟩ := htround.upper_digits hdround hx.representable hj hj' (by omega)
  obtain ⟨hhigh', hlow', hsplit⟩ := Split.of_grid (add_sub_cancel (t - d) v) hx.representable hj
    (by omega) hgrid hle hclose
  have hlowle := hsplit.low_le hhigh
  rw [abs_le] at hlowle
  have hhighv : HasValue (halves x).1 (t - d) := by
    refine (rounded_sub ht hd).exact hhigh' (k := 2) ?_ (by decide)
    rw [abs_of_nonneg hsplit.nonneg]
    norm_num at hlowle ⊢
    linarith
  refine ⟨t - d, v - (t - d), hhighv, ?_, hsplit⟩
  refine (rounded_sub hx hhighv).exact hlow' (k := 1) ?_ (by decide)
  rw [abs_le]
  norm_num at hlowle ⊢
  constructor <;> linarith

/-- The halves of a small double are small. -/
theorem exists_halves_small (hx : HasValue x v) (hv : |v| ≤ 2 ^ (-100 : ℤ)) :
    ∃ high low, HasValue (halves x).1 high ∧ HasValue (halves x).2 low ∧
      |high| ≤ 2 ^ (-70 : ℤ) ∧ |low| ≤ 2 ^ (-69 : ℤ) := by
  have hmul : |v * 134217729| ≤ 2 ^ (-72 : ℤ) := abs_mul_le_two_zpow hv splitter_le (by decide)
  obtain ⟨t, ht, -, htle⟩ :=
    (rounded_mul hx hasValue_splitter).exists_rounds_le hmul (by decide)
  have hsub : |t - v| ≤ 2 ^ (-71 : ℤ) := abs_sub_le_two_zpow htle hv (by decide) (by decide)
  obtain ⟨d, hd, -, hdle⟩ := (rounded_sub ht hx).exists_rounds_le hsub (by decide)
  have hdiff : |t - d| ≤ 2 ^ (-70 : ℤ) := abs_sub_le_two_zpow htle hdle (by decide) (by decide)
  obtain ⟨high, hhigh, -, hhighle⟩ := (rounded_sub ht hd).exists_rounds_le hdiff (by decide)
  have hrest : |v - high| ≤ 2 ^ (-69 : ℤ) :=
    abs_sub_le_two_zpow hv hhighle (by decide) (by decide)
  obtain ⟨low, hlow, -, hlowle⟩ := (rounded_sub hx hhigh).exists_rounds_le hrest (by decide)
  exact ⟨high, low, hhigh, hlow, hhighle, hlowle⟩

/-- Three terms that are next to the square of `v` together, the first of them the largest. -/
structure SquareTerms (v P Q R : ℚ) : Prop where
  nonneg : 0 ≤ P
  first_le : P ≤ 1
  second_le : |Q| ≤ P / 8 ∨ |Q| ≤ 2 ^ (-56 : ℤ)
  third_le : |R| ≤ 2 ^ (-52 : ℤ)
  near : |P + Q + R - v * v| ≤ 2 ^ (-100 : ℤ)

/-- The terms of a small double's square are small themselves, be they rounded or not. -/
theorem exists_squareTerms_small (hx : HasValue x v) (hv : |v| ≤ 2 ^ (-100 : ℤ)) :
    ∃ P Q R, HasValue ((halves x).1 * (halves x).1) P ∧
      HasValue (2.0 * (halves x).1 * (halves x).2) Q ∧
      HasValue ((halves x).2 * (halves x).2) R ∧ SquareTerms v P Q R := by
  obtain ⟨high, low, hhigh, hlow, hhighle, hlowle⟩ := exists_halves_small hx hv
  have htwo : |(2 : ℚ)| ≤ 2 ^ (1 : ℤ) := by norm_num
  obtain ⟨P, hP, hPround, hPle⟩ :=
    (rounded_mul hhigh hhigh).exists_rounds_le (abs_mul_le_two_zpow hhighle hhighle le_rfl) (by decide)
  obtain ⟨D, hD, -, hDle⟩ :=
    (rounded_mul hasValue_two hhigh).exists_rounds_le (abs_mul_le_two_zpow htwo hhighle le_rfl) (by decide)
  obtain ⟨Q, hQ, -, hQle⟩ :=
    (rounded_mul hD hlow).exists_rounds_le (abs_mul_le_two_zpow hDle hlowle le_rfl) (by decide)
  obtain ⟨R, hR, -, hRle⟩ :=
    (rounded_mul hlow hlow).exists_rounds_le (abs_mul_le_two_zpow hlowle hlowle le_rfl) (by decide)
  have hsq : |v * v| ≤ 2 ^ (-200 : ℤ) := abs_mul_le_two_zpow hv hv (by decide)
  have hP0 := hPround.nonneg (mul_self_nonneg high)
  refine ⟨P, Q, R, hP, hQ, hR, hP0, ?_, .inr (hQle.trans (two_zpow_le (by decide))),
    hRle.trans (two_zpow_le (by decide)), ?_⟩
  · rw [abs_of_nonneg hP0] at hPle
    exact hPle.trans (zpow_le_one_of_nonpos₀ one_le_two (by decide))
  · rw [abs_le] at hPle hQle hRle hsq ⊢
    norm_num at hPle hQle hRle hsq ⊢
    constructor <;> linarith

theorem exists_squareTerms (hx : HasValue x v) (hv0 : 0 ≤ v) (hv1 : v < 1) :
    ∃ P Q R, HasValue ((halves x).1 * (halves x).1) P ∧
      HasValue (2.0 * (halves x).1 * (halves x).2) Q ∧
      HasValue ((halves x).2 * (halves x).2) R ∧ SquareTerms v P Q R := by
  rcases le_or_gt (2 ^ (-100 : ℤ)) v with hlarge | hsmall
  · obtain ⟨high, low, hhigh, hlow, hsplit⟩ := exists_split hx hlarge (by linarith)
    have hle := hsplit.high_le hv1
    have hnonneg := hsplit.nonneg
    have hP0 : 0 ≤ high * high := mul_nonneg hnonneg hnonneg
    have hP : high * high ≤ 1 := mul_le_one₀ hle hnonneg hle
    have hlowsq := hsplit.low_sq_le (by linarith)
    have hdouble : HasValue (2.0 * (halves x).1) (2 * high) := by
      refine (rounded_mul hasValue_two hhigh).exact hhigh.representable.double (k := 1) ?_
        (by decide)
      rw [abs_of_nonneg (by positivity), zpow_one]
      linarith
    refine ⟨high * high, 2 * high * low, low * low, ?_, ?_, ?_, hP0, hP, .inl hsplit.cross_le,
      hlowsq, ?_⟩
    · refine (rounded_mul hhigh hhigh).exact hsplit.high_sq (k := 0) ?_ (by decide)
      rwa [abs_of_nonneg hP0]
    · refine (rounded_mul hdouble hlow).exact hsplit.cross (k := 0) ?_ (by decide)
      refine hsplit.cross_le.trans ?_
      rw [zpow_zero]
      linarith
    · exact (rounded_mul hlow hlow).exact hsplit.low_sq hlowsq (by decide)
    · rw [← hsplit.sum, show high * high + 2 * high * low + low * low -
        (high + low) * (high + low) = 0 by ring, abs_zero]
      exact (two_zpow_pos _).le
  · exact exists_squareTerms_small hx (by rw [abs_of_nonneg hv0]; exact hsmall.le)

/-- The three terms of a square that is taken away. -/
theorem exists_negatedTerms (hx : HasValue x v) (hlow : 1 / 4 ≤ v) (hhigh : v < 2) :
    ∃ P Q R, HasValue (-(halves x).1 * (halves x).1) (-P) ∧
      HasValue (-2.0 * (halves x).1 * (halves x).2) (-Q) ∧
      HasValue (-(halves x).2 * (halves x).2) (-R) ∧ v * v = P + Q + R ∧ 0 ≤ P ∧
      |Q| ≤ 2 ^ (-23 : ℤ) ∧ |R| ≤ 2 ^ (-52 : ℤ) := by
  have hsmall : (2 : ℚ) ^ (-100 : ℤ) ≤ v := le_trans (by norm_num) hlow
  obtain ⟨high, low, hhighv, hlowv, hsplit⟩ := exists_split hx hsmall hhigh
  have hlowle := hsplit.low_le hhigh
  have hnonneg := hsplit.nonneg
  have hlowsq := hsplit.low_sq_le hhigh
  have hhighle : high ≤ 5 / 2 := by
    have hsum := hsplit.sum
    rw [abs_le] at hlowle
    norm_num at hlowle
    linarith
  have hcross : |2 * high * low| ≤ 2 ^ (-23 : ℤ) := by
    rw [abs_mul, abs_mul, abs_two, abs_of_nonneg hnonneg]
    have hmul := mul_le_mul hhighle hlowle (abs_nonneg _) (by norm_num)
    norm_num at hmul ⊢
    linarith
  have hminustwo : HasValue (-2.0 * (halves x).1) (-(2 * high)) := by
    refine ((rounded_mul hasValue_two.neg hhighv).of_eq (neg_mul 2 high)).exact
      hhighv.representable.double.neg (k := 3) ?_ (by decide)
    rw [abs_neg, abs_of_nonneg (by positivity)]
    norm_num
    linarith
  refine ⟨high * high, 2 * high * low, low * low, ?_, ?_, ?_, ?_, mul_nonneg hnonneg hnonneg,
    hcross, hlowsq⟩
  · refine ((rounded_mul hhighv.neg hhighv).of_eq (neg_mul high high)).exact hsplit.high_sq.neg
      (k := 3) ?_ (by decide)
    have hsqle : high * high ≤ 5 / 2 * (5 / 2) :=
      mul_le_mul hhighle hhighle hnonneg (by norm_num)
    rw [abs_neg, abs_of_nonneg (mul_nonneg hnonneg hnonneg)]
    norm_num
    linarith
  · refine ((rounded_mul hminustwo hlowv).of_eq (neg_mul _ low)).exact hsplit.cross.neg ?_
      (by decide : (-23 : ℤ) ≤ 1023)
    rwa [abs_neg]
  · refine ((rounded_mul hlowv.neg hlowv).of_eq (neg_mul low low)).exact hsplit.low_sq.neg ?_
      (by decide : (-52 : ℤ) ≤ 1023)
    rwa [abs_neg]
  · rw [← hsplit.sum]
    ring

/-! ## Squares -/

namespace Sum.Tracks

variable {s : Sum} {n : ℕ} {T q : ℚ}

/-- The second term of a square does not take the total below one again. -/
theorem one_le_total {P Q T₁ T₂ : ℚ} (h₁ : Rounds (T + P) T₁) (h₂ : Rounds (T₁ + Q) T₂)
    (hT : 1 ≤ T) (hP : 0 ≤ P) (hQ : |Q| ≤ P / 8 ∨ |Q| ≤ 2 ^ (-56 : ℤ))
    (hsum : |T + P| ≤ 2 ^ (2 : ℤ)) : 1 ≤ T₂ := by
  have hone : Representable 1 := HasValue.one.representable
  have hT₁ : 1 ≤ T₁ := h₁.ge hone (by linarith)
  have hQ' := neg_abs_le Q
  have hnext : 1 - 2 ^ (-55 : ℤ) ≤ T₁ + Q → 1 ≤ T₂ := fun hlow => by
    refine h₂.ge_of_lt (k := 0) hone (zpow_zero (2 : ℚ)).le ?_
    norm_num at hlow ⊢
    linarith
  rcases hQ with hQ | hQ
  · rcases le_or_gt (2 ^ (-52 : ℤ)) P with hlarge | hsmall
    · have hstep : 1 + 2 ^ (-52 : ℤ) ≤ T₁ := by
        refine h₁.ge ?_ (by linarith)
        have hgrid : OnGrid (-52) (1 + 2 ^ (-52 : ℤ) : ℚ) :=
          .add (zpow_zero (2 : ℚ) ▸ .pow (by decide)) (.pow le_rfl)
        exact hgrid.representable (by decide) (by norm_num)
      have herror : |T + P - T₁| ≤ 2 ^ (-52 : ℤ) := h₁.error_le hsum (by decide) (by decide)
      rw [abs_le] at herror
      exact h₂.ge hone (by linarith)
    · refine hnext ?_
      norm_num at hsmall ⊢
      linarith
  · refine hnext ?_
    norm_num at hQ ⊢
    linarith

theorem addSquare (h : s.Tracks n T q) (hn : n ≤ 13) (hT : 1 ≤ T) (hq : q ≤ 3 / 2)
    (hx : HasValue x v) (hv0 : 0 ≤ v) (hv1 : v < 1) :
    ∃ T' y, (s.addSquare x).Tracks (n + 3) T' (q + y) ∧ 1 ≤ T' ∧
      |y - v * v| ≤ 2 ^ (-100 : ℤ) := by
  obtain ⟨P, Q, R, hP, hQ, hR, hterms⟩ := exists_squareTerms hx hv0 hv1
  have hP0 := hterms.nonneg
  have hP1 := hterms.first_le
  have hnear := h.near (by omega)
  have hsum : |T + P| ≤ 2 ^ (2 : ℤ) := by
    rw [abs_le] at hnear ⊢
    norm_num at hnear ⊢
    constructor <;> linarith
  obtain ⟨T₁, hround₁, h₁⟩ := h.addFirst (by omega) hP
    (by rw [abs_of_nonneg hP0, abs_of_nonneg (by linarith)]; linarith) hsum
  have hT₁ : 1 ≤ T₁ := hround₁.ge HasValue.one.representable (by linarith)
  have hQle : |Q| ≤ 1 / 8 := by
    rcases hterms.second_le with hQ | hQ
    · linarith
    · exact hQ.trans (by norm_num)
  have hsum₁ : |T₁ + Q| ≤ 2 ^ (2 : ℤ) := by
    have hnear₁ := h₁.near (by omega)
    rw [abs_le] at hnear₁ hQle ⊢
    norm_num at hnear₁ hQle ⊢
    constructor <;> linarith
  obtain ⟨T₂, hround₂, h₂⟩ := h₁.addSecond (by omega) hQ
    (by rw [abs_of_nonneg (by linarith : 0 ≤ T₁)]; linarith) hsum₁
  have h₃ := h₂.third (by omega) hR hterms.third_le
  refine ⟨T₂, P + Q + R, ?_, one_le_total hround₁ hround₂ hT hP0 hterms.second_le hsum,
    hterms.near⟩
  rw [← add_assoc, ← add_assoc]
  exact h₃

theorem subSquare (h : s.Tracks n T q) (hn : n ≤ 13) (hx : HasValue x v) (hlow : 1 / 4 ≤ v)
    (hhigh : v < 2) (hclose : |q - v * v| ≤ 2 ^ (-40 : ℤ)) :
    ∃ T', (s.subSquare x).Tracks (n + 3) T' (q - v * v) ∧ 1 / 2 ≤ T' := by
  obtain ⟨P, Q, R, hfirst, hsecond, hthird, hsum, hP, hQ, hR⟩ := exists_negatedTerms hx hlow hhigh
  have hsq := mul_self_nonneg v
  have hsq4 : v * v ≤ 2 * 2 := mul_self_le_mul_self (by linarith) hhigh.le
  have hnear := h.near (by omega)
  have hTle := (abs_le.1 h.total_le).2
  rw [abs_le] at hnear hclose hQ hR
  norm_num at hnear hclose hQ hR hTle
  -- none of the terms is larger than the total
  have hT : 0 ≤ T := by linarith
  obtain ⟨T₁, -, h₁⟩ := h.addFirst (by omega) hfirst
    (by rw [abs_neg, abs_of_nonneg hP, abs_of_nonneg hT]; linarith)
    (by rw [abs_le]; norm_num; constructor <;> linarith)
  have hnear₁ := h₁.near (by omega)
  rw [abs_le] at hnear₁
  norm_num at hnear₁
  have hT₁ : 1 / 2 ≤ T₁ := by linarith
  obtain ⟨T₂, -, h₂⟩ := h₁.addSecond (by omega) hsecond
    (by rw [abs_neg, abs_of_nonneg (by linarith : 0 ≤ T₁), abs_le]; constructor <;> linarith)
    (by rw [abs_le]; norm_num; constructor <;> linarith)
  have hnear₂ := h₂.near (by omega)
  rw [abs_le] at hnear₂
  norm_num at hnear₂
  obtain ⟨T₃, -, h₃⟩ := h₂.addThird (by omega) hthird
    (by rw [abs_neg, abs_of_nonneg (by linarith : 0 ≤ T₂), abs_le]; constructor <;> linarith)
    (by rw [abs_le]; norm_num; constructor <;> linarith)
  have hnear₃ := h₃.near (by omega)
  rw [abs_le] at hnear₃
  norm_num at hnear₃
  refine ⟨T₃, ?_, by linarith⟩
  have heq : q + -P + -Q + -R = q - v * v := by
    rw [hsum]
    ring
  rw [← heq]
  exact h₃

end Sum.Tracks

end ComplexExpr
