import ComplexExpr.Decimal.Basic
import ComplexExpr.Proofs.Binary.Parts

/-!
# Doubles of decimals

A quotient and a product of two doubles are cut off where rounding can tell on
which side the exact value lies (`div_eq`, `mul_eq`), so a decimal is read as
the double that it rounds to: by the quotient or the product of two doubles
that are exact if it is short, and by that of whole numbers otherwise
(`hasParts_ofScientific`). Main statement:

* `hasParts_magnitude`: `c · 10 ^ k` is read as the double that it rounds to.
-/

namespace ComplexExpr.Binary

open Float.Model (Format UnpackedFloat totalExponent)
open Float.Model.UnpackedFloat (Accuracy ExtendedMantissa accuracyOfFraction divCore
  roundWithAccuracy)

variable {m m₁ m₂ : ℕ} {e e₁ e₂ : ℤ} {s t : UnpackedFloat.Sign}

/-! ## Products and quotients -/

/-- With 53 bits or more, no bit of a double is cut off. -/
theorem le_targetExponent {n : ℕ} {k : ℤ} (h : k ≤ -1074 ∨ 2 ^ 52 ≤ n) :
    k ≤ Format.binary64.targetExponent (totalExponent n k) := by
  rw [targetExponent_eq, totalExponent]
  rcases h with h | h
  · omega
  · have hlog := (Nat.le_log2 (by omega)).2 h
    omega

/-- What a remainder says of a quotient. -/
theorem located_fraction {q r d : ℕ} (hr : r < d) :
    Located (.ofMantissaAndAccuracy q (accuracyOfFraction r d)) (q + r / d) := by
  have hd : (0 : ℚ) < d := by exact_mod_cast Nat.zero_lt_of_lt hr
  have hrd : (r : ℚ) / d < 1 := by
    rw [div_lt_one₀ hd]
    exact_mod_cast hr
  by_cases h0 : r = 0
  · rw [accuracyOfFraction, if_pos h0, h0]
    simp [Located, ExtendedMantissa.ofMantissaAndAccuracy]
  · have hpos : (0 : ℚ) < r / d := div_pos (by exact_mod_cast Nat.pos_of_ne_zero h0) hd
    rw [accuracyOfFraction, if_neg h0]
    rcases lt_trichotomy (2 * r) d with h | h | h
    · have hlt : (r : ℚ) / d < 1 / 2 := by
        rw [div_lt_div_iff₀ hd two_pos]
        exact_mod_cast (by omega : r * 2 < 1 * d)
      rw [Nat.compare_eq_lt.2 h]
      show (q : ℚ) < q + r / d ∧ q + r / d < (q : ℚ) + 1 / 2
      exact ⟨by linarith, by linarith⟩
    · have heq : (r : ℚ) / d = 1 / 2 := by
        rw [div_eq_div_iff hd.ne' two_ne_zero]
        exact_mod_cast (by omega : r * 2 = 1 * d)
      rw [Nat.compare_eq_eq.2 h]
      show (q : ℚ) + r / d = q + 1 / 2
      rw [heq]
    · have hgt : 1 / 2 < (r : ℚ) / d := by
        rw [div_lt_div_iff₀ two_pos hd]
        exact_mod_cast (by omega : 1 * d < r * 2)
      rw [Nat.compare_eq_gt.2 h]
      show (q : ℚ) + 1 / 2 < q + r / d ∧ q + r / d < (q : ℚ) + 1
      exact ⟨by linarith, by linarith⟩

/-- A quotient is cut off below the last bit of a double. -/
theorem located_divCore (h₁ : 0 < m₁) (h₂ : 0 < m₂) (e₁ e₂ : ℤ) :
    ∃ n k acc z, divCore .binary64 m₁ e₁ m₂ e₂ = (n, k, acc) ∧
      Located (.ofMantissaAndAccuracy n acc) z ∧
      k ≤ Format.binary64.targetExponent (totalExponent n k) ∧
      z * 2 ^ k = m₁ * 2 ^ e₁ / (m₂ * 2 ^ e₂) := by
  set k := min (e₁ - e₂)
    (Format.binary64.targetExponent (totalExponent m₁ e₁ - totalExponent m₂ e₂)) with hk
  set n := (e₁ - e₂ - k).toNat with hn
  have hexp : k + n = e₁ - e₂ := by omega
  have h₂' : (0 : ℚ) < m₂ := by exact_mod_cast h₂
  -- the quotient has 53 bits, unless its exponent is the least
  have hbits : k ≤ -1074 ∨ 2 ^ 52 ≤ (m₁ <<< n) / m₂ := by
    by_cases hleast : k ≤ -1074
    · exact .inl hleast
    · right
      have hlog : m₂.log2 + 53 ≤ m₁.log2 + n := by
        rw [targetExponent_eq, totalExponent, totalExponent] at hk
        omega
      rw [Nat.shiftLeft_eq, Nat.le_div_iff_mul_le h₂]
      calc 2 ^ 52 * m₂ ≤ 2 ^ 52 * 2 ^ (m₂.log2 + 1) := Nat.mul_le_mul_left _ Nat.lt_log2_self.le
        _ = 2 ^ (m₂.log2 + 53) := by rw [← pow_add]; congr 1; omega
        _ ≤ 2 ^ (m₁.log2 + n) := Nat.pow_le_pow_right (by decide) hlog
        _ = 2 ^ m₁.log2 * 2 ^ n := pow_add ..
        _ ≤ m₁ * 2 ^ n := Nat.mul_le_mul_right _ (Nat.log2_self_le h₁.ne')
  refine ⟨(m₁ <<< n) / m₂, k, _, _, rfl, located_fraction (Nat.mod_lt _ h₂),
    le_targetExponent hbits, ?_⟩
  have hdiv : (((m₁ <<< n) / m₂ : ℕ) + ((m₁ <<< n) % m₂ : ℕ) / m₂ : ℚ) = m₁ * 2 ^ n / m₂ := by
    rw [eq_div_iff h₂'.ne', add_mul, div_mul_cancel₀ _ h₂'.ne']
    exact_mod_cast (by rw [Nat.div_add_mod', Nat.shiftLeft_eq] :
      m₁ <<< n / m₂ * m₂ + m₁ <<< n % m₂ = m₁ * 2 ^ n)
  have hpow : (2 : ℚ) ^ n * 2 ^ k = 2 ^ e₁ / 2 ^ e₂ := by
    rw [two_pow_mul_zpow, add_comm, hexp, zpow_sub₀ two_ne_zero]
  rw [hdiv, div_mul_eq_mul_div, mul_assoc, hpow, mul_div_assoc', div_div, mul_comm (2 ^ e₂)]

theorem div_finite_eq {n : ℕ} {k : ℤ} {acc : Accuracy} {h₁ : 0 < m₁} {h₂ : 0 < m₂}
    (hcore : divCore .binary64 m₁ e₁ m₂ e₂ = (n, k, acc)) :
    UnpackedFloat.div .binary64 (.finite s m₁ e₁ h₁) (.finite t m₂ e₂ h₂) =
      roundWithAccuracy .binary64 (s / t) n k acc := by
  show (match divCore .binary64 m₁ e₁ m₂ e₂ with
    | (n, k, acc) => roundWithAccuracy .binary64 (s / t) n k acc) = _
  rw [hcore]

/-- A quotient is rounded to the double that it rounds to. -/
theorem div_eq (hc : Canonical m e) (h₁ : 0 < m₁) (h₂ : 0 < m₂)
    (hx : RoundsTo (m₁ * 2 ^ e₁ / (m₂ * 2 ^ e₂)) m e) :
    UnpackedFloat.div .binary64 (.finite s m₁ e₁ h₁) (.finite t m₂ e₂ h₂) =
      .finite (s / t) m e hc.pos := by
  obtain ⟨n, k, acc, z, hcore, hz, hk, hvalue⟩ := located_divCore h₁ h₂ e₁ e₂
  rw [← hvalue] at hx
  rw [div_finite_eq hcore]
  exact roundWithAccuracy_eq hc (s / t) hz hk hx

theorem mul_eq (hc : Canonical m e) (h₁ : 0 < m₁) (h₂ : 0 < m₂) (hbits : 2 ^ 52 ≤ m₁ * m₂)
    (hx : RoundsTo (m₁ * 2 ^ e₁ * (m₂ * 2 ^ e₂)) m e) :
    UnpackedFloat.mul .binary64 (.finite s m₁ e₁ h₁) (.finite t m₂ e₂ h₂) =
      .finite (s * t) m e hc.pos := by
  refine roundWithAccuracy_eq hc (s * t) (located_exact _) (le_targetExponent (.inr hbits)) ?_
  rw [zpow_add₀ two_ne_zero]
  push_cast
  rwa [mul_mul_mul_comm]

/-! ## The range of doubles -/

variable {x : ℚ} {c : ℕ} {k : ℤ}

theorem RoundsTo.lt (hx : RoundsTo x m e) (hc : Canonical m e) : x < 2 ^ (1024 : ℤ) := by
  have hm : (m : ℚ) + 1 ≤ 2 ^ 53 := by exact_mod_cast hc.lt
  have hup := hx.upper
  have hunits : x / 2 ^ e < 2 ^ 53 := by linarith
  calc x < 2 ^ 53 * 2 ^ e := (div_lt_iff₀ (two_zpow_pos e)).1 hunits
    _ ≤ 2 ^ 53 * 2 ^ (971 : ℤ) := by
        have hle := zpow_le_zpow_right₀ (one_le_two (α := ℚ)) hc.most
        linarith
    _ = 2 ^ (1024 : ℤ) := two_pow_mul_zpow 53 971

theorem RoundsTo.ge (hx : RoundsTo x m e) (hc : Canonical m e) : 2 ^ (-1075 : ℤ) ≤ x := by
  have hm : (1 : ℚ) ≤ m := by exact_mod_cast hc.pos
  have hlow := hx.lower
  have hhalf := halfBelow_le m e
  have hunits : 2⁻¹ ≤ x / 2 ^ e := by linarith
  calc (2 : ℚ) ^ (-1075 : ℤ) ≤ 2 ^ (e - 1) :=
        zpow_le_zpow_right₀ one_le_two (by have := hc.least; omega)
    _ = 2⁻¹ * 2 ^ e := by rw [zpow_sub_one₀ two_ne_zero, mul_comm]
    _ ≤ x := (le_div_iff₀ (two_zpow_pos e)).1 hunits

/-- The power of ten in a decimal that rounds to a double is not out of proportion. -/
theorem RoundsTo.exponent_bounds (hx : RoundsTo (c * 10 ^ k) m e) (hc : Canonical m e) :
    0 < c ∧ k ≤ 400 ∧ -(400 + c.log2 : ℤ) ≤ k := by
  have hk := ten_zpow_pos k
  have hpos : 0 < c := by
    have hprod := hx.pos hc.pos
    exact_mod_cast (pos_iff_pos_of_mul_pos hprod).2 hk
  have hlt := hx.lt hc
  have hge := hx.ge hc
  refine ⟨hpos, ?_, ?_⟩
  · have hone : (1 : ℚ) ≤ c := by exact_mod_cast hpos
    have hpow : (10 : ℚ) ^ k < 10 ^ (401 : ℤ) := by
      calc (10 : ℚ) ^ k ≤ c * 10 ^ k := le_mul_of_one_le_left hk.le hone
        _ < 2 ^ (1024 : ℤ) := hlt
        _ ≤ 10 ^ (401 : ℤ) := two_zpow_le_ten_zpow (by decide) (by decide)
    have hexp := (zpow_lt_zpow_iff_right₀ (by norm_num)).1 hpow
    omega
  · have hcoeff : (c : ℚ) < 10 ^ (c.log2 + 1) := by
      have htwo : c < 2 ^ (c.log2 + 1) := Nat.lt_log2_self
      exact_mod_cast htwo.trans_le (Nat.pow_le_pow_left (by decide) _)
    have hpow : (10 : ℚ) ^ (-400 : ℤ) < 10 ^ ((c.log2 + 1 : ℕ) + k : ℤ) := by
      calc (10 : ℚ) ^ (-400 : ℤ) ≤ 2 ^ (-1075 : ℤ) :=
            ten_zpow_le_two_zpow_of_neg (by decide) (by decide)
        _ ≤ c * 10 ^ k := hge
        _ < 10 ^ (c.log2 + 1) * 10 ^ k := mul_lt_mul_of_pos_right hcoeff hk
        _ = 10 ^ ((c.log2 + 1 : ℕ) + k : ℤ) := by rw [zpow_add₀ (by norm_num), zpow_natCast]
    have hexp := (zpow_lt_zpow_iff_right₀ (by norm_num)).1 hpow
    omega

/-! ## Whole numbers and short powers of ten -/

theorem totalExponent_shiftLeft (h : 0 < m) (n : ℕ) (e : ℤ) :
    totalExponent (m <<< n) (e - n) = totalExponent m e := by
  have hlog : (m <<< n).log2 = m.log2 + n := by
    rw [Nat.shiftLeft_eq, Nat.log2_eq_iff (by positivity)]
    refine ⟨?_, ?_⟩
    · rw [pow_add]
      exact Nat.mul_le_mul_right _ (Nat.log2_self_le h.ne')
    · rw [show m.log2 + n + 1 = m.log2 + 1 + n by omega, pow_add]
      exact Nat.mul_lt_mul_of_pos_right Nat.lt_log2_self (by positivity)
  rw [totalExponent, totalExponent, hlog]
  omega

/-- A whole mantissa is first made so long that no bit of a double is missing. -/
theorem exists_round_eq (h₁ : 0 < m₁) (e₁ : ℤ) :
    ∃ n k, k ≤ Format.binary64.targetExponent (totalExponent n k) ∧
      (n * 2 ^ k : ℚ) = m₁ * 2 ^ e₁ ∧
      ∀ s, UnpackedFloat.round .binary64 s m₁ e₁ = roundWithAccuracy .binary64 s n k .exact := by
  set i := (e₁ - Format.binary64.targetExponent (totalExponent m₁ e₁)).toNat with hi
  refine ⟨m₁ <<< i, e₁ - i, ?_, ?_, fun s => rfl⟩
  · rw [totalExponent_shiftLeft h₁]
    omega
  · rw [Nat.shiftLeft_eq, zpow_sub₀ two_ne_zero, zpow_natCast]
    push_cast
    rw [mul_assoc, mul_div_cancel₀ _ (by positivity)]

/-- A whole mantissa and exponent are rounded to the double that they round to. -/
theorem round_eq (hc : Canonical m e) (h₁ : 0 < m₁) (hx : RoundsTo (m₁ * 2 ^ e₁) m e) :
    UnpackedFloat.round .binary64 s m₁ e₁ = .finite s m e hc.pos := by
  obtain ⟨n, k, hk, hvalue, heq⟩ := exists_round_eq h₁ e₁
  rw [heq s]
  exact roundWithAccuracy_eq hc s (located_exact n) hk (hvalue ▸ hx)

/-- A whole number below `2 ^ 53` is a double. -/
theorem hasParts_natCast (hpos : 0 < c) (hlt : c < 2 ^ 53) :
    ∃ m e, HasParts c.toUInt64.toFloat .positive m e ∧ 2 ^ 52 ≤ m ∧ (m * 2 ^ e : ℚ) = c := by
  have hlog : c.log2 < 53 := (Nat.log2_lt hpos.ne').2 hlt
  have hlow : 2 ^ c.log2 ≤ c := Nat.log2_self_le hpos.ne'
  have hhigh : c < 2 ^ (c.log2 + 1) := Nat.lt_log2_self
  set n := 52 - c.log2 with hn
  have hm : 2 ^ 52 ≤ c * 2 ^ n := by
    calc 2 ^ 52 = 2 ^ c.log2 * 2 ^ n := by rw [← pow_add]; congr 1; omega
      _ ≤ c * 2 ^ n := Nat.mul_le_mul_right _ hlow
  have hm' : c * 2 ^ n < 2 ^ 53 := by
    calc c * 2 ^ n < 2 ^ (c.log2 + 1) * 2 ^ n := Nat.mul_lt_mul_of_pos_right hhigh (by positivity)
      _ = 2 ^ 53 := by rw [← pow_add]; congr 1; omega
  have hc : Canonical (c * 2 ^ n) (-n) := ⟨by omega, hm', by omega, by omega, .inr hm⟩
  have hvalue : ((c * 2 ^ n : ℕ) * 2 ^ (-n : ℤ) : ℚ) = c := by
    push_cast
    rw [zpow_neg, zpow_natCast, mul_assoc, mul_inv_cancel₀ (by positivity), mul_one]
  refine ⟨c * 2 ^ n, -n, .nonzero hc ?_, hm, hvalue⟩
  have hround : UnpackedFloat.round .binary64 .positive c 0 =
      .finite .positive (c * 2 ^ n) (-n) hc.pos := by
    refine round_eq hc hpos ?_
    rw [zpow_zero, mul_one, ← hvalue]
    exact roundsTo_self ..
  have hnat : UnpackedFloat.ofNat .binary64 c.toUInt64.toNat =
      UnpackedFloat.round .binary64 .positive c 0 := by
    have hsize : c.toUInt64.toNat = c := UInt64.toNat_ofNat_of_lt' (hlt.trans (by decide))
    have hcmp : compare (c : ℤ) 0 = .gt := Int.compare_eq_gt.2 (by omega)
    rw [hsize, UnpackedFloat.ofNat, UnpackedFloat.ofInt, UnpackedFloat.normalize, hcmp]
    rfl
  show (Float.Model.pack (UnpackedFloat.ofNat .binary64 c.toUInt64.toNat)).unpack = _
  rw [hnat, hround]
  exact unpack_pack hc .positive

/-- The double is `10 ^ n`, with 53 bits. -/
def isPowerOfTen (x : Float) (n : ℕ) : Bool :=
  match x.toModel.unpack with
  | .finite .positive m e _ => 2 ^ 52 ≤ m && m * 2 ^ e.toNat == 10 ^ n * 2 ^ (-e).toNat
  | _ => false

theorem isPowerOfTen_table :
    ∀ n (h : n < 23), isPowerOfTen (getElem Float.exactlyRepresentablePowersOfTen n h) n := by
  decide +kernel

theorem hasParts_powerOfTen {n : ℕ} (h : n < 23) :
    ∃ m e, HasParts (getElem Float.exactlyRepresentablePowersOfTen n h) .positive m e ∧ 2 ^ 52 ≤ m ∧
      (m * 2 ^ e : ℚ) = 10 ^ n := by
  have htable := isPowerOfTen_table n h
  unfold isPowerOfTen at htable
  split at htable
  next m e hm hx =>
    rw [Bool.and_eq_true, decide_eq_true_eq, beq_iff_eq] at htable
    refine ⟨m, e, .nonzero (canonical_of_unpack hx) hx, htable.1, ?_⟩
    rw [zpow_eq_div two_ne_zero, mul_div_assoc', div_eq_iff (by positivity)]
    exact_mod_cast htable.2
  next => cases htable

/-! ## Decimals -/

theorem ten_zpow_of_neg (h : k < 0) : (10 : ℚ) ^ k = (10 ^ k.natAbs)⁻¹ := by
  rw [← zpow_natCast, ← zpow_neg, show -(k.natAbs : ℤ) = k by omega]

theorem ten_zpow_of_nonneg (h : ¬k < 0) : (10 : ℚ) ^ k = 10 ^ k.natAbs := by
  rw [← zpow_natCast, show (k.natAbs : ℤ) = k by omega]

/-- Of doubles alone, a short decimal is computed in one step. -/
theorem hasParts_short {x p : Float} (hx : HasParts x s m₁ e₁) (hp : HasParts p s m₂ e₂)
    (hm₁ : 2 ^ 52 ≤ m₁) (hm₂ : 2 ^ 52 ≤ m₂) (hc : Canonical m e) (neg : Bool)
    (h : RoundsTo (if neg then m₁ * 2 ^ e₁ / (m₂ * 2 ^ e₂) else m₁ * 2 ^ e₁ * (m₂ * 2 ^ e₂)) m e) :
    HasParts (if neg then x / p else x * p) .positive m e := by
  cases hx with
  | zero hx => omega
  | nonzero hc₁ hx =>
    cases hp with
    | zero hp => omega
    | nonzero hc₂ hp =>
      cases neg with
      | true =>
        show HasParts (.ofModel (.pack (.div .binary64 x.toModel.unpack p.toModel.unpack))) _ m e
        rw [hx, hp, div_eq hc hc₁.pos hc₂.pos h]
        cases s <;> exact .of_finite hc .positive
      | false =>
        show HasParts (.ofModel (.pack (.mul .binary64 x.toModel.unpack p.toModel.unpack))) _ m e
        rw [hx, hp, mul_eq hc hc₁.pos hc₂.pos (hm₁.trans (Nat.le_mul_of_pos_right _ hc₂.pos)) h]
        cases s <;> exact .of_finite hc .positive

/-- Of whole numbers, a decimal is computed as their quotient or product. -/
theorem ofScientific_eq (hc : Canonical m e) (hx : RoundsTo (c * 10 ^ k) m e) :
    UnpackedFloat.ofScientific .binary64 c k = .finite .positive m e hc.pos := by
  obtain ⟨hpos, hmost, hleast⟩ := hx.exponent_bounds hc
  unfold UnpackedFloat.ofScientific
  rw [dif_neg hpos.ne', if_neg (by show ¬k > 2048; omega),
    if_neg (by show ¬k < -(2048 + c.log2 : ℤ); omega)]
  by_cases h : 0 ≤ k
  · rw [if_pos h]
    refine mul_eq (s := .positive) (t := .positive) hc _ _ ?_ ?_
    · show 2 ^ 52 ≤ c <<< 53 * 10 ^ k.toNat
      rw [Nat.shiftLeft_eq]
      have hten : 0 < 10 ^ k.toNat := by positivity
      calc 2 ^ 52 ≤ c * 2 ^ 53 := by omega
        _ ≤ c * 2 ^ 53 * 10 ^ k.toNat := Nat.le_mul_of_pos_right _ hten
    · show RoundsTo ((c <<< 53 : ℕ) * 2 ^ (-53 : ℤ) * ((10 ^ k.toNat : ℕ) * 2 ^ (0 : ℤ))) m e
      have hshift : ((c <<< 53 : ℕ) : ℚ) * 2 ^ (-53 : ℤ) = c := by
        rw [Nat.shiftLeft_eq, zpow_neg]
        push_cast
        exact mul_inv_cancel_right₀ (by norm_num) _
      rw [hshift, zpow_zero, mul_one]
      push_cast
      rwa [← zpow_natCast, Int.toNat_of_nonneg h]
  · rw [if_neg h]
    refine div_eq (s := .positive) (t := .positive) hc _ _ ?_
    rw [zpow_zero, mul_one, mul_one]
    push_cast
    rwa [← zpow_natCast, Int.toNat_of_nonneg (by omega), div_eq_mul_inv, ← zpow_neg, neg_neg]

/-- A decimal is read as the double that it rounds to. -/
theorem hasParts_ofScientific (hc : Canonical m e) (hx : RoundsTo (c * 10 ^ k) m e) :
    HasParts (Float.ofScientific c (k < 0) k.natAbs) .positive m e := by
  have hpos := (hx.exponent_bounds hc).1
  unfold Float.ofScientific
  split
  next h =>
    -- both the coefficient and the power of ten are doubles
    obtain ⟨m₁, e₁, h₁, hm₁, hv₁⟩ := hasParts_natCast hpos h.1
    obtain ⟨m₂, e₂, h₂, hm₂, hv₂⟩ := hasParts_powerOfTen (Nat.lt_succ_of_le h.2)
    refine hasParts_short h₁ h₂ hm₁ hm₂ hc (k < 0) ?_
    rw [hv₁, hv₂]
    by_cases hk : k < 0
    · rw [if_pos (decide_eq_true hk), div_eq_mul_inv, ← ten_zpow_of_neg hk]
      exact hx
    · rw [if_neg (by simpa using hk), ← ten_zpow_of_nonneg hk]
      exact hx
  next h =>
    have hexp : (if decide (k < 0) = true then Int.negOfNat k.natAbs else Int.ofNat k.natAbs) = k := by
      by_cases hk : k < 0
      · rw [if_pos (decide_eq_true hk), Int.negOfNat_eq]
        show -(k.natAbs : ℤ) = k
        omega
      · rw [if_neg (by simpa using hk)]
        show (k.natAbs : ℤ) = k
        omega
    dsimp only
    rw [hexp]
    show HasParts (.ofModel (.pack (.ofScientific .binary64 c k))) _ m e
    rw [ofScientific_eq hc hx]
    exact .of_finite hc .positive

/-- A decimal, whatever its power of ten, is read as the double that it rounds to. -/
theorem hasParts_magnitude (hc : Canonical m e) (hx : RoundsTo (c * 10 ^ k) m e) :
    HasParts (Decimal.magnitude c k) .positive m e := by
  obtain ⟨hpos, hmost, hleast⟩ := hx.exponent_bounds hc
  rw [Decimal.magnitude, if_neg hpos.ne', if_neg (by omega), if_neg (by omega)]
  exact hasParts_ofScientific hc hx

end ComplexExpr.Binary
