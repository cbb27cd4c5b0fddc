import ComplexExpr.Proofs.Binary.Sum

/-!
# Squares that vanish

Rounding makes zero of a number that is at most half of the least double, and of no other
(`roundWithAccuracy_cases`); and nothing else that it leaves is packed into zero
(`Reduced.not_isZero`). So the square of a double may be zero though the double is not: that
is decided by its exponent, and by its mantissa for one exponent (`mul_self_le_iff`). A sum
of doubles that are not negative is zero only if both are (`isZero_add_iff`). Main
statement:

* `beq_zero_add_mul_self_iff`: a sum of two squares is zero iff neither double is larger
  than `vanishingBound`.
-/

namespace ComplexExpr.Binary

open Float.Model (Format UnpackedFloat totalExponent)
open Float.Model.UnpackedFloat (Accuracy roundWithAccuracy)

variable {s t : UnpackedFloat.Sign} {m n : ℕ} {e k : ℤ} {acc : Accuracy} {x y : Float}

/-! ## Rounding to zero -/

/-- What rounding leaves of a number: a mantissa and exponent as doubles have them, but that the
exponent may be too large for a double. -/
structure Reduced (m : ℕ) (e : ℤ) : Prop where
  pos : 0 < m
  lt : m < 2 ^ 53
  least : -1074 ≤ e
  normal : e = -1074 ∨ 2 ^ 52 ≤ m

/-- The nearest whole number is zero iff a number is at most half of the least double. -/
theorem Nearest.zero_iff {r : ℕ} {z : ℚ} {t : ℤ} (hr : Nearest r (z / 2 ^ t)) (ht : Fits z t)
    (hz : 0 ≤ z) : r = 0 ↔ z ≤ 2 ^ (-1075 : ℤ) := by
  have hpow := two_zpow_pos t
  have hmin := zpow_le_zpow_right₀ (one_le_two (α := ℚ)) ht.least
  have hhalf : (2 : ℚ) ^ (-1075 : ℤ) = 1 / 2 * 2 ^ (-1074 : ℤ) := by
    rw [show (-1075 : ℤ) = -1074 - 1 from rfl, zpow_sub_one₀ two_ne_zero]
    ring
  have hleast : t = -1074 ∨ 2 ^ 52 * 2 ^ t ≤ z := ht.normal.imp_right (le_div_iff₀ hpow).1
  rw [hhalf]
  constructor
  · rintro rfl
    have hup := hr.upper
    rw [Nat.cast_zero, zero_add, div_le_iff₀ hpow] at hup
    obtain rfl | hnormal := hleast
    · exact hup
    · linarith
  · intro hle
    have ht : t = -1074 := hleast.resolve_right fun hnormal => by
      generalize (2 : ℚ) ^ (-1074 : ℤ) = δ at hle hmin
      linarith
    have hunits : z / 2 ^ t ≤ 1 / 2 := (div_le_iff₀ hpow).2 (ht ▸ hle)
    have hnonneg := div_nonneg hz hpow.le
    exact hr.unique ⟨by push_cast; linarith, by push_cast; linarith, fun _ => rfl⟩

/-- The nearest whole number has as many bits as a double, or it is the power of two beyond. -/
theorem Nearest.le_of_fits {r : ℕ} {z : ℚ} {t : ℤ} (hr : Nearest r (z / 2 ^ t)) (ht : Fits z t) :
    r ≤ 2 ^ 53 := by
  have hlow := hr.lower
  have hlt := ht.lt
  have hcast : (r : ℚ) < 2 ^ 53 + 1 := by linarith
  exact Nat.lt_succ_iff.1 (by exact_mod_cast hcast)

theorem Nearest.normal_of_fits {r : ℕ} {z : ℚ} {t : ℤ} (hr : Nearest r (z / 2 ^ t))
    (ht : Fits z t) : t = -1074 ∨ 2 ^ 52 ≤ r := by
  refine ht.normal.imp_right fun h => ?_
  have hup := hr.upper
  have hcast : (2 : ℚ) ^ 52 < r + 1 := by linarith
  exact Nat.lt_succ_iff.1 (by exact_mod_cast hcast)

/-- Rounding makes zero or what is left of the nearest multiple of a power of two that fits. -/
theorem exists_nearest_roundWithAccuracy {z : ℚ} (hz : Located (.ofMantissaAndAccuracy n acc) z)
    (hk : k ≤ Format.binary64.targetExponent (totalExponent n k)) :
    ∃ r t, Nearest r (z * 2 ^ k / 2 ^ t) ∧ Fits (z * 2 ^ k) t ∧
      ((r = 0 ∧ ∀ s, roundWithAccuracy .binary64 s n k acc = .zero s) ∨
        r ≠ 0 ∧ ∃ m e, ∃ h : Reduced m e, (m * 2 ^ e : ℚ) = r * 2 ^ t ∧
          ∀ s, roundWithAccuracy .binary64 s n k acc = .finite s m e h.pos) := by
  obtain ⟨em, t, hshift, hloc, hfits⟩ := shift_fits hz hk
  have hnear := hloc.nearest
  refine ⟨_, t, hnear, hfits, ?_⟩
  unfold roundWithAccuracy
  rw [hshift]
  dsimp only
  generalize em.roundedMantissa = r at hnear
  have hle := hnear.le_of_fits hfits
  rw [shift_rounded hle hfits.least]
  by_cases hr : r < 2 ^ 53
  · rw [if_pos hr]
    by_cases h0 : r = 0
    · exact .inl ⟨h0, fun s => dif_pos h0⟩
    · have hreduced : Reduced r t :=
        ⟨Nat.pos_of_ne_zero h0, hr, hfits.least, hnear.normal_of_fits hfits⟩
      exact .inr ⟨h0, r, t, hreduced, rfl, fun s => dif_neg h0⟩
  · obtain rfl : r = 2 ^ 53 := by omega
    rw [if_neg hr]
    have hreduced : Reduced (2 ^ 52) (t + 1) :=
      ⟨by decide, by decide, by have := hfits.least; omega, .inr le_rfl⟩
    refine .inr ⟨by decide, 2 ^ 52, t + 1, hreduced, ?_, fun s => rfl⟩
    rw [zpow_add_one₀ two_ne_zero]
    push_cast
    ring

/-- A number is rounded to zero iff it is at most half of the least double. -/
theorem roundWithAccuracy_cases {z : ℚ} (s : UnpackedFloat.Sign)
    (hz : Located (.ofMantissaAndAccuracy n acc) z)
    (hk : k ≤ Format.binary64.targetExponent (totalExponent n k)) :
    (z * 2 ^ k ≤ 2 ^ (-1075 : ℤ) ∧ roundWithAccuracy .binary64 s n k acc = .zero s) ∨
      2 ^ (-1075 : ℤ) < z * 2 ^ k ∧
        ∃ m e, ∃ h : Reduced m e, roundWithAccuracy .binary64 s n k acc = .finite s m e h.pos := by
  obtain ⟨r, t, hnear, hfits, h⟩ := exists_nearest_roundWithAccuracy hz hk
  have hnonneg : 0 ≤ z * 2 ^ k :=
    mul_nonneg ((Nat.cast_nonneg _).trans hz.bounds.1) (two_zpow_pos k).le
  have hzero := hnear.zero_iff hfits hnonneg
  rcases h with ⟨h0, heq⟩ | ⟨h0, m, e, hreduced, -, heq⟩
  · exact .inl ⟨hzero.1 h0, heq s⟩
  · exact .inr ⟨not_le.1 (mt hzero.2 h0), m, e, hreduced, heq s⟩

/-- What rounding leaves is not packed into zero. -/
theorem Reduced.not_isZero (h : Reduced m e) (s : UnpackedFloat.Sign) :
    ¬IsZero (.ofModel (.pack (.finite s m e h.pos))) := by
  rintro ⟨t, ht⟩
  replace ht : (Float.Model.pack (.finite s m e h.pos)).unpack = .zero t := ht
  by_cases hmost : e ≤ 971
  · rw [unpack_pack ⟨h.pos, h.lt, h.least, hmost, h.normal⟩ s] at ht
    cases ht
  · rw [unpack_pack_large s h.pos (not_le.1 hmost)] at ht
    cases ht

theorem isZero_pack_zero (s : UnpackedFloat.Sign) : IsZero (.ofModel (.pack (.zero s))) :=
  ⟨s, unpack_pack_zero s⟩

theorem isZero_roundWithAccuracy_iff {z : ℚ} (s : UnpackedFloat.Sign)
    (hz : Located (.ofMantissaAndAccuracy n acc) z)
    (hk : k ≤ Format.binary64.targetExponent (totalExponent n k)) :
    IsZero (.ofModel (.pack (roundWithAccuracy .binary64 s n k acc))) ↔
      z * 2 ^ k ≤ 2 ^ (-1075 : ℤ) := by
  obtain ⟨hle, h⟩ | ⟨hlt, m, e, hreduced, h⟩ := roundWithAccuracy_cases s hz hk
  · rw [h]
    exact iff_of_true (isZero_pack_zero s) hle
  · rw [h]
    exact iff_of_false (hreduced.not_isZero s) (not_le.2 hlt)

theorem isZero_round_iff (s : UnpackedFloat.Sign) (hn : 0 < n) (k : ℤ) :
    IsZero (.ofModel (.pack (.round .binary64 s n k))) ↔ (n * 2 ^ k : ℚ) ≤ 2 ^ (-1075 : ℤ) := by
  obtain ⟨n', k', hk, hvalue, heq⟩ := exists_round_eq hn k
  rw [← hvalue, heq s]
  exact isZero_roundWithAccuracy_iff s (located_exact n') hk

/-! ## Sums of what is not negative -/

theorem beq_zero_iff : (x == 0.0) = true ↔ IsZero x := by
  refine ⟨fun h => ?_, fun h => h.beq isZero_zero⟩
  have hbeq : (x == 0.0) = (x.toModel.unpack.compare (.zero .positive) == some .eq) := rfl
  rw [hbeq, beq_iff_eq] at h
  cases hx : x.toModel.unpack with
  | notANumber => rw [hx] at h; cases h
  | infinity s => rw [hx] at h; cases s <;> cases h
  | zero s => exact ⟨s, hx⟩
  | finite s m e hm => rw [hx] at h; cases s <;> cases h

/-- Not a number, or one that is not negative. -/
inductive Unsigned (x : Float) : Prop
  | notANumber (h : x.toModel.unpack = .notANumber)
  | infinity (h : x.toModel.unpack = .infinity .positive)
  | zero (h : x.toModel.unpack = .zero .positive)
  | finite {m : ℕ} {e : ℤ} (hc : Canonical m e)
    (h : x.toModel.unpack = .finite .positive m e hc.pos)

theorem HasSign.unsigned (h : HasSign .positive x.toModel.unpack) : Unsigned x := by
  cases hx : x.toModel.unpack with
  | notANumber => exact .notANumber hx
  | infinity s =>
    rw [hx] at h
    obtain rfl : s = .positive := h
    exact .infinity hx
  | zero s =>
    rw [hx] at h
    obtain rfl : s = .positive := h
    exact .zero hx
  | finite s m e hm =>
    rw [hx] at h
    obtain rfl : s = .positive := h
    exact .finite (canonical_of_unpack hx) hx

theorem not_isZero_notANumber : ¬IsZero (.ofModel (.pack .notANumber)) := nofun

theorem not_isZero_infinity (s : UnpackedFloat.Sign) :
    ¬IsZero (.ofModel (.pack (.infinity s))) := by
  rintro ⟨t, ht⟩
  exact nomatch (unpack_pack_infinity s).symm.trans ht

theorem Canonical.not_isZero (hc : Canonical m e) (s : UnpackedFloat.Sign) :
    ¬IsZero (.ofModel (.pack (.finite s m e hc.pos))) :=
  Reduced.not_isZero ⟨hc.pos, hc.lt, hc.least, hc.normal⟩ s

/-- The sum of two positive numbers is rounded once. -/
theorem add_finite_eq (hm : 0 < m) (hn : 0 < n) :
    UnpackedFloat.add .binary64 (.finite .positive m e hm) (.finite .positive n k hn) =
      .round .binary64 .positive
        (m <<< (e - min e k).toNat + n <<< (k - min e k).toNat) (min e k) := by
  show UnpackedFloat.normalize .binary64
    ((m <<< (e - min e k).toNat : ℕ) + (n <<< (k - min e k).toNat : ℕ) : ℤ) (min e k) .positive = _
  have hpos : 0 < m <<< (e - min e k).toNat := by
    rw [Nat.shiftLeft_eq]
    positivity
  generalize m <<< (e - min e k).toNat = a at hpos
  generalize n <<< (k - min e k).toNat = b
  have hgt : compare (a + b : ℤ) 0 = .gt := Int.compare_eq_gt.2 (by omega)
  rw [UnpackedFloat.normalize, hgt]
  rfl

/-- A sum of two positive doubles is not zero: it is no less than the least of them. -/
theorem Canonical.not_isZero_add (hc : Canonical m e) (hc' : Canonical n k) :
    ¬IsZero (.ofModel (.pack (.add .binary64 (.finite .positive m e hc.pos)
      (.finite .positive n k hc'.pos)))) := by
  have hpos : 0 < m <<< (e - min e k).toNat := by
    have hm := hc.pos
    rw [Nat.shiftLeft_eq]
    positivity
  rw [add_finite_eq]
  generalize m <<< (e - min e k).toNat = a at hpos
  generalize n <<< (k - min e k).toNat = b
  rw [isZero_round_iff .positive (Nat.add_pos_left hpos b), not_le]
  have hone : (1 : ℚ) ≤ (a + b : ℕ) := by exact_mod_cast Nat.add_pos_left hpos b
  calc (2 : ℚ) ^ (-1075 : ℤ) < 2 ^ (-1074 : ℤ) := zpow_lt_zpow_right₀ one_lt_two (by decide)
    _ ≤ 2 ^ min e k := zpow_le_zpow_right₀ one_le_two (le_min hc.least hc'.least)
    _ ≤ (a + b : ℕ) * 2 ^ min e k := le_mul_of_one_le_left (two_zpow_pos _).le hone

/-- A sum of what is not negative is zero only if both summands are. -/
theorem isZero_add_iff (hx : Unsigned x) (hy : Unsigned y) :
    IsZero (x + y) ↔ IsZero x ∧ IsZero y := by
  have hsum : x + y = .ofModel (.pack (.add .binary64 x.toModel.unpack y.toModel.unpack)) := rfl
  rw [hsum]
  constructor
  · intro h
    have hne {u v : UnpackedFloat} (hx : x.toModel.unpack = u) (hy : y.toModel.unpack = v)
        (hsum : ¬IsZero (.ofModel (.pack (.add .binary64 u v)))) : IsZero x ∧ IsZero y := by
      rw [hx, hy] at h
      exact absurd h hsum
    cases hx with
    | notANumber hx => exact hne hx rfl not_isZero_notANumber
    | infinity hx =>
      cases hy with
      | notANumber hy => exact hne hx hy not_isZero_notANumber
      | infinity hy | zero hy | finite _ hy => exact hne hx hy (not_isZero_infinity .positive)
    | zero hx =>
      cases hy with
      | notANumber hy => exact hne hx hy not_isZero_notANumber
      | infinity hy => exact hne hx hy (not_isZero_infinity .positive)
      | zero hy => exact ⟨⟨_, hx⟩, _, hy⟩
      | finite hc hy => exact hne hx hy (hc.not_isZero .positive)
    | finite hc hx =>
      cases hy with
      | notANumber hy => exact hne hx hy not_isZero_notANumber
      | infinity hy => exact hne hx hy (not_isZero_infinity .positive)
      | zero hy => exact hne hx hy (hc.not_isZero .positive)
      | finite hc' hy => exact hne hx hy (hc.not_isZero_add hc')
  · rintro ⟨⟨s, hs⟩, t, ht⟩
    obtain ⟨r, hr⟩ := exists_zero_of_zeros s t
    rw [hs, ht, hr]
    exact isZero_pack_zero r

/-! ## Squares -/

theorem mul_self_eq (x : Float) :
    x * x = .ofModel (.pack (.mul .binary64 x.toModel.unpack x.toModel.unpack)) := rfl

theorem mul_self_sign (s : UnpackedFloat.Sign) : s * s = .positive := by cases s <;> rfl

theorem unsigned_mul_self (x : Float) : Unsigned (x * x) := by
  rw [mul_self_eq]
  cases x.toModel.unpack with
  | notANumber => exact .notANumber rfl
  | infinity s =>
    have hsign : HasSign .positive (.infinity (s * s)) := mul_self_sign s
    exact hsign.unpack_pack.unsigned
  | zero s =>
    have hsign : HasSign .positive (.zero (s * s)) := mul_self_sign s
    exact hsign.unpack_pack.unsigned
  | finite s m e hm =>
    have hsign := hasSign_roundWithAccuracy (s * s) (m * m) (e + e) .exact
    rw [mul_self_sign] at hsign
    show Unsigned (.ofModel (.pack (roundWithAccuracy .binary64 (s * s) (m * m) (e + e) .exact)))
    rw [mul_self_sign]
    exact hsign.unpack_pack.unsigned

/-- A square is zero iff it is at most half of the least double. -/
theorem HasParts.isZero_mul_self_iff (h : HasParts x s m e) :
    IsZero (x * x) ↔ ((m * m : ℕ) * 2 ^ (e + e) : ℚ) ≤ 2 ^ (-1075 : ℤ) := by
  rw [mul_self_eq]
  cases h with
  | zero h =>
    rw [h, Nat.mul_zero, Nat.cast_zero, zero_mul]
    exact iff_of_true (isZero_pack_zero _) (two_zpow_pos _).le
  | nonzero hc h =>
    have hbits : e + e ≤ -1074 ∨ 2 ^ 52 ≤ m * m := by
      refine (Int.le_total (e + e) (-1074)).imp_right fun hle => ?_
      have hm : 2 ^ 52 ≤ m := hc.normal.resolve_left (by omega)
      exact hm.trans (Nat.le_mul_self m)
    rw [h]
    exact isZero_roundWithAccuracy_iff _ (located_exact (m * m)) (le_targetExponent hbits)

/-- Doubles that are not negative are ordered by their exponents, and then by their mantissas. -/
theorem HasParts.le_iff (hx : HasParts x .positive m e) (hy : HasParts y .positive n k)
    (hn : n ≠ 0) : x ≤ y ↔ e < k ∨ e = k ∧ m ≤ n := by
  rw [Binary.le_iff]
  cases hy with
  | zero hy => exact absurd rfl hn
  | nonzero hc' hy =>
    have hleast := hc'.least
    cases hx with
    | zero hx =>
      rw [hx, hy]
      exact iff_of_true rfl (by omega)
    | nonzero hc hx =>
      rw [hx, hy]
      show ((compare e k).then (compare m n)).isLE = true ↔ _
      rw [Ordering.isLE_then_iff_or, Int.compare_eq_lt, Int.compare_eq_eq, Nat.isLE_compare]

/-- The largest double whose square is zero. -/
def vanishingBound : Float := 1.5717277847026285e-162

theorem hasParts_vanishingBound : HasParts vanishingBound .positive 6369051672525772 (-590) :=
  .of_ofFloat (by decide +kernel)

/-- Which squares are at most half of the least double. -/
theorem mul_self_le_iff (hm : m < 2 ^ 53) (hnormal : e = -1074 ∨ 2 ^ 52 ≤ m) :
    ((m * m : ℕ) * 2 ^ (e + e) : ℚ) ≤ 2 ^ (-1075 : ℤ) ↔
      e < -590 ∨ e = -590 ∧ m ≤ 6369051672525772 := by
  rcases lt_trichotomy e (-590) with h | rfl | h
  · refine iff_of_true ?_ (.inl h)
    have hmm : ((m * m : ℕ) : ℚ) ≤ 2 ^ (106 : ℕ) := by
      exact_mod_cast (Nat.mul_le_mul hm.le hm.le).trans (by norm_num)
    calc ((m * m : ℕ) : ℚ) * 2 ^ (e + e) ≤ 2 ^ (106 : ℕ) * 2 ^ (-1182 : ℤ) :=
          mul_le_mul hmm (zpow_le_zpow_right₀ one_le_two (by omega)) (two_zpow_pos _).le
            (by positivity)
      _ = 2 ^ (-1076 : ℤ) := two_pow_mul_zpow 106 (-1182)
      _ ≤ 2 ^ (-1075 : ℤ) := zpow_le_zpow_right₀ one_le_two (by decide)
  · have hpow : (2 : ℚ) ^ (-1075 : ℤ) = 2 ^ (105 : ℕ) * 2 ^ (-590 + -590 : ℤ) := by
      rw [two_pow_mul_zpow]
      rfl
    rw [hpow, mul_le_mul_iff_left₀ (two_zpow_pos _)]
    have hcast : ((m * m : ℕ) : ℚ) ≤ 2 ^ 105 ↔ m * m ≤ 2 ^ 105 := by norm_cast
    rw [hcast]
    constructor
    · intro hle
      refine .inr ⟨rfl, ?_⟩
      by_contra hlt
      have hmul := Nat.mul_le_mul (Nat.not_le.1 hlt) (Nat.not_le.1 hlt)
      omega
    · intro hle
      have hm : m ≤ 6369051672525772 := by omega
      exact (Nat.mul_le_mul hm hm).trans (by norm_num)
  · have hm : 2 ^ 52 ≤ m := hnormal.resolve_left (by omega)
    have hmm : (2 : ℚ) ^ (104 : ℕ) ≤ (m * m : ℕ) := by
      exact_mod_cast (by norm_num : (2 : ℕ) ^ 104 ≤ 2 ^ 52 * 2 ^ 52).trans (Nat.mul_le_mul hm hm)
    refine iff_of_false (not_le.2 ?_) (by omega)
    calc (2 : ℚ) ^ (-1075 : ℤ) < 2 ^ (-1074 : ℤ) := zpow_lt_zpow_right₀ one_lt_two (by decide)
      _ = 2 ^ (104 : ℕ) * 2 ^ (-1178 : ℤ) := by rw [two_pow_mul_zpow]; rfl
      _ ≤ (m * m : ℕ) * 2 ^ (e + e) :=
          mul_le_mul hmm (zpow_le_zpow_right₀ one_le_two (by omega)) (two_zpow_pos _).le
            (by positivity)

/-- A square is zero iff the number's magnitude is at most the bound. -/
theorem isZero_mul_self_iff (x : Float) : IsZero (x * x) ↔ x.abs ≤ vanishingBound := by
  by_cases hfinite : x.isFinite
  · obtain ⟨s, m, e, hx⟩ := exists_hasParts hfinite
    have hparts : m < 2 ^ 53 ∧ (e = -1074 ∨ 2 ^ 52 ≤ m) := by
      cases hx with
      | zero _ => exact ⟨by decide, .inl rfl⟩
      | nonzero hc _ => exact ⟨hc.lt, hc.normal⟩
    rw [hx.isZero_mul_self_iff, hx.abs.le_iff hasParts_vanishingBound (by decide),
      mul_self_le_iff hparts.1 hparts.2]
  · have hbound : vanishingBound.toModel.unpack =
        .finite .positive 6369051672525772 (-590) (by decide) := by
      cases hasParts_vanishingBound with
      | nonzero _ h => exact h
    have habs : x.abs.toModel.unpack = (Float.Model.pack x.toModel.unpack.abs).unpack := rfl
    change ¬x.toModel.unpack.isFinite at hfinite
    rw [mul_self_eq, Binary.le_iff, habs, hbound]
    cases hx : x.toModel.unpack with
    | notANumber => exact iff_of_false not_isZero_notANumber Bool.false_ne_true
    | infinity s =>
      have hmost : (Float.Model.pack (UnpackedFloat.infinity s).abs).unpack =
          .infinity .positive := unpack_pack_infinity .positive
      rw [hmost]
      exact iff_of_false (not_isZero_infinity (s * s)) Bool.false_ne_true
    | zero s | finite s m e hm => rw [hx] at hfinite; exact absurd rfl hfinite

/-- A sum of two squares is zero iff both numbers are at most the bound. -/
theorem beq_zero_add_mul_self_iff (x y : Float) :
    (x * x + y * y == 0.0) = true ↔ x.abs ≤ vanishingBound ∧ y.abs ≤ vanishingBound := by
  rw [beq_zero_iff, isZero_add_iff (unsigned_mul_self x) (unsigned_mul_self y),
    isZero_mul_self_iff, isZero_mul_self_iff]

end ComplexExpr.Binary
