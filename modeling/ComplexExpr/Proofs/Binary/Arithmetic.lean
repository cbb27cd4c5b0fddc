import ComplexExpr.Proofs.Binary.Order
import ComplexExpr.Proofs.Binary.Vanishing

/-!
# Arithmetic on doubles

What an operation makes of the exact result is the nearest double, or an infinity if the
result is out of range (`Rounded`). Main statements:

* `rounded_add`, `rounded_sub`, `rounded_mul`, `rounded_div`: sums, differences, products and
  quotients of finite doubles;
* `exists_root`: no double lies strictly between the square root of a number and what it is
  rounded to.
-/

namespace ComplexExpr.Binary

open Float.Model (Format UnpackedFloat totalExponent)
open Float.Model.UnpackedFloat (Accuracy ExtendedMantissa roundWithAccuracy sqrtCore)

variable {x y : Float} {p q r : ℚ} {s t : UnpackedFloat.Sign} {m n : ℕ} {e k : ℤ}

/-! ## Rounding -/

theorem Rounds.signed (h : Rounds q r) (s : UnpackedFloat.Sign) :
    Rounds (signed s q) (signed s r) := by
  cases s
  · exact h.neg
  · exact h

/-- The double that is made of the exact result `q` of an operation. -/
inductive Rounded (x : Float) (q : ℚ) : Prop
  | finite {r : ℚ} (hx : HasValue x r) (h : Rounds q r)
  | infinite (s : UnpackedFloat.Sign) (hx : x.toModel.unpack = .infinity s)
    (h : 2 ^ (1023 : ℤ) < signed s q)

theorem Rounded.of_eq (h : Rounded x p) (hq : p = q) : Rounded x q := hq ▸ h

/-- What is in range is not rounded to an infinity. -/
theorem Rounded.exists_rounds (h : Rounded x q) (hq : |q| ≤ 2 ^ k) (hk : k ≤ 1023) :
    ∃ r, HasValue x r ∧ Rounds q r := by
  cases h with
  | finite hx h => exact ⟨_, hx, h⟩
  | infinite s hx h =>
    have hle := (le_abs_self (signed s q)).trans_eq (abs_signed s q)
    exact absurd ((hle.trans hq).trans (zpow_le_zpow_right₀ one_le_two hk)) (not_le.2 h)

/-- What is no larger than a power of two is not rounded past it. -/
theorem Rounded.exists_rounds_le (h : Rounded x q) (hq : |q| ≤ 2 ^ k)
    (hk : -1074 ≤ k ∧ k ≤ 1023) : ∃ r, HasValue x r ∧ Rounds q r ∧ |r| ≤ 2 ^ k := by
  obtain ⟨r, hx, hround⟩ := h.exists_rounds hq hk.2
  exact ⟨r, hx, hround, hround.magnitude_le (.pow hk.1) hq⟩

/-- A result that is a double is not rounded. -/
theorem Rounded.exact (h : Rounded x q) (hr : Representable q) (hq : |q| ≤ 2 ^ k)
    (hk : k ≤ 1023) : HasValue x q := by
  obtain ⟨r, hx, hround⟩ := h.exists_rounds hq hk
  rwa [hround.eq hr] at hx

/-- A result between zero and a double is rounded to one between them. -/
theorem Rounded.exists_between (h : Rounded x q) (hp : Representable p) (hq : 0 ≤ q) (hle : q ≤ p)
    (hpk : p ≤ 2 ^ k) (hk : k ≤ 1023) :
    ∃ r, HasValue x r ∧ 0 ≤ r ∧ r ≤ p ∧ (q = p → r = p) := by
  have hqk : |q| ≤ 2 ^ k := by
    rw [abs_of_nonneg hq]
    exact hle.trans hpk
  obtain ⟨r, hx, hround⟩ := h.exists_rounds hqk hk
  refine ⟨r, hx, hround.nonneg hq, hround.le hp hle, ?_⟩
  rintro rfl
  exact hround.eq hp

/-- The result of an operation is no less than any double that the exact result is not less than. -/
theorem Rounded.ge (h : Rounded x q) (hy : HasValue y p) (hp : 0 ≤ p) (hle : p ≤ q) : y ≤ x := by
  cases h with
  | finite hx h => exact (hy.le_iff hx).2 (h.ge hy.representable hle)
  | infinite s hx h =>
    obtain rfl : s = .positive := by
      cases s with
      | positive => rfl
      | negative =>
        rw [signed] at h
        exact absurd ((two_zpow_pos 1023).trans h) (not_lt.2 (neg_nonpos.2 (hp.trans hle)))
    obtain ⟨t, m, e, hy, -⟩ := hy
    rw [Binary.le_iff, hx]
    cases hy with
    | zero hy => rw [hy]; rfl
    | nonzero hc hy => rw [hy]; cases t <;> rfl

/-- A double that comes of an operation is exactly that. -/
theorem HasValue.rounded (h : HasValue x q) : Rounded x q := .finite h h.representable.rounds

/-- No multiple of a power of two is nearer to a number than the nearest one. -/
theorem Nearest.le_of_multiple {z : ℚ} {t : ℤ} (hn : Nearest n (z / 2 ^ t)) (a : ℤ) :
    |z - n * 2 ^ t| ≤ |z - a * 2 ^ t| := by
  have hpow := two_zpow_pos t
  have hscale (a : ℚ) : |z - a * 2 ^ t| = |z / 2 ^ t - a| * 2 ^ t := by
    rw [← abs_of_pos hpow, ← abs_mul, abs_of_pos hpow, sub_mul, div_mul_cancel₀ _ hpow.ne']
  have hhalf : |z / 2 ^ t - n| ≤ 1 / 2 := by
    have hlow := hn.lower
    have hup := hn.upper
    rw [abs_le]
    constructor <;> linarith
  rw [hscale, hscale]
  refine mul_le_mul_of_nonneg_right ?_ hpow.le
  by_cases han : a = n
  · rw [han, Int.cast_natCast]
  · -- the others are at least half a unit away
    have hone : (1 : ℚ) ≤ |(n : ℚ) - a| := by
      exact_mod_cast Int.one_le_abs (sub_ne_zero.2 (Ne.symm han))
    have htriangle := abs_sub_abs_le_abs_sub ((n : ℚ) - a) (n - z / 2 ^ t)
    rw [abs_sub_comm (n : ℚ) (z / 2 ^ t)] at htriangle
    have hsub : (n : ℚ) - a - (n - z / 2 ^ t) = z / 2 ^ t - a := by ring
    rw [hsub] at htriangle
    linarith

theorem two_zpow_add_52 (t : ℤ) : (2 : ℚ) ^ (t + 52) = 2 ^ 52 * 2 ^ t := by
  rw [add_comm]
  exact (two_pow_mul_zpow 52 t).symm

/-- No double is nearer to a number than its nearest multiple of a power of two that fits it. -/
theorem Nearest.rounds {z : ℚ} {t : ℤ} (hn : Nearest n (z / 2 ^ t)) (ht : Fits z t) :
    Rounds z (n * 2 ^ t) := by
  have hpow := two_zpow_pos t
  refine ⟨?_, fun f hf => ?_⟩
  · have hle := hn.le_of_fits ht
    exact ⟨n, t, ht.least, by rw [Nat.abs_cast]; omega, by rw [Int.cast_natCast]⟩
  · by_cases hlarge : t = -1074 ∨ 2 ^ (t + 52) ≤ |f|
    · have hon : OnGrid t f := by
        rcases hlarge with rfl | hlarge
        · exact hf.onGrid_least
        · exact (hf.onGrid hlarge).mono (by omega)
      obtain ⟨a, rfl⟩ := hon
      exact hn.le_of_multiple a
    · -- off the grid a double is smaller than `z`, with a power of two between them
      obtain ⟨hne, hsmall⟩ := not_or.1 hlarge
      have hnormal := (le_div_iff₀ hpow).1 (ht.normal.resolve_left hne)
      rw [two_zpow_add_52, not_le] at hsmall
      have hfle := le_abs_self f
      calc |z - n * 2 ^ t| ≤ |z - (2 ^ 52 : ℤ) * 2 ^ t| := hn.le_of_multiple (2 ^ 52)
        _ = z - 2 ^ 52 * 2 ^ t := by
          rw [Int.cast_pow, Int.cast_ofNat, abs_of_nonneg (by linarith)]
        _ ≤ |z - f| := by
          have hdist := le_abs_self (z - f)
          linarith

/-- What rounding leaves of a number is packed into the nearest double, or into an infinity. -/
theorem Reduced.rounded (h : Reduced m e) (s : UnpackedFloat.Sign) (hq : Rounds q (m * 2 ^ e)) :
    Rounded (.ofModel (.pack (.finite s m e h.pos))) (signed s q) := by
  by_cases hmost : e ≤ 971
  · exact .finite (HasParts.of_finite ⟨h.pos, h.lt, h.least, hmost, h.normal⟩ s).hasValue
      (hq.signed s)
  · refine .infinite s (unpack_pack_large s h.pos (not_le.1 hmost)) ?_
    have hsigned : signed s (signed s q) = q := by
      cases s
      · exact neg_neg q
      · rfl
    rw [hsigned]
    -- a smaller number is not rounded to as much as the least infinite one
    by_contra hle
    have hr := hq.le (.pow (by decide)) (not_lt.1 hle)
    have hm : (2 : ℚ) ^ 52 ≤ m := by
      exact_mod_cast h.normal.resolve_left (by omega)
    have hbig : (2 : ℚ) ^ (1024 : ℤ) ≤ m * 2 ^ e := by
      calc (2 : ℚ) ^ (1024 : ℤ) = 2 ^ 52 * 2 ^ (972 : ℤ) := (two_pow_mul_zpow 52 972).symm
        _ ≤ m * 2 ^ e :=
          mul_le_mul hm (zpow_le_zpow_right₀ one_le_two (by omega)) (two_zpow_pos _).le
            (Nat.cast_nonneg m)
    have hlt : (2 : ℚ) ^ (1023 : ℤ) < 2 ^ (1024 : ℤ) := zpow_lt_zpow_right₀ one_lt_two (by decide)
    exact absurd (hbig.trans hr) (not_le.2 hlt)

/-- A number that is cut off above no bit of a double is rounded to the nearest one. -/
theorem rounded_roundWithAccuracy {acc : Accuracy} {z : ℚ} (s : UnpackedFloat.Sign)
    (hz : Located (.ofMantissaAndAccuracy n acc) z)
    (hk : k ≤ Format.binary64.targetExponent (totalExponent n k)) :
    Rounded (.ofModel (.pack (roundWithAccuracy .binary64 s n k acc))) (signed s (z * 2 ^ k)) := by
  obtain ⟨r, t, hnear, hfits, h⟩ := exists_nearest_roundWithAccuracy hz hk
  have hrounds := hnear.rounds hfits
  rcases h with ⟨rfl, heq⟩ | ⟨-, m, e, hreduced, hvalue, heq⟩
  · rw [heq s]
    have hvalue := (HasParts.of_zero s).hasValue
    rw [Nat.cast_zero, zero_mul] at hvalue hrounds
    exact .finite hvalue (hrounds.signed s)
  · rw [heq s]
    rw [← hvalue] at hrounds
    exact hreduced.rounded s hrounds

theorem rounded_round (s : UnpackedFloat.Sign) (hn : 0 < n) (k : ℤ) :
    Rounded (.ofModel (.pack (.round .binary64 s n k))) (signed s (n * 2 ^ k)) := by
  obtain ⟨n', k', hk, hvalue, heq⟩ := exists_round_eq hn k
  rw [← hvalue, heq s]
  exact rounded_roundWithAccuracy s (located_exact n') hk

theorem hasValue_pack_zero (s : UnpackedFloat.Sign) : HasValue (.ofModel (.pack (.zero s))) 0 :=
  (HasParts.of_zero s).hasValue.of_eq (signed_zero_mul s _)

theorem rounded_normalize (z k : ℤ) (s : UnpackedFloat.Sign) :
    Rounded (.ofModel (.pack (.normalize .binary64 z k s))) (z * 2 ^ k) := by
  unfold UnpackedFloat.normalize
  rcases lt_trichotomy z 0 with h | rfl | h
  · rw [Int.compare_eq_lt.2 h]
    have hround := rounded_round .negative (n := (-z).toNat) (by omega) k
    have hcast : (((-z).toNat : ℕ) : ℚ) = -z := by exact_mod_cast Int.toNat_of_nonneg (by omega)
    rwa [signed, hcast, neg_mul, neg_neg] at hround
  · rw [Int.compare_eq_eq.2 rfl, Int.cast_zero, zero_mul]
    exact (hasValue_pack_zero s).rounded
  · rw [Int.compare_eq_gt.2 h]
    have hround := rounded_round .positive (n := z.toNat) (by omega) k
    have hcast : ((z.toNat : ℕ) : ℚ) = z := by exact_mod_cast Int.toNat_of_nonneg (by omega)
    rwa [signed, hcast] at hround

/-! ## Operations -/

theorem cast_apply (s : UnpackedFloat.Sign) (n : ℕ) : ((s.apply n : ℤ) : ℚ) = signed s n := by
  cases s
  · exact Int.cast_neg n
  · rfl

theorem cast_shiftLeft (m : ℕ) {k e : ℤ} (h : k ≤ e) :
    ((m <<< (e - k).toNat : ℕ) : ℚ) * 2 ^ k = m * 2 ^ e := by
  rw [Nat.shiftLeft_eq, Nat.cast_mul, Nat.cast_pow, Nat.cast_ofNat, mul_assoc, two_pow_mul_zpow,
    Int.toNat_of_nonneg (by omega), sub_add_cancel]

theorem cast_apply_shiftLeft (s : UnpackedFloat.Sign) (m : ℕ) {k e : ℤ} (h : k ≤ e) :
    ((s.apply (m <<< (e - k).toNat : ℕ) : ℤ) : ℚ) * 2 ^ k = signed s (m * 2 ^ e) := by
  rw [cast_apply, ← cast_shiftLeft m h]
  cases s
  · exact neg_mul _ _
  · rfl

theorem rounded_add (hx : HasValue x p) (hy : HasValue y q) : Rounded (x + y) (p + q) := by
  obtain ⟨s, m, e, hx, rfl⟩ := hx
  obtain ⟨t, n, k, hy, rfl⟩ := hy
  show Rounded (.ofModel (.pack (.add .binary64 x.toModel.unpack y.toModel.unpack))) _
  cases hx with
  | zero hx =>
    rw [hx, signed_zero_mul, zero_add]
    cases hy with
    | zero hy =>
      obtain ⟨r, hr⟩ := exists_zero_of_zeros s t
      rw [hy, hr, signed_zero_mul]
      exact (hasValue_pack_zero r).rounded
    | nonzero hc hy =>
      rw [hy]
      exact (HasParts.of_finite hc t).hasValue.rounded
  | nonzero hc hx =>
    rw [hx]
    cases hy with
    | zero hy =>
      rw [hy, signed_zero_mul, add_zero]
      exact (HasParts.of_finite hc s).hasValue.rounded
    | nonzero hc' hy =>
      rw [hy, ← cast_apply_shiftLeft s m (min_le_left e k),
        ← cast_apply_shiftLeft t n (min_le_right e k), ← add_mul, ← Int.cast_add]
      exact rounded_normalize ..

theorem rounded_sub (hx : HasValue x p) (hy : HasValue y q) : Rounded (x - y) (p - q) := by
  rw [sub_eq, sub_eq_add_neg]
  exact rounded_add hx hy.neg

theorem rounded_mul (hx : HasValue x p) (hy : HasValue y q) : Rounded (x * y) (p * q) := by
  obtain ⟨s, m, e, hx, rfl⟩ := hx
  obtain ⟨t, n, k, hy, rfl⟩ := hy
  show Rounded (.ofModel (.pack (.mul .binary64 x.toModel.unpack y.toModel.unpack))) _
  rw [signed_mul]
  cases hx with
  | zero hx =>
    rw [hx, Nat.cast_zero, zero_mul, zero_mul, signed_zero]
    cases hy with
    | zero hy => rw [hy]; exact (hasValue_pack_zero _).rounded
    | nonzero hc hy => rw [hy]; exact (hasValue_pack_zero _).rounded
  | nonzero hc hx =>
    rw [hx]
    cases hy with
    | zero hy =>
      rw [hy, Nat.cast_zero, zero_mul, mul_zero, signed_zero]
      exact (hasValue_pack_zero _).rounded
    | nonzero hc' hy =>
      have hbits : e + k ≤ -1074 ∨ 2 ^ 52 ≤ m * n := by
        rcases hc.normal with rfl | hm
        · rcases hc'.normal with rfl | hn
          · exact .inl (by decide)
          · exact .inr (hn.trans (Nat.le_mul_of_pos_left n hc.pos))
        · exact .inr (hm.trans (Nat.le_mul_of_pos_right m hc'.pos))
      have hvalue : (m * 2 ^ e : ℚ) * (n * 2 ^ k) = (m * n : ℕ) * 2 ^ (e + k) := by
        rw [zpow_add₀ two_ne_zero]
        push_cast
        ring
      rw [hy, hvalue]
      exact rounded_roundWithAccuracy (s * t) (located_exact (m * n)) (le_targetExponent hbits)

theorem rounded_div (hx : HasValue x p) (hy : HasValue y q) (hq : q ≠ 0) :
    Rounded (x / y) (p / q) := by
  obtain ⟨s, m, e, hx, rfl⟩ := hx
  obtain ⟨t, n, k, hy, rfl⟩ := hy
  show Rounded (.ofModel (.pack (.div .binary64 x.toModel.unpack y.toModel.unpack))) _
  cases hy with
  | zero hy => exact absurd (signed_zero_mul t _) hq
  | nonzero hc hy =>
    cases hx with
    | zero hx =>
      rw [hx, hy, signed_zero_mul, zero_div]
      exact (hasValue_pack_zero (s / t)).rounded
    | nonzero hc' hx =>
      obtain ⟨l, i, acc, z, hcore, hz, hi, hvalue⟩ := located_divCore hc'.pos hc.pos e k
      rw [hx, hy, signed_div, ← hvalue, div_finite_eq hcore]
      exact rounded_roundWithAccuracy (s / t) hz hi

/-- The square root of `q` and `r` have no double strictly between them. -/
structure Roots (q r : ℚ) : Prop where
  nonneg : 0 ≤ r
  ge : ∀ f, Representable f → f * f ≤ q → f ≤ r
  le : ∀ f, Representable f → 0 ≤ f → q ≤ f * f → r ≤ f

/-- A number with 105 bits or more has a root with 53. -/
theorem le_sqrt_shiftLeft {i : ℕ} (hm : 0 < m) (hlog : 104 ≤ m.log2 + i) :
    2 ^ 52 ≤ (m <<< i).sqrt := by
  rw [Nat.le_sqrt, Nat.shiftLeft_eq]
  calc 2 ^ 52 * 2 ^ 52 = 2 ^ 104 := by norm_num
    _ ≤ 2 ^ (m.log2 + i) := Nat.pow_le_pow_right (by decide) hlog
    _ = 2 ^ m.log2 * 2 ^ i := pow_add ..
    _ ≤ m * 2 ^ i := Nat.mul_le_mul_right _ (Nat.log2_self_le hm.ne')

/-- A root cut off at `2 ^ k`, and what the root is said to be from what is left over. -/
theorem exists_sqrtCore {l : ℕ}
    (hk : k = min (e / 2) (max ((totalExponent m e + 1) / 2 - 53) (-1074)))
    (hl : l = m <<< (e - 2 * k).toNat) :
    ∃ acc z, sqrtCore .binary64 m e = (l.sqrt, k, acc) ∧
      Located (.ofMantissaAndAccuracy l.sqrt acc) z ∧ (l = l.sqrt * l.sqrt → z = l.sqrt) := by
  have hk' : min (e.ediv 2) (Format.binary64.targetExponent ((totalExponent m e + 1).ediv 2)) = k :=
    hk.symm
  by_cases hrem : l - l.sqrt * l.sqrt = 0
  · exact ⟨.exact, l.sqrt, by rw [sqrtCore, hk', ← hl, if_pos hrem], located_exact _, fun _ => rfl⟩
  have hinexact {z : ℚ} (h : l = l.sqrt * l.sqrt) : z = l.sqrt := absurd (by omega) hrem
  by_cases hhalf : l - l.sqrt * l.sqrt ≤ l.sqrt
  · refine ⟨.inexact .lt, l.sqrt + 1 / 4, by rw [sqrtCore, hk', ← hl, if_neg hrem, if_pos hhalf],
      ?_, hinexact⟩
    show (l.sqrt : ℚ) < l.sqrt + 1 / 4 ∧ (l.sqrt + 1 / 4 : ℚ) < l.sqrt + 1 / 2
    constructor <;> linarith
  · refine ⟨.inexact .gt, l.sqrt + 3 / 4, by rw [sqrtCore, hk', ← hl, if_neg hrem, if_neg hhalf],
      ?_, hinexact⟩
    show (l.sqrt + 1 / 2 : ℚ) < l.sqrt + 3 / 4 ∧ (l.sqrt + 3 / 4 : ℚ) < l.sqrt + 1
    constructor <;> linarith

/-- Where a square root is cut off: `n` has at least 53 bits, unless `k` is the least exponent, and
`z` is where the root lies beyond it. -/
theorem located_sqrtCore (hm : 0 < m) (e : ℤ) :
    ∃ n k acc z, sqrtCore .binary64 m e = (n, k, acc) ∧
      Located (.ofMantissaAndAccuracy n acc) z ∧ (k ≤ -1074 ∨ 2 ^ 52 ≤ n) ∧
      (n * 2 ^ k : ℚ) * (n * 2 ^ k) ≤ m * 2 ^ e ∧
      (m * 2 ^ e : ℚ) < (n + 1) * 2 ^ k * ((n + 1) * 2 ^ k) ∧
      (m * 2 ^ e = (n * 2 ^ k : ℚ) * (n * 2 ^ k) → z = n) := by
  obtain ⟨k, hk⟩ : ∃ k, k = min (e / 2) (max ((totalExponent m e + 1) / 2 - 53) (-1074)) := ⟨_, rfl⟩
  obtain ⟨l, hl⟩ : ∃ l, l = m <<< (e - 2 * k).toNat := ⟨_, rfl⟩
  obtain ⟨acc, z, hcore, hz, hexact⟩ := exists_sqrtCore hk hl
  have hvalue : (m * 2 ^ e : ℚ) = l * (2 ^ k * 2 ^ k) := by
    rw [← zpow_add₀ two_ne_zero, ← two_mul, hl, cast_shiftLeft m (by omega)]
  have hscale (c : ℚ) : c * 2 ^ k * (c * 2 ^ k) = c * c * (2 ^ k * 2 ^ k) := by ring
  have hpow : (0 : ℚ) < 2 ^ k * 2 ^ k := mul_pos (two_zpow_pos k) (two_zpow_pos k)
  have hle := Nat.sqrt_le l
  have hlt := Nat.lt_succ_sqrt l
  refine ⟨l.sqrt, k, acc, z, hcore, hz, ?_, ?_, ?_, fun heq => hexact ?_⟩
  · by_cases hleast : k ≤ -1074
    · exact .inl hleast
    · rw [totalExponent] at hk
      exact .inr (hl ▸ le_sqrt_shiftLeft hm (by omega))
  · rw [hscale, hvalue]
    exact mul_le_mul_of_nonneg_right (by exact_mod_cast hle) hpow.le
  · rw [hscale, hvalue]
    exact mul_lt_mul_of_pos_right (by exact_mod_cast hlt) hpow
  · rw [hscale, hvalue, mul_left_inj' hpow.ne'] at heq
    exact_mod_cast heq

theorem sqrt_finite_eq {acc : Accuracy} {hm : 0 < m}
    (hcore : sqrtCore .binary64 m e = (n, k, acc)) :
    UnpackedFloat.sqrt .binary64 (.finite .positive m e hm) =
      roundWithAccuracy .binary64 .positive n k acc := by
  show (match sqrtCore .binary64 m e with
    | (n, k, acc) => roundWithAccuracy .binary64 .positive n k acc) = _
  rw [hcore]

/-- What a root is rounded to after it was cut off. -/
theorem Roots.of_cut {z : ℚ} (h : Rounds (z * 2 ^ k) r) (hn : n ≤ z) (hlt : z < n + 1)
    (hbits : k ≤ -1074 ∨ 2 ^ 52 ≤ n) (hlow : (n * 2 ^ k : ℚ) * (n * 2 ^ k) ≤ q)
    (hhigh : q < (n + 1) * 2 ^ k * ((n + 1) * 2 ^ k))
    (hexact : q = (n * 2 ^ k : ℚ) * (n * 2 ^ k) → z = n) : Roots q r := by
  have hpow := two_zpow_pos k
  have hn0 : (0 : ℚ) ≤ n * 2 ^ k := mul_nonneg (Nat.cast_nonneg n) hpow.le
  -- from the cut on, doubles have no bit below it
  have hgrid {f : ℚ} (hf : Representable f) (hle : n * 2 ^ k ≤ f) : OnGrid k f := by
    rcases hbits with hleast | hbits
    · exact hf.onGrid_least.mono hleast
    · have hcast : (2 : ℚ) ^ 52 ≤ n := by exact_mod_cast hbits
      have hlarge : 2 ^ (k + 52) ≤ |f| := by
        rw [two_zpow_add_52]
        exact ((mul_le_mul_of_nonneg_right hcast hpow.le).trans hle).trans (le_abs_self f)
      exact (hf.onGrid hlarge).mono (by omega)
  refine ⟨h.nonneg (mul_nonneg ((Nat.cast_nonneg n).trans hn) hpow.le), fun f hf hsq => ?_,
    fun f hf hf0 hsq => ?_⟩
  · refine h.ge hf (not_lt.1 fun hgt => ?_)
    have hcut : (n * 2 ^ k : ℚ) ≤ z * 2 ^ k := mul_le_mul_of_nonneg_right hn hpow.le
    obtain ⟨c, rfl⟩ := hgrid hf (hcut.trans hgt.le)
    have hzc : z < c := lt_of_mul_lt_mul_right hgt hpow.le
    have hnc : (n : ℤ) + 1 ≤ c := by exact_mod_cast hn.trans_lt hzc
    have hnc : (n + 1 : ℚ) ≤ c := by exact_mod_cast hnc
    have hle := mul_le_mul_of_nonneg_right hnc hpow.le
    have hsq' := mul_self_le_mul_self (by positivity) hle
    linarith
  · refine h.le hf (not_lt.1 fun hgt => ?_)
    have hnf : (n * 2 ^ k : ℚ) ≤ f := (mul_self_le_mul_self_iff hn0 hf0).2 (hlow.trans hsq)
    obtain ⟨c, rfl⟩ := hgrid hf hnf
    have hcz : (c : ℚ) < z := lt_of_mul_lt_mul_right hgt hpow.le
    have hnc : (n : ℚ) ≤ c := le_of_mul_le_mul_right hnf hpow
    have hnc : (n : ℤ) ≤ c := by exact_mod_cast hnc
    have hcn : c < (n : ℤ) + 1 := by exact_mod_cast hcz.trans hlt
    obtain rfl : c = n := by omega
    rw [Int.cast_natCast] at hsq hcz
    rw [hexact (le_antisymm hsq hlow)] at hcz
    exact lt_irrefl _ hcz

/-- The root of a double is not too large for a double. -/
theorem abs_cut_le {z : ℚ} (hn : n ≤ z) (hle : z ≤ n + 1) (hbits : k ≤ -1074 ∨ 2 ^ 52 ≤ n)
    (hlow : (n * 2 ^ k : ℚ) * (n * 2 ^ k) < 2 ^ (1024 : ℤ)) : |z * 2 ^ k| ≤ 2 ^ (1023 : ℤ) := by
  have hpow := two_zpow_pos k
  have hz : 0 ≤ z := (Nat.cast_nonneg n).trans hn
  have hsplit : (2 : ℚ) ^ (1024 : ℤ) = 2 ^ (512 : ℤ) * 2 ^ (512 : ℤ) := by
    rw [← zpow_add₀ two_ne_zero]
    rfl
  have hroot : (n * 2 ^ k : ℚ) < 2 ^ (512 : ℤ) :=
    lt_of_mul_self_lt_mul_self₀ (two_zpow_pos 512).le (hlow.trans_eq hsplit)
  have hunit : (2 : ℚ) ^ k ≤ 2 ^ (512 : ℤ) := by
    rcases hbits with hleast | hbits
    · exact zpow_le_zpow_right₀ one_le_two (by omega)
    · have hone : (1 : ℚ) ≤ n := by exact_mod_cast (by omega : 1 ≤ n)
      exact (le_mul_of_one_le_left hpow.le hone).trans hroot.le
  calc |z * 2 ^ k| = z * 2 ^ k := abs_of_nonneg (mul_nonneg hz hpow.le)
    _ ≤ (n + 1) * 2 ^ k := mul_le_mul_of_nonneg_right hle hpow.le
    _ = n * 2 ^ k + 2 ^ k := by ring
    _ ≤ 2 ^ (512 : ℤ) + 2 ^ (512 : ℤ) := add_le_add hroot.le hunit
    _ = 2 ^ (513 : ℤ) := by rw [← two_mul, ← zpow_one_add₀ two_ne_zero]; rfl
    _ ≤ 2 ^ (1023 : ℤ) := zpow_le_zpow_right₀ one_le_two (by decide)

theorem exists_root (hx : HasValue x q) (hq : 0 ≤ q) : ∃ r, HasValue x.sqrt r ∧ Roots q r := by
  obtain ⟨s, m, e, hx, rfl⟩ := hx
  show ∃ r, HasValue (.ofModel (.pack (.sqrt .binary64 x.toModel.unpack))) r ∧ Roots _ r
  cases hx with
  | zero hx =>
    rw [hx, signed_zero_mul]
    refine ⟨0, hasValue_pack_zero s, le_rfl, fun f _ hf => ?_, fun f _ hf _ => hf⟩
    exact (mul_self_eq_zero.1 (le_antisymm hf (mul_self_nonneg f))).le
  | nonzero hc hx =>
    have hpos := hc.value_pos
    obtain rfl : s = .positive := by
      cases s with
      | positive => rfl
      | negative => rw [signed] at hq; linarith
    obtain ⟨n, k, acc, z, hcore, hz, hbits, hlow, hhigh, hexact⟩ := located_sqrtCore hc.pos e
    have hbounds := hz.bounds
    have hround := rounded_roundWithAccuracy .positive hz (le_targetExponent hbits)
    rw [signed] at hround
    rw [signed, hx, sqrt_finite_eq hcore]
    have hrange := abs_cut_le hbounds.1 hbounds.2.le hbits (hlow.trans_lt hc.lt_two_zpow)
    obtain ⟨r, hr, hrounds⟩ := hround.exists_rounds hrange le_rfl
    exact ⟨r, hr, .of_cut hrounds hbounds.1 hbounds.2 hbits hlow hhigh hexact⟩

end ComplexExpr.Binary
