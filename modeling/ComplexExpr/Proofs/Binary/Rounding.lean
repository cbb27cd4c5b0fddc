import ComplexExpr.Proofs.Decimal.Power
import Mathlib.Tactic.FieldSimp
import Mathlib.Tactic.Linarith
import Mathlib.Tactic.NormNum
import Mathlib.Tactic.Push
import Mathlib.Tactic.Ring

/-!
# Rounding to doubles

Arithmetic on doubles rounds a mantissa that comes with two bits for what was
cut off it. `Located` is what the two bits say of the exact number, shifting
keeps it (`Located.shiftRight`), and what the bits are rounded to is the
nearest whole number (`Located.nearest`). Main statement:

* `roundWithAccuracy_eq`: a number among the reals that round to a double, cut
  off anywhere below its last bit, is rounded to that double.
-/

namespace ComplexExpr.Binary

open Float.Model (Format totalExponent)
open Float.Model.UnpackedFloat (ExtendedMantissa Accuracy shiftToExponent shiftToTargetExponent
  roundWithAccuracy)

/-! ## Doubles as mantissa and exponent -/

/-- `m · 2 ^ e` is a double, written in the one way that doubles are stored. -/
structure Canonical (m : ℕ) (e : ℤ) : Prop where
  pos : 0 < m
  lt : m < 2 ^ 53
  least : -1074 ≤ e
  most : e ≤ 971
  normal : e = -1074 ∨ 2 ^ 52 ≤ m

/-- Half the distance from `m · 2 ^ e` to the next lower double, in units of `2 ^ e`. -/
def halfBelow (m : ℕ) (e : ℤ) : ℚ := if m = 2 ^ 52 ∧ -1074 < e then 1 / 4 else 1 / 2

/-- `x` is one of the numbers that round to `m · 2 ^ e`, the ends among them if `m` is even. -/
structure RoundsTo (x : ℚ) (m : ℕ) (e : ℤ) : Prop where
  lower : m - halfBelow m e ≤ x / 2 ^ e
  upper : x / 2 ^ e ≤ m + 1 / 2
  even : x / 2 ^ e = m - halfBelow m e ∨ x / 2 ^ e = m + 1 / 2 → m % 2 = 0

theorem halfBelow_pos (m : ℕ) (e : ℤ) : 0 < halfBelow m e := by
  unfold halfBelow
  split <;> norm_num

theorem halfBelow_le (m : ℕ) (e : ℤ) : halfBelow m e ≤ 1 / 2 := by
  unfold halfBelow
  split <;> norm_num

/-- A double rounds to itself. -/
theorem roundsTo_self (m : ℕ) (e : ℤ) : RoundsTo (m * 2 ^ e) m e := by
  have hpos := halfBelow_pos m e
  have hm : (m * 2 ^ e : ℚ) / 2 ^ e = m := mul_div_cancel_right₀ _ (two_zpow_pos e).ne'
  refine ⟨?_, ?_, ?_⟩
  · rw [hm]; linarith
  · rw [hm]; linarith
  · rw [hm]
    rintro (h | h) <;> linarith

theorem RoundsTo.pos {x : ℚ} {m : ℕ} {e : ℤ} (h : RoundsTo x m e) (hm : 0 < m) : 0 < x := by
  have hle := halfBelow_le m e
  have hcast : (1 : ℚ) ≤ m := by exact_mod_cast hm
  have hlow := h.lower
  have hunits : 0 < x / 2 ^ e := by linarith
  have hprod := mul_pos hunits (two_zpow_pos e)
  rwa [div_mul_cancel₀ _ (two_zpow_pos e).ne'] at hprod

/-! ## Whole numbers nearest to a number -/

/-- `n` is the nearest whole number to `x`, and even if there are two. -/
structure Nearest (n : ℕ) (x : ℚ) : Prop where
  lower : n - 1 / 2 ≤ x
  upper : x ≤ n + 1 / 2
  even : x = n - 1 / 2 ∨ x = n + 1 / 2 → n % 2 = 0

theorem Nearest.le {n m : ℕ} {x : ℚ} (hn : Nearest n x) (hm : Nearest m x) : n ≤ m := by
  by_contra hlt
  have hle : n ≤ m + 1 := by
    have h : (n : ℚ) ≤ m + 1 := by linarith [hn.lower, hm.upper]
    exact_mod_cast h
  have heq : n = m + 1 := by omega
  have hlow := hn.lower
  have hup := hm.upper
  have hcast : (n : ℚ) = m + 1 := by rw [heq]; push_cast; rfl
  have hm2 := hm.even (.inr (by linarith))
  have hn2 := hn.even (.inl (by linarith))
  omega

theorem Nearest.unique {n m : ℕ} {x : ℚ} (hn : Nearest n x) (hm : Nearest m x) : n = m :=
  Nat.le_antisymm (hn.le hm) (hm.le hn)

/-! ## Mantissas that were cut off -/

/-- `x` lies between the mantissa and the next one, where the two bits say. -/
def Located (em : ExtendedMantissa) (x : ℚ) : Prop :=
  match em.roundBit, em.stickyBit with
  | false, false => x = em.mantissa
  | false, true => em.mantissa < x ∧ x < em.mantissa + 1 / 2
  | true, false => x = em.mantissa + 1 / 2
  | true, true => em.mantissa + 1 / 2 < x ∧ x < em.mantissa + 1

variable {em : ExtendedMantissa} {x : ℚ}

theorem Located.bounds {m : ℕ} {acc : Accuracy} (h : Located (.ofMantissaAndAccuracy m acc) x) :
    m ≤ x ∧ x < m + 1 := by
  rcases acc with - | (- | - | -) <;>
    simp only [Located, ExtendedMantissa.ofMantissaAndAccuracy] at h <;> constructor <;> linarith

theorem located_exact (m : ℕ) : Located (.ofMantissaAndAccuracy m .exact) m := rfl

/-- One bit less leaves the number where it was. -/
theorem Located.shiftRightOne (h : Located em x) : Located em.shiftRightOne (x / 2) := by
  obtain ⟨m, r, s⟩ := em
  have hm : (m : ℚ) = 2 * (m / 2 : ℕ) + (m % 2 : ℕ) := by
    exact_mod_cast (Nat.div_add_mod m 2).symm
  rcases Nat.mod_two_eq_zero_or_one m with h0 | h1
  · rw [h0] at hm
    cases r <;> cases s <;>
      simp only [Located, ExtendedMantissa.shiftRightOne, h0, bne_self_eq_false, Bool.or_self,
        Bool.or_true, Bool.or_false, hm, Nat.cast_zero] at h ⊢ <;>
      first | linarith | (constructor <;> linarith)
  · rw [h1] at hm
    cases r <;> cases s <;>
      simp only [Located, ExtendedMantissa.shiftRightOne, h1, show (1 != 0) = true from rfl,
        Bool.or_self, Bool.or_true, Bool.or_false, hm, Nat.cast_one] at h ⊢ <;>
      first | linarith | (constructor <;> linarith)

theorem Located.shiftRight (h : Located em x) (n : ℕ) : Located (em >>> n) (x / 2 ^ n) := by
  show Located (n.repeat ExtendedMantissa.shiftRightOne em) _
  induction n with
  | zero => simpa [Nat.repeat] using h
  | succ n ih =>
    have hstep := ih.shiftRightOne
    rwa [div_div, ← pow_succ] at hstep

theorem Located.nearest (h : Located em x) : Nearest em.roundedMantissa x := by
  obtain ⟨m, r, s⟩ := em
  rcases r with - | - <;> rcases s with - | - <;>
    simp only [Located, ExtendedMantissa.roundedMantissa, ExtendedMantissa.accuracy,
      Accuracy.roundToNearestEven] at h ⊢
  · exact ⟨by linarith, by linarith, by rintro (h' | h') <;> linarith⟩
  · exact ⟨by linarith, by linarith, by rintro (h' | h') <;> linarith⟩
  · rcases Nat.mod_two_eq_zero_or_one m with h0 | h1
    · rw [h0, Nat.add_zero]
      exact ⟨by linarith, by linarith, fun _ => h0⟩
    · rw [h1]
      refine ⟨by push_cast; linarith, by push_cast; linarith, fun _ => by omega⟩
  · refine ⟨by push_cast; linarith, by push_cast; linarith, ?_⟩
    rintro (h' | h') <;> push_cast at h' <;> linarith

/-! ## Shifting to the exponent of a double -/

theorem targetExponent_eq (k : ℤ) : Format.binary64.targetExponent k = max (k - 53) (-1074) := rfl

theorem lt_two_pow_totalExponent (m : ℕ) (e : ℤ) :
    ((m : ℚ) + 1) * 2 ^ e ≤ 2 ^ totalExponent m e := by
  have hlt : m + 1 ≤ 2 ^ (m.log2 + 1) := Nat.lt_log2_self
  have hcast : (m : ℚ) + 1 ≤ 2 ^ (m.log2 + 1) := by exact_mod_cast hlt
  calc ((m : ℚ) + 1) * 2 ^ e ≤ 2 ^ (m.log2 + 1) * 2 ^ e :=
        mul_le_mul_of_nonneg_right hcast (two_zpow_pos e).le
    _ = 2 ^ totalExponent m e := two_pow_mul_zpow (m.log2 + 1) e

theorem two_pow_totalExponent_le {m : ℕ} (hm : m ≠ 0) (e : ℤ) :
    (2 : ℚ) ^ (totalExponent m e - 1) ≤ m * 2 ^ e := by
  have hle : 2 ^ m.log2 ≤ m := Nat.log2_self_le hm
  have hcast : (2 : ℚ) ^ m.log2 ≤ m := by exact_mod_cast hle
  have hexp : totalExponent m e - 1 = m.log2 + e := by
    unfold totalExponent
    omega
  rw [hexp, ← two_pow_mul_zpow]
  exact mul_le_mul_of_nonneg_right hcast (two_zpow_pos e).le

/-- The exponent that a number is shifted to: at most 53 bits are left, and 53 unless the exponent
is the least. -/
structure Fits (x : ℚ) (t : ℤ) : Prop where
  least : -1074 ≤ t
  lt : x / 2 ^ t < 2 ^ 53
  normal : t = -1074 ∨ 2 ^ 52 ≤ x / 2 ^ t

/-- Cut off at `e`, a number is shifted to the exponent that fits it. -/
theorem shift_fits {m : ℕ} {e : ℤ} {acc : Accuracy} {y : ℚ}
    (hy : Located (.ofMantissaAndAccuracy m acc) y)
    (he : e ≤ Format.binary64.targetExponent (totalExponent m e)) :
    ∃ em t, shiftToTargetExponent .binary64 m e acc = (em, t) ∧
      Located em (y * 2 ^ e / 2 ^ t) ∧ Fits (y * 2 ^ e) t := by
  set t := Format.binary64.targetExponent (totalExponent m e) with ht
  have hn : e + ((t - e).toNat : ℤ) = t := by omega
  have hbounds := hy.bounds
  refine ⟨_, t, Prod.ext rfl hn, ?_, ?_, ?_, ?_⟩
  · have hshift := hy.shiftRight (t - e).toNat
    have hpow : (2 : ℚ) ^ t = 2 ^ (t - e).toNat * 2 ^ e := by
      rw [two_pow_mul_zpow, add_comm, hn]
    rwa [hpow, mul_div_mul_right _ _ (two_zpow_pos e).ne']
  · rw [ht, targetExponent_eq]
    exact le_max_right _ _
  · rw [div_lt_iff₀ (two_zpow_pos t)]
    calc y * 2 ^ e < (m + 1) * 2 ^ e := mul_lt_mul_of_pos_right hbounds.2 (two_zpow_pos e)
      _ ≤ 2 ^ totalExponent m e := lt_two_pow_totalExponent m e
      _ ≤ 2 ^ (53 + t) := zpow_le_zpow_right₀ (by norm_num) (by
          rw [targetExponent_eq] at ht
          omega)
      _ = 2 ^ 53 * 2 ^ t := (two_pow_mul_zpow 53 t).symm
  · by_cases hmin : t = -1074
    · exact .inl hmin
    · refine .inr ?_
      rw [targetExponent_eq] at ht
      have hm0 : m ≠ 0 := by
        rintro rfl
        rw [totalExponent, show Nat.log2 0 = 0 from rfl] at ht
        omega
      rw [le_div_iff₀ (two_zpow_pos t)]
      calc (2 : ℚ) ^ 52 * 2 ^ t = 2 ^ (52 + t) := two_pow_mul_zpow 52 t
        _ = 2 ^ (totalExponent m e - 1) := by rw [show 52 + t = totalExponent m e - 1 by omega]
        _ ≤ m * 2 ^ e := two_pow_totalExponent_le hm0 e
        _ ≤ y * 2 ^ e := mul_le_mul_of_nonneg_right hbounds.1 (two_zpow_pos e).le

/-- What was rounded is shifted again only if it became a power of two with a bit too many. -/
theorem shift_rounded {r : ℕ} {t : ℤ} (hr : r ≤ 2 ^ 53) (ht : -1074 ≤ t) :
    shiftToTargetExponent .binary64 r t .exact =
      if r < 2 ^ 53 then (⟨r, false, false⟩, t) else (⟨2 ^ 52, false, false⟩, t + 1) := by
  unfold shiftToTargetExponent
  rw [targetExponent_eq]
  split
  next hlt =>
    have hlog : r.log2 < 53 := by
      by_cases h0 : r = 0
      · rw [h0]; decide
      · exact (Nat.log2_lt h0).2 hlt
    have hzero : (max (totalExponent r t - 53) (-1074) - t).toNat = 0 := by
      unfold totalExponent
      omega
    rw [shiftToExponent, hzero]
    exact Prod.ext rfl (Int.add_zero t)
  next hge =>
    obtain rfl : r = 2 ^ 53 := by omega
    have hone : (max (totalExponent (2 ^ 53) t - 53) (-1074) - t).toNat = 1 := by
      rw [totalExponent, Nat.log2_two_pow]
      omega
    rw [shiftToExponent, hone]
    rfl

/-! ## Rounding -/

theorem units_le {x : ℚ} (hx : 0 ≤ x) {a b : ℤ} {n : ℕ} (h : a + n ≤ b) :
    x / 2 ^ b * 2 ^ n ≤ x / 2 ^ a := by
  rw [div_mul_eq_mul_div, div_le_div_iff₀ (two_zpow_pos b) (two_zpow_pos a), mul_assoc,
    two_pow_mul_zpow]
  exact mul_le_mul_of_nonneg_left (zpow_le_zpow_right₀ one_le_two (by omega)) hx

/-- Below the exponent of a double, a number that rounds to it fits the next exponent only, and lies
just below a power of two. -/
theorem RoundsTo.fits_below {m : ℕ} {e t : ℤ} (hx : RoundsTo x m e) (hc : Canonical m e)
    (ht : Fits x t) (hlt : t < e) : t + 1 = e ∧ m = 2 ^ 52 ∧ Nearest (2 ^ 53) (x / 2 ^ t) := by
  have hmin : -1074 < e := ht.least.trans_lt hlt
  have hn : 2 ^ 52 ≤ m := hc.normal.resolve_left hmin.ne'
  have hlow := hx.lower
  have hhalf := halfBelow_le m e
  have hunits := ht.lt
  have hdouble := units_le (hx.pos hc.pos).le (n := 1) hlt
  -- below `2 ^ 52` units of `2 ^ e`, only the numbers next to that bound round to `m`
  have hm52 : m = 2 ^ 52 := by
    have h : (m : ℚ) < 2 ^ 52 + 1 := by linarith
    have h' : m < 2 ^ 52 + 1 := by exact_mod_cast h
    omega
  have hquarter : halfBelow m e = 1 / 4 := if_pos ⟨hm52, hmin⟩
  rw [hquarter, hm52] at hlow
  push_cast at hlow
  have hstep : t + 1 = e := by
    by_contra hne
    have hfour := units_le (hx.pos hc.pos).le (n := 2) (show t + (2 : ℕ) ≤ e by omega)
    linarith
  refine ⟨hstep, hm52, ?_, ?_, fun _ => by norm_num⟩
  · push_cast
    linarith
  · push_cast
    linarith

/-- A number that rounds to a double fits its exponent, or it lies just below a power of two and
the exponent that fits is one less. -/
theorem RoundsTo.fits {m : ℕ} {e t : ℤ} (hx : RoundsTo x m e) (hc : Canonical m e)
    (ht : Fits x t) :
    (t = e ∧ Nearest m (x / 2 ^ t)) ∨ (t + 1 = e ∧ m = 2 ^ 52 ∧ Nearest (2 ^ 53) (x / 2 ^ t)) := by
  have hlow := hx.lower
  have hup := hx.upper
  have hhalf := halfBelow_le m e
  rcases lt_trichotomy t e with hlt | rfl | hgt
  · exact .inr (hx.fits_below hc ht hlt)
  · refine .inl ⟨rfl, by linarith, hup, ?_⟩
    rintro (h | h)
    · exact hx.even (.inl (by linarith))
    · exact hx.even (.inr h)
  · exfalso
    have hm : (m : ℚ) + 1 ≤ 2 ^ 53 := by exact_mod_cast hc.lt
    have hn : (2 : ℚ) ^ 52 ≤ x / 2 ^ t := ht.normal.resolve_left (by have := hc.least; omega)
    have hdouble := units_le (hx.pos hc.pos).le (n := 1) hgt
    linarith

/-- A number that rounds to a double and that is cut off above no bit of it is rounded to it. -/
theorem roundWithAccuracy_eq {m n : ℕ} {e k : ℤ} {acc : Accuracy} {y : ℚ} (hc : Canonical m e)
    (s : Float.Model.UnpackedFloat.Sign) (hy : Located (.ofMantissaAndAccuracy n acc) y)
    (hk : k ≤ Format.binary64.targetExponent (totalExponent n k))
    (hx : RoundsTo (y * 2 ^ k) m e) :
    roundWithAccuracy .binary64 s n k acc = .finite s m e hc.pos := by
  obtain ⟨em, t, hshift, hloc, hfits⟩ := shift_fits hy hk
  have hnear := hloc.nearest
  unfold roundWithAccuracy
  rw [hshift]
  dsimp only
  rcases hx.fits hc hfits with ⟨rfl, hm⟩ | ⟨rfl, rfl, hm⟩
  · rw [hnear.unique hm, shift_rounded hc.lt.le hfits.least, if_pos hc.lt]
    exact dif_neg hc.pos.ne'
  · rw [hnear.unique hm, shift_rounded le_rfl hfits.least, if_neg (lt_irrefl _)]
    rfl

end ComplexExpr.Binary
