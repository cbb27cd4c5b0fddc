import ComplexExpr.Decimal.Numeral
import ComplexExpr.Proofs.Binary.Scientific
import ComplexExpr.Proofs.Decimal.Layout
import ComplexExpr.Proofs.Decimal.Shortest

/-!
# Written doubles read back

A numeral whose value rounds to a double is read as that double, with the sign
that is written (`hasParts_toFloat`). The text of a double without its sign
denotes such a value (`exists_denotes_unsigned`), and so do the digits of a
whole double (`readsAs_whole`). Main statement:

* `exists_numeral_write`: the text of a finite double is a numeral that is
  read as the double.
-/

namespace ComplexExpr.Binary

open Float.Model (UnpackedFloat)

/-- The numbers that are read as the double `m · 2 ^ e`: of zero, zero alone. -/
inductive ReadsAs (q : ℚ) : ℕ → ℤ → Prop
  | zero (h : q = 0) : ReadsAs q 0 (-1074)
  | nonzero {m e} (hc : Canonical m e) (h : RoundsTo q m e) : ReadsAs q m e

/-- The sign that a written sign stands for. -/
def signOf : Option Sign → UnpackedFloat.Sign
  | some .minus => .negative
  | _ => .positive

/-! ## Reading -/

variable {x : Float} {s : UnpackedFloat.Sign} {m : ℕ} {e : ℤ} {q : ℚ}

theorem hasParts_toFloat {n : Numeral} (h : ReadsAs n.magnitude m e) :
    HasParts n.toFloat (signOf n.sign) m e := by
  have hmag : HasParts (Decimal.magnitude n.toDecimal.coefficient n.toDecimal.exponent) .positive
      m e := by
    cases h with
    | zero h =>
      have hcoeff : n.toDecimal.coefficient = 0 := by
        have hten := (ten_zpow_pos n.toDecimal.exponent).ne'
        exact_mod_cast (mul_eq_zero.1 h).resolve_right hten
      rw [Decimal.magnitude, if_pos hcoeff]
      exact .zero rfl
    | nonzero hc h => exact hasParts_magnitude hc h
  have hfloat : n.toFloat = if n.sign == some .minus then
      -Decimal.magnitude n.toDecimal.coefficient n.toDecimal.exponent
      else Decimal.magnitude n.toDecimal.coefficient n.toDecimal.exponent := rfl
  rw [hfloat]
  rcases n.sign with - | - | -
  · exact hmag
  · exact hmag
  · exact hmag.neg

/-- A sign before an unsigned numeral makes it a numeral with that sign. -/
theorem exists_signed {cs : List Char} (h : Denotes cs q) (sign : Option Sign) :
    ∃ n : Numeral, n.WellFormed ∧ n.sign = sign ∧ n.toChars = Sign.text sign ++ cs ∧
      n.magnitude = q := by
  obtain ⟨n, hn, hsign, rfl, rfl⟩ := h
  refine ⟨{ n with sign }, ⟨hn.hasDigit, hn.whole, hn.fraction, hn.power⟩, rfl, ?_, rfl⟩
  rw [Numeral.toChars_eq, Numeral.toChars_eq, hsign]
  rfl

/-- A text that denotes a magnitude, after any sign, is read as the double of both. -/
theorem ReadsAs.exists_numeral {cs : List Char} (h : ReadsAs q m e) (hden : Denotes cs q)
    (sign : Option Sign) :
    ∃ n : Numeral, n.WellFormed ∧ n.sign = sign ∧ n.toChars = Sign.text sign ++ cs ∧
      HasParts n.toFloat (signOf sign) m e := by
  obtain ⟨n, hn, rfl, htext, rfl⟩ := exists_signed hden sign
  exact ⟨n, hn, rfl, htext, hasParts_toFloat h⟩

/-! ## Writing -/

/-- What a layout writes for `m · 2 ^ e`. -/
def unsignedText (l : Layout) (m : ℕ) (e : ℤ) : List Char :=
  if m = 0 then Layout.positional ['0'] 1
  else l.number (Shortest.Target.decimal ⟨m, e⟩).1 (Shortest.Target.decimal ⟨m, e⟩).2

theorem toList_write (l : Layout) (negative : Bool) (m : ℕ) (e : ℤ) :
    (l.write (.finite negative m e)).toList =
      (if negative then ['-'] else []) ++ unsignedText l m e := by
  unfold Layout.write unsignedText
  cases negative <;> simp

/-- A double, as it is written without its sign, is read as itself. -/
theorem exists_denotes_unsigned (l : Layout) (h : HasParts x s m e) :
    ∃ q, Denotes (unsignedText l m e) q ∧ ReadsAs q m e := by
  unfold unsignedText
  split
  next h0 =>
    subst h0
    refine ⟨_, Layout.denotes_positional (by simp [Digits]) (by simp) 1, ?_⟩
    cases h with
    | zero h => exact .zero (by simp [Decimal.ofDigits])
    | nonzero hc h => exact absurd rfl hc.pos.ne
  next h0 =>
    have hc := h.canonical h0
    exact ⟨_, l.denotes_number _ _, .nonzero hc (Shortest.Target.decimal_roundsTo (t := ⟨m, e⟩) hc)⟩

theorem signOf_isNegative (s : UnpackedFloat.Sign) :
    signOf (if isNegative s then some .minus else none) = s := by
  cases s <;> rfl

/-- A written double is a numeral that is read as the double. -/
theorem exists_numeral_write (l : Layout) (h : HasParts x s m e) :
    ∃ n : Numeral, n.WellFormed ∧ n.toChars = (l.write (ofFloat x)).toList ∧
      HasParts n.toFloat s m e := by
  obtain ⟨q, hden, hreads⟩ := exists_denotes_unsigned l h
  obtain ⟨n, hn, -, htext, hparts⟩ :=
    hreads.exists_numeral hden (if isNegative s then some .minus else none)
  rw [signOf_isNegative] at hparts
  refine ⟨n, hn, ?_, hparts⟩
  rw [htext, h.ofFloat_eq, toList_write]
  cases s <;> rfl

/-! ## Whole doubles -/

/-- The whole number that `m · 2 ^ e` is, if it is one. -/
def whole? (m : ℕ) (e : ℤ) : Option ℕ :=
  if 0 ≤ e then some (m * 2 ^ e.toNat)
  else if m % 2 ^ (-e).toNat = 0 then some (m / 2 ^ (-e).toNat) else none

theorem toInt?_eq (negative : Bool) (m : ℕ) (e : ℤ) :
    (Binary.finite negative m e).toInt? =
      (whole? m e).map fun n : ℕ => if negative then -(n : ℤ) else n := by
  show Option.map _ (do pure ((← whole? m e : ℕ) : ℤ)) = _
  cases whole? m e <;> rfl

theorem whole?_eq_some {n : ℕ} (h : whole? m e = some n) : (n : ℚ) = m * 2 ^ e := by
  unfold whole? at h
  split at h
  next he =>
    cases h
    push_cast
    rw [← zpow_natCast, Int.toNat_of_nonneg he]
  next he =>
    split at h
    next hmod =>
      cases h
      have hdiv : m / 2 ^ (-e).toNat * 2 ^ (-e).toNat = m :=
        Nat.div_mul_cancel (Nat.dvd_of_mod_eq_zero hmod)
      have hcast : ((m / 2 ^ (-e).toNat : ℕ) : ℚ) * 2 ^ (-e).toNat = m := by exact_mod_cast hdiv
      rw [zpow_eq_div two_ne_zero, show e.toNat = 0 by omega, pow_zero, mul_one_div, ← hcast,
        mul_div_cancel_right₀ _ (by positivity)]
    next => cases h

theorem readsAs_whole {n : ℕ} (h : HasParts x s m e) (hn : whole? m e = some n) :
    ReadsAs n m e := by
  rw [whole?_eq_some hn]
  cases h with
  | zero h => exact .zero (by simp)
  | nonzero hc h => exact .nonzero hc (roundsTo_self m e)

end ComplexExpr.Binary
