import ComplexExpr.Decimal.Layout
import ComplexExpr.Proofs.Decimal.Numeral
import ComplexExpr.Proofs.Decimal.Power

/-!
# Written decimals are numerals

What a layout writes for a decimal is the text of an unsigned numeral with the
same value (`Denotes`), in positional notation and with a power of ten alike.
Main statements:

* `denotes_number`: the text of `n · 10 ^ k` denotes that number;
* `denotes_toDigits`: the digits of a whole number denote it.
-/

namespace ComplexExpr

/-! ## Rows of digits -/

namespace Decimal

theorem ofDigits_eq (ds : List Char) : ofDigits ds = Nat.ofDigitChars 10 ds 0 :=
  Nat.ofDigitChars_eq_foldl.symm

theorem ofDigits_append (a b : List Char) :
    ofDigits (a ++ b) = ofDigits a * 10 ^ b.length + ofDigits b := by
  rw [ofDigits_eq, Nat.ofDigitChars_append, Nat.ofDigitChars_eq_ofDigitChars_zero, ← ofDigits_eq,
    ← ofDigits_eq, Nat.mul_comm]

theorem ofDigits_zeros (n : ℕ) : ofDigits (List.replicate n '0') = 0 := by
  rw [ofDigits_eq, Nat.ofDigitChars_replicate_zero, Nat.mul_zero]

theorem ofDigits_toDigits (n : ℕ) : ofDigits (Nat.toDigits 10 n) = n := by
  rw [ofDigits_eq, Nat.ofDigitChars_ten_toDigits]

end Decimal

theorem digits_toDigits (n : ℕ) : Digits (Nat.toDigits 10 n) :=
  fun _ h => Nat.isDigit_of_mem_toDigits (by decide) (by decide) h

theorem digits_zeros (n : ℕ) : Digits (List.replicate n '0') := by
  intro c hc
  rw [List.eq_of_mem_replicate hc]
  rfl

/-! ## Unsigned numerals -/

/-- The value of a numeral without its sign. -/
def Numeral.magnitude (n : Numeral) : ℚ := n.toDecimal.coefficient * 10 ^ n.toDecimal.exponent

/-- The text is that of an unsigned numeral of the value `x`. -/
def Denotes (cs : List Char) (x : ℚ) : Prop :=
  ∃ n : Numeral, n.WellFormed ∧ n.sign = none ∧ n.toChars = cs ∧ n.magnitude = x

theorem Denotes.of_eq {cs cs' : List Char} {x y : ℚ} (h : Denotes cs x) (hcs : cs = cs')
    (hx : x = y) : Denotes cs' y := by
  subst hcs hx
  exact h

open Decimal (ofDigits ofDigits_append ofDigits_zeros ofDigits_toDigits)

/-- Digits with a point somewhere denote what they denote without, times a power of ten. -/
theorem denotes_point {a b : List Char} (ha : Digits a) (hb : Digits b) (hne : a ≠ []) :
    Denotes (a ++ '.' :: b) (ofDigits (a ++ b) * 10 ^ (-b.length : ℤ)) := by
  refine ⟨⟨none, a, some b, none⟩, ⟨.inl hne, ha, ?_, nofun⟩, rfl, ?_, ?_⟩
  · rintro _ ⟨⟩
    exact hb
  · simp [Numeral.toChars]
  · simp [Numeral.magnitude, Numeral.toDecimal]

/-- The digits of a whole number denote it. -/
theorem denotes_toDigits (n : ℕ) : Denotes (Nat.toDigits 10 n) n := by
  refine ⟨⟨none, Nat.toDigits 10 n, none, none⟩,
    ⟨.inl Nat.toDigits_ne_nil, digits_toDigits n, nofun, nofun⟩, rfl, ?_, ?_⟩
  · simp [Numeral.toChars]
  · simp [Numeral.magnitude, Numeral.toDecimal, ofDigits_toDigits]

namespace Layout

variable {ds : List Char}

theorem denotes_positional (h : Digits ds) (hne : ds ≠ []) (point : ℤ) :
    Denotes (positional ds point) (ofDigits ds * 10 ^ (point - ds.length)) := by
  have hzero : Digits ['0'] := by simp [Digits]
  unfold positional
  split
  next hpoint =>
    refine (denotes_point hzero ((digits_zeros (-point).toNat).append h) (by simp)).of_eq rfl ?_
    rw [ofDigits_append, ofDigits_append, ofDigits_zeros, List.length_append,
      List.length_replicate, show (-((-point).toNat + ds.length : ℕ) : ℤ) = point - ds.length by omega]
    simp [ofDigits]
  next hpoint =>
    dsimp only
    by_cases hlen : ds.length ≤ point.toNat
    · -- all digits stand before the point, with zeros after them
      have hden := denotes_point (h.append (digits_zeros (point.toNat - ds.length))) hzero
        (by simp [hne])
      rw [List.drop_eq_nil_of_le hlen, List.take_of_length_le hlen]
      refine hden.of_eq rfl ?_
      have hexp : (10 : ℚ) ^ (point - ds.length) = 10 ^ (point.toNat - ds.length) := by
        rw [← zpow_natCast]
        congr 1
        omega
      rw [ofDigits_append, ofDigits_append, ofDigits_zeros, List.length_replicate, hexp]
      simp [ofDigits]
    · have hden := denotes_point (a := ds.take point.toNat) (b := ds.drop point.toNat)
        (fun c hc => h c (List.mem_of_mem_take hc)) (fun c hc => h c (List.mem_of_mem_drop hc))
        (by simp [hne]; omega)
      have hdrop : (ds.drop point.toNat).isEmpty = false := by
        rw [List.isEmpty_eq_false_iff, ne_eq, List.drop_eq_nil_iff]
        omega
      rw [hdrop, show point.toNat - ds.length = 0 by omega]
      refine hden.of_eq (by simp) ?_
      rw [List.take_append_drop, List.length_drop,
        show (-(ds.length - point.toNat : ℕ) : ℤ) = point - ds.length by omega]

theorem digits_padded (width n : ℕ) : Digits (padded width n) :=
  (digits_zeros _).append (digits_toDigits n)

theorem ofDigits_padded (width n : ℕ) : ofDigits (padded width n) = n := by
  rw [padded, ofDigits_append, ofDigits_zeros, ofDigits_toDigits, Nat.zero_mul, Nat.zero_add]

theorem padded_ne_nil (width n : ℕ) : padded width n ≠ [] := by
  simp [padded, Nat.toDigits_ne_nil]

theorem denotes_scientific (l : Layout) (h : Digits ds) (hne : ds ≠ []) (exponent : ℤ) :
    Denotes (l.scientific ds exponent) (ofDigits ds * 10 ^ (exponent - ds.length + 1)) := by
  obtain ⟨c, cs, rfl⟩ := List.exists_cons_of_ne_nil hne
  let power : PowerOfTen := ⟨false, some (if exponent < 0 then .minus else .plus),
    padded l.exponentWidth exponent.natAbs⟩
  have hpower : power.toInt = exponent := by
    have hpad := ofDigits_padded l.exponentWidth exponent.natAbs
    unfold PowerOfTen.toInt
    by_cases hneg : exponent < 0
    · simp only [power, if_pos hneg, hpad]
      omega
    · simp only [power, if_neg hneg, hpad]
      omega
  have hw : ∀ p ∈ some power, p.WellFormed := by
    rintro _ ⟨⟩
    exact ⟨digits_padded _ _, padded_ne_nil _ _⟩
  have hc : Digits [c] := fun d hd => h d (List.mem_of_mem_take (i := 1) hd)
  have hcs : Digits cs := fun d hd => h d (List.mem_cons_of_mem c hd)
  have hsign : (if exponent < 0 then Sign.minus else .plus).toChar =
      if exponent < 0 then '-' else '+' := by
    split <;> rfl
  by_cases hlen : cs = []
  · subst hlen
    refine ⟨⟨none, [c], none, power⟩, ⟨.inl (by simp), hc, nofun, hw⟩, rfl, ?_, ?_⟩
    · simp [Numeral.toChars, PowerOfTen.toChars, scientific, power, hsign]
    · simp [Numeral.magnitude, Numeral.toDecimal, hpower]
  · refine ⟨⟨none, [c], some cs, power⟩, ⟨.inl (by simp), hc, ?_, hw⟩, rfl, ?_, ?_⟩
    · rintro _ ⟨⟩
      exact hcs
    · have hpos := List.length_pos_iff.2 hlen
      simp [Numeral.toChars, PowerOfTen.toChars, scientific, power, hsign, hlen]
    · simp [Numeral.magnitude, Numeral.toDecimal, hpower]
      exact .inl (by omega)

/-- The text of a positive decimal denotes it. -/
theorem denotes_number (l : Layout) (n : ℕ) (k : ℤ) : Denotes (l.number n k) (n * 10 ^ k) := by
  have hds := digits_toDigits n
  have hne : Nat.toDigits 10 n ≠ [] := Nat.toDigits_ne_nil
  unfold number
  dsimp only
  split
  · refine (denotes_positional hds hne _).of_eq rfl ?_
    rw [ofDigits_toDigits, sub_add_cancel, add_sub_cancel_right]
  · refine (l.denotes_scientific hds hne _).of_eq rfl ?_
    rw [ofDigits_toDigits]
    congr 2
    omega

end Layout

end ComplexExpr
