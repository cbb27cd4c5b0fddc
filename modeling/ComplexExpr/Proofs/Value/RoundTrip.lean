import ComplexExpr.Proofs.Binary.ReadBack
import ComplexExpr.Proofs.Value.Literal

/-!
# Texts of values read back

Every finite value is written as a literal whose parts are read as the parts
of the value (`exists_literal_toText`), so its text reads back
(`ofText_toText`), and the text tells apart what is not numerically equal.
-/

namespace ComplexExpr.Value

open Float.Model (UnpackedFloat)
open Binary (HasParts isNegative whole? whole?_eq_some toInt?_eq unsignedText toList_write signOf
  Same)

variable {x y : Float} {s t : UnpackedFloat.Sign} {m n : ℕ} {e k : ℤ}

/-! ## The text of one part -/

/-- The text of a part without its sign. -/
def magnitudeText (m : ℕ) (e : ℤ) : List Char :=
  match whole? m e with
  | some n => if n < 10 ^ 16 then Nat.toDigits 10 n else unsignedText .plain m e
  | none => unsignedText .plain m e

/-- The sign that a part is written with: zero has none. -/
def writtenSign : UnpackedFloat.Sign → ℕ → Option Sign
  | .negative, _ + 1 => some .minus
  | _, _ => none

theorem writtenSign_of_ne (s : UnpackedFloat.Sign) (h : m ≠ 0) :
    writtenSign s m = if isNegative s then some .minus else none := by
  obtain ⟨m, rfl⟩ := Nat.exists_eq_succ_of_ne_zero h
  cases s <;> rfl

theorem writtenSign_zero (s : UnpackedFloat.Sign) : writtenSign s 0 = none := by
  cases s <;> rfl

/-- A whole number is written with a sign if it is negative. -/
theorem toList_toString (s : UnpackedFloat.Sign) (n : ℕ) :
    (toString (if isNegative s then -(n : ℤ) else n)).toList =
      Sign.text (writtenSign s n) ++ Nat.toDigits 10 n := by
  rw [Int.toString_eq_repr, Int.repr_eq_if]
  by_cases hn : n = 0
  · subst hn
    rw [writtenSign_zero, Nat.cast_zero, neg_zero, ite_self]
    rfl
  · rw [writtenSign_of_ne s hn]
    cases isNegative s with
    | false =>
      rw [if_neg Bool.false_ne_true, if_pos (Int.natCast_nonneg n), Int.toNat_natCast,
        Nat.toList_repr]
      rfl
    | true =>
      rw [if_pos rfl, if_neg (by omega), neg_neg, Int.toNat_natCast, String.toList_append,
        Nat.toList_repr]
      rfl

theorem whole?_eq_zero_iff (h : whole? m e = some n) : n = 0 ↔ m = 0 := by
  have hvalue := whole?_eq_some h
  have hpow := (two_zpow_pos e).ne'
  rw [← Nat.cast_eq_zero (R := ℚ), hvalue, mul_eq_zero, or_iff_left hpow, Nat.cast_eq_zero]

theorem whole?_zero (e : ℤ) : whole? 0 e = some 0 := by
  unfold whole?
  split <;> simp

/-- The text of a part is that of its magnitude, after its sign. -/
theorem toList_partText (h : HasParts x s m e) :
    (partText x).toList = Sign.text (writtenSign s m) ++ magnitudeText m e := by
  have hlayout (hm : m ≠ 0) :
      (decimalText x).toList = Sign.text (writtenSign s m) ++ unsignedText .plain m e := by
    rw [decimalText, h.ofFloat_eq, toList_write, writtenSign_of_ne s hm]
    cases s <;> rfl
  unfold partText magnitudeText
  rw [h.ofFloat_eq, toInt?_eq]
  cases hw : whole? m e with
  | none =>
    refine hlayout ?_
    rintro rfl
    rw [whole?_zero] at hw
    cases hw
  | some n =>
    have hzero := whole?_eq_zero_iff hw
    have habs : (if isNegative s then -(n : ℤ) else n).natAbs = n := by split <;> omega
    simp only [Option.map_some, habs, Nat.pow_eq]
    by_cases hn : n < 10 ^ 16
    · have hsign : writtenSign s n = writtenSign s m := by
        by_cases hm : m = 0
        · rw [hm, hzero.2 hm]
        · rw [writtenSign_of_ne s hm, writtenSign_of_ne s (mt hzero.1 hm)]
      rw [if_pos hn, if_pos hn, toList_toString, hsign]
    · rw [if_neg hn, if_neg hn]
      exact hlayout fun hm => hn (by rw [hzero.2 hm]; decide)

/-- The text of a magnitude denotes a value that is read as the part. -/
theorem exists_denotes_magnitude (h : HasParts x s m e) :
    ∃ q, Denotes (magnitudeText m e) q ∧ Binary.ReadsAs q m e := by
  unfold magnitudeText
  split
  next n hn =>
    split
    · exact ⟨n, denotes_toDigits n, Binary.readsAs_whole h hn⟩
    · exact Binary.exists_denotes_unsigned .plain h
  next => exact Binary.exists_denotes_unsigned .plain h

/-- A magnitude after any sign, or after none, is a numeral that is read as the part with that
sign. -/
theorem exists_numeral (h : HasParts x s m e) (sign : Option Sign) :
    ∃ n : Numeral, n.WellFormed ∧ n.sign = sign ∧
      n.toChars = Sign.text sign ++ magnitudeText m e ∧
      HasParts n.toFloat (signOf sign) m e := by
  obtain ⟨q, hden, hreads⟩ := exists_denotes_magnitude h
  exact hreads.exists_numeral hden sign

/-! ## Values that are numerically equal -/

theorem partText_congr : Same x y → partText x = partText y := by
  rintro ⟨s, t, m, e, hx, hy, h⟩
  rw [← String.toList_inj, toList_partText hx, toList_partText hy]
  rcases h with rfl | rfl
  · rw [writtenSign_zero, writtenSign_zero]
  · rfl

theorem unitText_congr (h : Same x y) : unitText x = unitText y := by
  rw [unitText, unitText, h.beq_one, partText_congr h]

/-- Values with numerically equal parts have the same text. -/
theorem toText_congr {z w : Value} (hre : Same z.re w.re) (him : Same z.im w.im) :
    z.toText = w.toText := by
  unfold toText
  rw [him.beq_zero, hre.beq_zero, him.beq_neg_one, unitText_congr him, unitText_congr him.abs,
    partText_congr hre]
  simp only [him.zero_le_iff]

/-! ## Texts of values are literals -/

theorem same_zero (h : HasParts x s 0 e) : Same 0.0 x := by
  obtain rfl := h.exponent_of_zero
  exact ⟨.positive, s, 0, -1074, .zero rfl, h, .inl rfl⟩

/-- A part, as it is written, is a numeral that is read as the part. -/
theorem exists_numeral_partText (h : HasParts x s m e) :
    ∃ n : Numeral, n.WellFormed ∧ n.toChars = (partText x).toList ∧ Same n.toFloat x := by
  obtain ⟨n, hn, -, htext, hparts⟩ := exists_numeral h (writtenSign s m)
  refine ⟨n, hn, htext.trans (toList_partText h).symm, _, _, m, e, hparts, h, ?_⟩
  by_cases hm : m = 0
  · exact .inl hm
  · rw [writtenSign_of_ne s hm]
    exact .inr (Binary.signOf_isNegative s)

theorem toList_unitText (h : (x == 1.0) = false) : (unitText x).toList = (partText x).toList ++ ['i'] := by
  rw [unitText, h, if_neg Bool.false_ne_true, String.toList_append]
  rfl

/-- The factor of `i` without a real part, as it is written. -/
theorem exists_factor_alone (h : HasParts x s m e) :
    ∃ f : Factor, f.text ++ ['i'] = (if x == -1.0 then "-i" else unitText x).toList ∧
      Same f.value x := by
  by_cases hneg : (x == -1.0) = true
  · obtain ⟨rfl, rfl, rfl⟩ := h.beq_neg_one.1 hneg
    rw [if_pos hneg]
    exact ⟨.one (some .minus), rfl, _, _, _, _, HasParts.one.neg, h, .inr rfl⟩
  rw [if_neg hneg]
  by_cases hone : (x == 1.0) = true
  · obtain ⟨rfl, rfl, rfl⟩ := h.beq_one.1 hone
    rw [unitText, if_pos hone]
    exact ⟨.one none, rfl, _, _, _, _, .one, h, .inr rfl⟩
  · obtain ⟨n, hn, htext, hsame⟩ := exists_numeral_partText h
    rw [toList_unitText (Bool.eq_false_iff.2 hone), ← htext]
    exact ⟨.numeral n hn, rfl, hsame⟩

/-- The factor of `i` after a real part, as it is written. -/
theorem exists_factor_signed (h : HasParts x s m e) (hm : m ≠ 0) :
    ∃ f : Factor, f.sign ≠ none ∧
      f.text ++ ['i'] = ((if 0.0 ≤ x then "+" else "-") ++ unitText x.abs).toList ∧
      Same f.value x := by
  obtain ⟨sign, hchar, hsign⟩ : ∃ sign : Sign,
      (if 0.0 ≤ x then "+" else "-").toList = [sign.toChar] ∧ signOf (some sign) = s := by
    by_cases hle : 0.0 ≤ x
    · exact ⟨.plus, by rw [if_pos hle]; rfl, ((h.zero_le_iff.1 hle).resolve_left hm).symm⟩
    · refine ⟨.minus, by rw [if_neg hle]; rfl, ?_⟩
      cases s with
      | negative => rfl
      | positive => exact absurd (h.zero_le_iff.2 (.inr rfl)) hle
  subst hsign
  rw [String.toList_append, hchar]
  by_cases hone : (x.abs == 1.0) = true
  · obtain ⟨-, rfl, rfl⟩ := h.abs.beq_one.1 hone
    refine ⟨.one (some sign), Option.some_ne_none sign, ?_, ?_⟩
    · rw [unitText, if_pos hone]
      rfl
    · cases sign with
      | plus => exact ⟨_, _, _, _, .one, h, .inr rfl⟩
      | minus => exact ⟨_, _, _, _, HasParts.one.neg, h, .inr rfl⟩
  · obtain ⟨n, hn, hnsign, htext, hparts⟩ := exists_numeral h (some sign)
    refine ⟨.numeral n hn, ?_, ?_, _, _, m, e, hparts, h, .inr rfl⟩
    · rw [Factor.sign, hnsign]
      exact Option.some_ne_none sign
    · rw [toList_unitText (Bool.eq_false_iff.2 hone), toList_partText h.abs, Factor.text, htext]
      rfl

/-- The text of a finite value is a literal whose parts are numerically equal to it. -/
theorem exists_literal_toText {z : Value} (hre : z.re.isFinite) (him : z.im.isFinite) :
    ∃ l : Literal, l.text = z.toText.toList ∧ Same l.value.re z.re ∧ Same l.value.im z.im := by
  obtain ⟨s, m, e, hre⟩ := Binary.exists_hasParts hre
  obtain ⟨t, n, k, him⟩ := Binary.exists_hasParts him
  obtain ⟨N, hN, htext, hsame⟩ := exists_numeral_partText hre
  unfold toText
  by_cases hn : n = 0
  · subst hn
    rw [if_pos (him.beq_zero.2 rfl)]
    exact ⟨.real N hN, htext, hsame, same_zero him⟩
  rw [if_neg (mt him.beq_zero.1 hn)]
  by_cases hm : m = 0
  · subst hm
    rw [if_pos (hre.beq_zero.2 rfl)]
    obtain ⟨f, hf, hfsame⟩ := exists_factor_alone him
    exact ⟨.imaginary f, hf, same_zero hre, hfsame⟩
  · rw [if_neg (mt hre.beq_zero.1 hm)]
    obtain ⟨f, hsign, hf, hfsame⟩ := exists_factor_signed him hn
    refine ⟨.both N hN f hsign, ?_, hsame, hfsame⟩
    rw [Literal.text, List.append_assoc, hf, htext, String.append_assoc, ← String.toList_append]

/-- The text of a finite value reads back as numerically equal parts, which have the same text
again; and no other finite value has this text. -/
theorem ofText_toText {z : Value} (hre : z.re.isFinite) (him : z.im.isFinite) :
    (∃ v, ofText z.toText = .ok v ∧ (v.re == z.re) = true ∧ (v.im == z.im) = true ∧
      v.toText = z.toText) ∧
    ∀ w : Value, w.re.isFinite → w.im.isFinite → w.toText = z.toText →
      (w.re == z.re) = true ∧ (w.im == z.im) = true := by
  have hread {w : Value} (hre : w.re.isFinite) (him : w.im.isFinite) :
      ∃ v, ofText w.toText = .ok v ∧ Same v.re w.re ∧ Same v.im w.im := by
    obtain ⟨l, hl, hlre, hlim⟩ := exists_literal_toText hre him
    exact ⟨l.value, ofText_text hl.symm, hlre, hlim⟩
  obtain ⟨v, hv, hvre, hvim⟩ := hread hre him
  refine ⟨⟨v, hv, hvre.beq, hvim.beq, toText_congr hvre hvim⟩, fun w hwre hwim htext => ?_⟩
  obtain ⟨u, hu, hure, huim⟩ := hread hwre hwim
  rw [htext, hv] at hu
  cases hu
  exact ⟨(hure.symm.trans hvre).beq, (huim.symm.trans hvim).beq⟩

/-- The sign of a power of ten and that of the imaginary part are told apart. -/
theorem ofText_toText_powers :
    (1e-07 : Float).isFinite ∧ (-2.5e+20 : Float).isFinite ∧
      ∃ v, ofText (⟨1e-07, -2.5e+20⟩ : Value).toText = .ok v ∧ (v.re == 1e-07) = true ∧
        (v.im == -2.5e+20) = true := by
  have hre : (1e-07 : Float).isFinite := by decide +kernel
  have him : (-2.5e+20 : Float).isFinite := by decide +kernel
  obtain ⟨⟨v, hv, hvre, hvim, -⟩, -⟩ := ofText_toText (z := ⟨1e-07, -2.5e+20⟩) hre him
  exact ⟨hre, him, v, hv, hvre, hvim⟩

end ComplexExpr.Value
