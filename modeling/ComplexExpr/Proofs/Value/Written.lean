import ComplexExpr.Proofs.Binary.Unsigned
import ComplexExpr.Proofs.Token.Shape
import ComplexExpr.Proofs.Value.RoundTrip

/-!
# Texts of values among other texts

A finite value is written without blanks and parentheses (`isWordChar_toText`),
so its text ends where either stands, and no name but `i` is such a text
(`not_isName_toText`). Numerically equal values have one text, and others do
not (`toText_eq_iff`). A number that is too large for a double is written like
a name (`toText_infinity`, `toText_imaginary_infinity`).
-/

namespace ComplexExpr.Value

open Binary (HasParts Same)
open Text (Stops stops_cons isNameStart isNameChar ne_of_isDigit)

/-- Neither a blank nor a parenthesis. -/
def isWordChar (c : Char) : Bool := c != ' ' && c != '(' && c != ')'

theorem isWordChar_of_isNameChar {c : Char} (h : isNameChar c) : isWordChar c := by
  simp only [isWordChar, Bool.and_eq_true, bne_iff_ne]
  refine ⟨⟨?_, ?_⟩, ?_⟩ <;> (rintro rfl; exact absurd h (by decide))

theorem isWordChar_of_isName {cs : List Char} (h : Token.isName cs) : ∀ c ∈ cs, isWordChar c := by
  cases cs with
  | nil => exact nofun
  | cons c cs =>
    rw [Token.isName, Bool.and_eq_true, List.all_eq_true] at h
    refine List.forall_mem_cons.2 ⟨?_, fun d hd => isWordChar_of_isNameChar (h.2 d hd)⟩
    exact isWordChar_of_isNameChar (Text.isNameChar_of_isNameStart h.1)

/-! ## Literals and names -/

theorem Literal.isWordChar_text (l : Literal) : ∀ c ∈ l.text, isWordChar c := by
  refine l.forall_mem_text (fun c hc => ?_) (fun s => ?_) (by decide) (by decide) (by decide)
  · exact isWordChar_of_isNameChar (Text.isNameChar_of_isDigit hc)
  · cases s <;> decide

theorem stops_sign (s : Sign) (cs : List Char) : Stops isNameStart (s.toChar :: cs) := by
  cases s <;> exact stops_cons.2 (by decide)

theorem stops_numeral {n : Numeral} (h : n.WellFormed) (rest : List Char) :
    Stops isNameStart (n.toChars ++ rest) := by
  cases hs : n.sign with
  | some s =>
    obtain ⟨cs, hcs⟩ := (sign_eq_some_iff h).1 hs
    rw [hcs]
    exact stops_sign s _
  | none =>
    obtain ⟨c, cs, hcs, hc⟩ := h.head_of_unsigned hs
    rw [hcs]
    refine stops_cons.2 ?_
    rw [Bool.eq_false_iff]
    exact fun hstart => Token.not_numeric_of_isNameStart hstart hc

/-- The one literal that is a name is the imaginary unit. -/
theorem Literal.eq_unit_of_isName (l : Literal) (h : Token.isName l.text) : l.text = ['i'] := by
  have hne {cs : List Char} (hstop : Stops isNameStart cs) : ¬Token.isName cs := by
    cases cs with
    | nil => exact nofun
    | cons c cs => simp [Token.isName, stops_cons.1 hstop]
  cases l with
  | real n hn =>
    rw [← List.append_nil (Literal.text _)] at h
    exact absurd h (hne (stops_numeral hn []))
  | imaginary f =>
    cases f with
    | one s =>
      cases s with
      | none => rfl
      | some s => exact absurd h (hne (stops_sign s ['i']))
    | numeral n hn => exact absurd h (hne (stops_numeral hn ['i']))
  | both n hn f hs =>
    have htext : (Literal.both n hn f hs).text = n.toChars ++ (f.text ++ ['i']) :=
      List.append_assoc ..
    rw [htext] at h
    exact absurd h (hne (stops_numeral hn _))

/-! ## Finite values -/

variable {z w : Value}

theorem isWordChar_toText (hre : z.re.isFinite) (him : z.im.isFinite) :
    ∀ c ∈ z.toText.toList, isWordChar c := by
  obtain ⟨l, hl, -⟩ := exists_literal_toText hre him
  rw [← hl]
  exact l.isWordChar_text

theorem toText_ne_nil (hre : z.re.isFinite) (him : z.im.isFinite) : z.toText.toList ≠ [] := by
  obtain ⟨l, hl, -⟩ := exists_literal_toText hre him
  rw [← hl]
  exact l.text_ne_nil

theorem not_isName_toText (hre : z.re.isFinite) (him : z.im.isFinite) (hi : z.toText ≠ "i") :
    ¬Token.isName z.toText.toList := by
  intro hname
  obtain ⟨l, hl, -⟩ := exists_literal_toText hre him
  rw [← hl] at hname
  refine hi (String.toList_inj.1 ?_)
  rw [← hl, l.eq_unit_of_isName hname]
  rfl

/-- The text of a finite value tells what is not numerically equal apart. -/
theorem toText_eq_iff (hre : z.re.isFinite) (him : z.im.isFinite) (hre' : w.re.isFinite)
    (him' : w.im.isFinite) :
    z.toText = w.toText ↔ (z.re == w.re) = true ∧ (z.im == w.im) = true := by
  constructor
  · intro h
    obtain ⟨l, hl, hlre, hlim⟩ := exists_literal_toText hre him
    obtain ⟨l', hl', hlre', hlim'⟩ := exists_literal_toText hre' him'
    obtain rfl : l = l' := Literal.text_inj (by rw [hl, hl', h])
    exact ⟨(hlre.symm.trans hlre').beq, (hlim.symm.trans hlim').beq⟩
  · rintro ⟨hzre, hzim⟩
    exact toText_congr (.of_beq hre hre' hzre) (.of_beq him him' hzim)

/-! ## Infinite values -/

theorem toText_infinity : (⟨Decimal.infinity, 0.0⟩ : Value).toText = "inf" := by decide +kernel

theorem toText_imaginary_infinity : (⟨0.0, Decimal.infinity⟩ : Value).toText = "infi" := by
  decide +kernel

/-- No finite double is infinite. -/
theorem beq_infinity_of_isFinite {x : Float} (h : x.isFinite) :
    (x == Decimal.infinity) = false := by
  obtain ⟨s, m, e, hx⟩ := Binary.exists_hasParts h
  rw [Bool.eq_false_iff]
  intro hbeq
  have hcmp : x.toModel.unpack.compare Decimal.infinity.toModel.unpack = some .eq :=
    beq_iff_eq.1 hbeq
  rw [Binary.unpack_infinity] at hcmp
  cases hx with
  | zero hx => rw [hx] at hcmp; cases hcmp
  | nonzero hc hx => rw [hx] at hcmp; cases s <;> cases hcmp

end ComplexExpr.Value
