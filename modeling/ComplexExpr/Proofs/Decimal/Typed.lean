import ComplexExpr.Decimal.Typed
import ComplexExpr.Proofs.Decimal.Numeral

/-!
# Numerals that are typed

Of what people type, the texts of numerals are in plain form already, and none
of them is a name: the text of a well-formed numeral is read as the double of
the numeral (`Typed.readFloat?_toChars`).
-/

namespace ComplexExpr.Typed

variable {c : Char} {cs : List Char}

/-! ## Plain forms -/

theorem asciiDigit_of_isDigit (h : c.isDigit) : Text.asciiDigit c = c := by
  have hrange : 0x30 ≤ c.toNat ∧ c.toNat ≤ 0x39 := by
    simp only [Char.isDigit, Bool.and_eq_true, decide_eq_true_eq, ge_iff_le,
      UInt32.le_iff_toNat_le] at h
    exact h
  -- the digits of ASCII come first among those of all scripts
  have hzero : (0x30 ≤ c.toNat && c.toNat < 0x30 + 10) = true := by
    simp only [Bool.and_eq_true, decide_eq_true_eq]
    omega
  have hzeros : Text.zeros = 0x30 :: Text.zeros.tail := rfl
  have hvalue : Text.digitValue? c = some (c.toNat - 0x30) := by
    rw [Text.digitValue?, hzeros, List.find?_cons, hzero]
    rfl
  have hsum : 0x30 + (c.toNat - 0x30) = c.toNat := by omega
  rw [Text.asciiDigit, hvalue]
  dsimp only
  rw [hsum, Char.ofNat_toNat]

theorem joinDigits_of_ne (h : ∀ c ∈ cs, c ≠ '_') (afterDigit : Bool) :
    joinDigits afterDigit cs = some cs := by
  induction cs generalizing afterDigit with
  | nil => rfl
  | cons c cs ih =>
    obtain ⟨hc, hcs⟩ := List.forall_mem_cons.1 h
    rw [joinDigits, if_neg hc, ih hcs]
    rfl

/-- A character that stands for itself in a plain form: a digit, if it is one, that is ASCII, no
blank, and no underscore. -/
structure Plain (c : Char) : Prop where
  asciiDigit : Text.asciiDigit c = c
  not_outer : isOuterBlank c = false
  ne_underscore : c ≠ '_'

theorem Plain.of_isDigit (h : c.isDigit) : Plain c where
  asciiDigit := asciiDigit_of_isDigit h
  not_outer := by
    rw [isOuterBlank, Text.not_isBlank_of_isNameChar (Text.isNameChar_of_isDigit h)]
    rfl
  ne_underscore := by
    rintro rfl
    cases h

theorem plainForm?_of_plain (h : ∀ c ∈ cs, Plain c) :
    plainForm? (String.ofList cs) = some cs := by
  have hascii : cs.map Text.asciiDigit = cs :=
    (List.map_congr_left fun c hc => (h c hc).asciiDigit).trans (List.map_id' cs)
  have htrim : Text.trimWhile isOuterBlank cs = cs := by
    have hrun := @Text.trimWhile_run isOuterBlank cs [] [] nofun nofun fun c hc =>
      (h c hc).not_outer
    rwa [List.append_nil, List.nil_append] at hrun
  rw [plainForm?, String.toList_ofList, hascii, htrim]
  exact joinDigits_of_ne (fun c hc => (h c hc).ne_underscore) false

theorem plain_of_mem_toChars {n : Numeral} (h : n.WellFormed) : ∀ c ∈ n.toChars, Plain c := by
  refine h.forall_mem (fun _ => Plain.of_isDigit) (fun s => ?_) ⟨by decide, by decide, by decide⟩
    ⟨⟨by decide, by decide, by decide⟩, ⟨by decide, by decide, by decide⟩⟩
  cases s <;> exact ⟨by decide, by decide, by decide⟩

/-! ## Doubles -/

/-- No name of a double opens with a digit or a point. -/
theorem named?_of_numeric (h : c.isDigit ∨ c = '.') :
    named? ((c :: cs).map Char.toLower) = none := by
  have hlower : c.toLower = c := by
    refine dif_neg fun hupper => ?_
    rcases h with h | rfl
    · unfold Char.isDigit at h
      simp only [Bool.and_eq_true, decide_eq_true_eq] at h
      exact absurd (UInt32.le_trans hupper.1 h.2) (by decide)
    · exact absurd hupper.1 (by decide)
  have hn : c ≠ 'n' := by
    rintro rfl
    revert h
    decide
  have hi : c ≠ 'i' := by
    rintro rfl
    revert h
    decide
  rw [List.map_cons, hlower]
  unfold named?
  split
  next heq => exact absurd (List.cons.inj heq).1 hn
  next heq => exact absurd (List.cons.inj heq).1 hi
  next heq => exact absurd (List.cons.inj heq).1 hi
  next => rfl

/-- A numeral is read as its double. -/
theorem readFloat?_toChars {n : Numeral} (h : n.WellFormed) :
    readFloat? (String.ofList n.toChars) = some n.toFloat := by
  let digits : Numeral := { n with sign := none }
  have hdigits : digits.WellFormed := ⟨h.hasDigit, h.whole, h.fraction, h.power⟩
  obtain ⟨c, cs, hcs, hnumeric⟩ := hdigits.head_of_unsigned rfl
  have hscan : Sign.scan n.toChars = (n.sign, c :: cs) := by
    have htext : n.toChars = Sign.text n.sign ++ digits.toChars := by
      rw [Numeral.toChars_eq, Numeral.toChars_eq]
      rfl
    rw [htext, hcs]
    exact Sign.scan_text fun _ => Sign.stops_of_digit hnumeric
  rw [readFloat?, plainForm?_of_plain (plain_of_mem_toChars h)]
  simp only [Option.bind_eq_bind, Option.bind_some, hscan, named?_of_numeric hnumeric,
    Numeral.read?_eq_some_iff.2 ⟨h, rfl⟩]
  rfl

end ComplexExpr.Typed
