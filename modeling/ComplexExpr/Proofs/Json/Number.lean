import ComplexExpr.Proofs.Binary.ReadBack
import ComplexExpr.Proofs.Json.Text

/-!
# Numbers in settings files

A settings file holds numerals of a narrower kind (`Numeral.Strict`): without a
plus sign or a needless zero before them, and with digits after each point.
Whole numbers are written as strict numerals without point and power of ten,
doubles as strict numerals with one or the other, so both are read back as what
they were (`takes_int`, `takes_real`). What is no finite double is written as a
word that stands for it.
-/

namespace ComplexExpr

open Text (Stops stops_cons takeWhile_run dropWhile_run)

/-- A numeral that a settings file may hold. -/
structure Numeral.Strict (n : Numeral) : Prop where
  wellFormed : n.WellFormed
  sign : n.sign ≠ some .plus
  whole : n.whole = ['0'] ∨ ∃ c cs, n.whole = c :: cs ∧ c ≠ '0'
  fraction : n.fraction ≠ some []

theorem Numeral.Strict.exists_cons {n : Numeral} (h : n.Strict) : ∃ c cs, n.whole = c :: cs := by
  rcases h.whole with hzero | ⟨c, cs, hcons, -⟩
  · exact ⟨_, _, hzero⟩
  · exact ⟨c, cs, hcons⟩

namespace Json

variable {n : Numeral} {cs rest : List Char}

/-! ## Reading words and numerals -/

theorem takes_word {v : Json} {w : List Char} (hne : w ≠ [])
    (hw : word? (w ++ rest) = some (v, rest)) : Takes (scalar (w ++ rest)) v rest := by
  have hlt : rest.length < (w ++ rest).length := by
    have hpos := List.length_pos_iff.2 hne
    rw [List.length_append]
    omega
  unfold scalar
  rw [hw]
  dsimp only
  rw [dif_pos hlt]
  exact ⟨hlt, rfl⟩

theorem scanWhole_digits {ds : List Char} (hd : Digits ds)
    (h : ds = ['0'] ∨ ∃ c cs, ds = c :: cs ∧ c ≠ '0') (hrest : Stops Char.isDigit rest) :
    scanWhole (ds ++ rest) = (ds, rest) := by
  rcases h with rfl | ⟨c, cs, rfl, hc⟩
  · rfl
  · unfold scanWhole
    split
    next heq => exact absurd (List.cons.inj heq).1 hc
    next => rw [takeWhile_run hd hrest, dropWhile_run hd hrest]

theorem scanFraction_text {f : Option (List Char)} (hf : ∀ ds ∈ f, Digits ds) (hne : f ≠ some [])
    (hrest : Stops (fun c => c.isDigit || c == '.') rest) :
    scanFraction (Numeral.fractionText f ++ rest) = (f, rest) := by
  rw [scanFraction, Numeral.scanFraction_text hf hrest]
  match f with
  | none => rfl
  | some [] => exact absurd rfl hne
  | some (d :: ds) => rfl

/-- A strict numeral is taken, up to where it ends. -/
theorem number?_toChars (h : n.Strict) (hrest : PowerOfTen.Stopped rest) :
    number? (n.toChars ++ rest) = some (n, rest) := by
  have hw := h.wellFormed
  have hsign : Sign.scan (n.toChars ++ rest) = (n.sign, n.whole ++
      (Numeral.fractionText n.fraction ++ (PowerOfTen.text n.power ++ rest))) := by
    rw [Numeral.toChars_eq]
    simp only [List.append_assoc]
    exact Sign.scan_text fun _ => Numeral.stops_digitsText hw _
  have hwhole := scanWhole_digits hw.whole h.whole
    (Numeral.stops_fractionText n.fraction n.power hrest)
  have hfraction := scanFraction_text hw.fraction h.fraction (Numeral.stops_powerText n.power hrest)
  have hpower := PowerOfTen.scan_text hw.power hrest
  have hne : n.whole ≠ [] := by
    obtain ⟨c, cs, hcons⟩ := h.exists_cons
    rw [hcons]
    exact List.cons_ne_nil c cs
  unfold number?
  simp only [hsign, hwhole, hfraction, hpower]
  rw [if_neg (not_or.2 ⟨hne, h.sign⟩)]

/-- No word opens with a digit, or with a minus sign and a digit. -/
theorem word?_digit {c : Char} (hc : c.isDigit) :
    word? (c :: cs) = none ∧ word? ('-' :: c :: cs) = none := by
  have hne (d : Char) (hd : d.isDigit = false) : d ≠ c := by
    rintro rfl
    rw [hc] at hd
    cases hd
  have hi := hne 'I' rfl
  constructor
  · simp [word?, words, hi, hne 'n' rfl, hne 't' rfl, hne 'f' rfl, hne 'N' rfl, hne '-' rfl]
  · simp [word?, words, hi]

theorem word?_toChars (h : n.Strict) : word? (n.toChars ++ rest) = none := by
  have hdigits := h.wellFormed.whole
  obtain ⟨c, cs, hwhole⟩ := h.exists_cons
  have hc : c.isDigit := hdigits c (by rw [hwhole]; exact List.mem_cons_self)
  rw [Numeral.toChars_eq, hwhole]
  rcases hs : n.sign with - | - | -
  · exact (word?_digit hc).1
  · exact absurd hs h.sign
  · exact (word?_digit hc).2

/-- A strict numeral is read as its value. -/
theorem takes_scalar {v : Json} (h : n.Strict) (hrest : PowerOfTen.Stopped rest)
    (hv : ofNumeral n = .ok v) : Takes (scalar (n.toChars ++ rest)) v rest := by
  have hlt : rest.length < (n.toChars ++ rest).length := by
    obtain ⟨c, cs, hwhole⟩ := h.exists_cons
    rw [Numeral.toChars_eq, hwhole]
    simp only [List.length_append, List.length_cons]
    omega
  unfold scalar
  rw [word?_toChars h, number?_toChars h hrest]
  dsimp only
  rw [dif_pos hlt, hv]
  exact ⟨hlt, rfl⟩

/-! ## Whole numbers -/

/-- No needless zero opens the digits of a number. -/
theorem toDigits_eq_cons {k : ℕ} (hk : k ≠ 0) : ∃ c cs, Nat.toDigits 10 k = c :: cs ∧ c ≠ '0' := by
  have hdigit : ∀ d < 10, d ≠ 0 → d.digitChar ≠ '0' := by decide
  induction k using Nat.strongRecOn with
  | ind k ih =>
    by_cases hlt : k < 10
    · exact ⟨k.digitChar, [], Nat.toDigits_of_lt_base hlt, hdigit k hlt hk⟩
    · obtain ⟨c, cs, hcs, hc⟩ := ih (k / 10) (by omega) (by omega)
      refine ⟨c, cs ++ [(k % 10).digitChar], ?_, hc⟩
      rw [Nat.toDigits_of_base_le (by decide) (Nat.le_of_not_lt hlt), hcs, List.cons_append]

theorem toDigits_whole (k : ℕ) :
    Nat.toDigits 10 k = ['0'] ∨ ∃ c cs, Nat.toDigits 10 k = c :: cs ∧ c ≠ '0' := by
  by_cases hk : k = 0
  · exact .inl (by rw [hk]; rfl)
  · exact .inr (toDigits_eq_cons hk)

/-- The numeral that a whole number is written as. -/
def wholeNumeral (k : ℤ) : Numeral :=
  ⟨if k < 0 then some .minus else none, Nat.toDigits 10 k.natAbs, none, none⟩

theorem wholeNumeral_strict (k : ℤ) : (wholeNumeral k).Strict := by
  refine ⟨⟨.inl Nat.toDigits_ne_nil, digits_toDigits _, nofun, nofun⟩, ?_, toDigits_whole _, nofun⟩
  unfold wholeNumeral
  split <;> simp

theorem toChars_wholeNumeral (k : ℤ) : (wholeNumeral k).toChars = (toString k).toList := by
  rw [Numeral.toChars_eq, Int.toString_eq_repr, Int.repr_eq_if]
  by_cases hk : k < 0
  · rw [if_neg (by omega), String.toList_append, Nat.toList_repr]
    simp [wholeNumeral, hk, Numeral.fractionText, PowerOfTen.text, Sign.text, Sign.toChar,
      show (-k).toNat = k.natAbs by omega]
  · rw [if_pos (by omega), Nat.toList_repr]
    simp [wholeNumeral, hk, Numeral.fractionText, PowerOfTen.text, Sign.text,
      show k.toNat = k.natAbs by omega]

theorem ofNumeral_wholeNumeral {k : ℤ} (hk : k.natAbs < 10 ^ digitLimit) :
    ofNumeral (wholeNumeral k) = .ok (.int k) := by
  have hlen : ¬digitLimit < (wholeNumeral k).whole.length :=
    Nat.not_lt.2 ((Nat.length_toDigits_le_iff (by decide) (by decide)).2 hk)
  have hdigits : Decimal.ofDigits (wholeNumeral k).whole = k.natAbs :=
    Decimal.ofDigits_toDigits k.natAbs
  have hsign : (wholeNumeral k).sign = some .minus ↔ k < 0 := by
    unfold wholeNumeral
    split <;> simp_all
  have hwhole : ((wholeNumeral k).fraction.isNone && (wholeNumeral k).power.isNone) = true := rfl
  rw [ofNumeral, if_pos hwhole, if_neg hlen]
  simp only [hdigits, hsign]
  congr 2
  split <;> omega

/-- A whole number is read back. -/
theorem takes_int {k : ℤ} (hk : k.natAbs < 10 ^ digitLimit) (hrest : PowerOfTen.Stopped rest) :
    Takes (scalar ((toString k).toList ++ rest)) (.int k) rest := by
  rw [← toChars_wholeNumeral]
  exact takes_scalar (wholeNumeral_strict k) hrest (ofNumeral_wholeNumeral hk)

/-! ## Doubles -/

open Binary (HasParts isNegative unsignedText toList_write)
open Float.Model (UnpackedFloat)

/-- The text is that of a strict numeral that is not written as a whole number. -/
def Fractional (cs : List Char) : Prop :=
  ∃ n : Numeral, n.Strict ∧ n.sign = none ∧ (n.fraction.isNone && n.power.isNone) = false ∧
    n.toChars = cs

theorem fractional_point {a b : List Char} (ha : Digits a) (hb : Digits b)
    (hwhole : a = ['0'] ∨ ∃ c cs, a = c :: cs ∧ c ≠ '0') (hne : b ≠ []) :
    Fractional (a ++ '.' :: b) := by
  have hdigit : a ≠ [] := by
    rcases hwhole with rfl | ⟨c, cs, rfl, -⟩
    · simp
    · simp
  refine ⟨⟨none, a, some b, none⟩, ⟨⟨.inl hdigit, ha, ?_, nofun⟩, nofun, hwhole, ?_⟩, rfl, rfl, ?_⟩
  · rintro _ ⟨⟩
    exact hb
  · simpa using hne
  · simp [Numeral.toChars]

theorem fractional_positional {ds : List Char} (hd : Digits ds) {c : Char} {cs : List Char}
    (hds : ds = c :: cs) (hc : c ≠ '0') (point : ℤ) : Fractional (Layout.positional ds point) := by
  have hzero : Digits ['0'] := by simp [Digits]
  unfold Layout.positional
  split
  next hpoint =>
    exact fractional_point hzero ((digits_zeros _).append hd) (.inl rfl) (by simp [hds])
  next hpoint =>
    dsimp only
    refine fractional_point (Digits.append (fun d h => hd d (List.mem_of_mem_take h))
      (digits_zeros _)) ?_ (.inr ?_) ?_
    · split
      · exact hzero
      · exact fun d h => hd d (List.mem_of_mem_drop h)
    · obtain ⟨p, hp⟩ := Nat.exists_eq_succ_of_ne_zero (show point.toNat ≠ 0 by omega)
      exact ⟨c, _, by rw [hp, hds]; rfl, hc⟩
    · split
      · simp
      next hempty => simpa using hempty

theorem fractional_scientific (l : Layout) {c : Char} {cs : List Char} (hd : Digits (c :: cs))
    (exponent : ℤ) : Fractional (l.scientific (c :: cs) exponent) := by
  let power : PowerOfTen := ⟨false, some (if exponent < 0 then .minus else .plus),
    Layout.padded l.exponentWidth exponent.natAbs⟩
  have hpower : ∀ p ∈ some power, p.WellFormed := by
    rintro _ ⟨⟩
    exact ⟨Layout.digits_padded _ _, Layout.padded_ne_nil _ _⟩
  have hsign : (if exponent < 0 then Sign.minus else .plus).toChar =
      if exponent < 0 then '-' else '+' := by
    split <;> rfl
  have hc : Digits [c] := fun d h => hd d (List.mem_of_mem_take (i := 1) h)
  have hcs : Digits cs := fun d h => hd d (List.mem_cons_of_mem c h)
  have hwhole : [c] = ['0'] ∨ ∃ d ds, [c] = d :: ds ∧ d ≠ '0' := by
    by_cases hzero : c = '0'
    · exact .inl (by rw [hzero])
    · exact .inr ⟨c, [], rfl, hzero⟩
  by_cases hnil : cs = []
  · subst hnil
    refine ⟨⟨none, [c], none, some power⟩, ⟨⟨.inl (by simp), hc, by simp, hpower⟩, by simp, hwhole,
      by simp⟩, rfl, rfl, ?_⟩
    simp [Numeral.toChars, PowerOfTen.toChars, Layout.scientific, power, hsign]
  · have hpos := List.length_pos_iff.2 hnil
    refine ⟨⟨none, [c], some cs, some power⟩, ⟨⟨.inl (by simp), hc, ?_, hpower⟩, by simp, hwhole,
      by simpa using hnil⟩, rfl, rfl, ?_⟩
    · rintro _ ⟨⟩
      exact hcs
    · simp [Numeral.toChars, PowerOfTen.toChars, Layout.scientific, power, hsign, hnil]

theorem fractional_number (l : Layout) {n : ℕ} (hn : n ≠ 0) (k : ℤ) :
    Fractional (l.number n k) := by
  obtain ⟨c, cs, hds, hc⟩ := toDigits_eq_cons hn
  have hd := digits_toDigits n
  unfold Layout.number
  dsimp only
  split
  · exact fractional_positional hd hds hc _
  · rw [hds] at hd ⊢
    exact fractional_scientific l hd _

/-- A double that is written without its sign is not written as a whole number. -/
theorem fractional_unsignedText {x : Float} {s : UnpackedFloat.Sign} {m : ℕ} {e : ℤ} (l : Layout)
    (h : HasParts x s m e) : Fractional (unsignedText l m e) := by
  unfold unsignedText
  split
  · exact fractional_point (a := ['0']) (b := ['0']) (by simp [Digits]) (by simp [Digits])
      (.inl rfl) (by simp)
  next hm =>
    have hc := h.canonical hm
    have hpos := ((Shortest.Target.decimal_roundsTo (t := ⟨m, e⟩) hc).exponent_bounds hc).1
    exact fractional_number l hpos.ne' _

/-- A finite double is written as a strict numeral that is read as that very double. -/
theorem exists_strict_write (l : Layout) {x : Float} {s : UnpackedFloat.Sign} {m : ℕ} {e : ℤ}
    (h : HasParts x s m e) :
    ∃ n : Numeral, n.Strict ∧ n.toChars = (l.write (Binary.ofFloat x)).toList ∧
      ofNumeral n = .ok (.real x) := by
  obtain ⟨n, hn, hsign, hkind, htext⟩ := fractional_unsignedText l h
  obtain ⟨n', hn', htext', hparts⟩ := Binary.exists_numeral_write l h
  let signed : Numeral := { n with sign := if isNegative s then some .minus else none }
  have hstrict : signed.Strict := by
    refine ⟨⟨hn.wellFormed.hasDigit, hn.wellFormed.whole, hn.wellFormed.fraction,
      hn.wellFormed.power⟩, ?_, hn.whole, hn.fraction⟩
    show (if isNegative s then some Sign.minus else none) ≠ some .plus
    split <;> simp
  have hchars : signed.toChars = (l.write (Binary.ofFloat x)).toList := by
    rw [h.ofFloat_eq, toList_write, ← htext, Numeral.toChars_eq, Numeral.toChars_eq n, hsign]
    show Sign.text (if isNegative s then some Sign.minus else none) ++ _ = _
    cases isNegative s <;> rfl
  obtain rfl : signed = n' :=
    Numeral.toChars_inj hstrict.wellFormed hn' (hchars.trans htext'.symm)
  refine ⟨signed, hstrict, hchars, ?_⟩
  show (if n.fraction.isNone && n.power.isNone then _ else _) = _
  rw [hkind, if_neg Bool.false_ne_true, hparts.eq h]

/-- Any double is read back as that very double. -/
theorem takes_real (x : Float) (hrest : PowerOfTen.Stopped rest) :
    Takes (scalar ((Layout.data.write (Binary.ofFloat x)).toList ++ rest)) (.real x) rest := by
  cases hx : x.toModel.unpack with
  | notANumber =>
    obtain rfl : x = Decimal.nan := Binary.eq_of_unpack (hx.trans rfl)
    exact takes_word (w := "NaN".toList) (by decide) rfl
  | infinity s =>
    cases s with
    | positive =>
      obtain rfl : x = Decimal.infinity := Binary.eq_of_unpack (hx.trans rfl)
      exact takes_word (w := "Infinity".toList) (by decide) rfl
    | negative =>
      obtain rfl : x = -Decimal.infinity := Binary.eq_of_unpack (hx.trans rfl)
      exact takes_word (w := "-Infinity".toList) (by decide) rfl
  | zero s =>
    obtain ⟨n, hn, htext, hvalue⟩ := exists_strict_write .data (.zero hx)
    rw [← htext]
    exact takes_scalar hn hrest hvalue
  | finite s m e hm =>
    obtain ⟨n, hn, htext, hvalue⟩ :=
      exists_strict_write .data (.nonzero (Binary.canonical_of_unpack hx) hx)
    rw [← htext]
    exact takes_scalar hn hrest hvalue

end Json

end ComplexExpr
