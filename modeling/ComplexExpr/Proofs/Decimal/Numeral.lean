import ComplexExpr.Decimal.Numeral
import ComplexExpr.Proofs.Text.Run
import Mathlib.Data.List.TakeWhile

/-!
# Numerals and their texts

A numeral is well-formed (`Numeral.WellFormed`) if its rows of digits hold
digits only and none of them is missing. Reading accepts exactly the texts of
well-formed numerals:

* `Numeral.read?_eq_some_iff`: a text reads as a numeral iff the numeral is
  well-formed and the text is its text;
* `Numeral.toChars_inj`: so a text is the text of one well-formed numeral at
  most.
-/

namespace ComplexExpr

open Text (Stops stops_nil stops_cons stops_dropWhile takeWhile_run dropWhile_run ne_of_isDigit)

/-- A row of ASCII digits, possibly empty. -/
def Digits (ds : List Char) : Prop := ∀ c ∈ ds, c.isDigit

theorem digits_takeWhile (cs : List Char) : Digits (cs.takeWhile Char.isDigit) :=
  fun _ h => List.mem_takeWhile_imp h

theorem Digits.append {a b : List Char} (ha : Digits a) (hb : Digits b) : Digits (a ++ b) :=
  List.forall_mem_append.2 ⟨ha, hb⟩

/-! ## Signs -/

/-- The text of a sign that may be missing. -/
def Sign.text (s : Option Sign) : List Char := s.toList.map Sign.toChar

namespace Sign

theorem toChar_of_ofChar? {c : Char} {s : Sign} (h : ofChar? c = some s) : s.toChar = c := by
  unfold ofChar? at h
  split at h
  next hc => cases h; exact hc.symm
  next =>
    split at h
    next hc => cases h; exact hc.symm
    next => cases h

theorem ofChar?_eq_none {c : Char} : ofChar? c = none ↔ c ≠ '+' ∧ c ≠ '-' := by
  unfold ofChar?
  split
  next hc => simp [hc]
  next hp =>
    split
    next hc => simp [hc]
    next hm => simp [hp, hm]

theorem toChar_inj {s s' : Sign} (h : s.toChar = s'.toChar) : s = s' := by
  have hs := congrArg ofChar? h
  rw [ofChar?_toChar, ofChar?_toChar] at hs
  exact Option.some.inj hs

theorem text_scan {cs rest : List Char} {s : Option Sign} (h : scan cs = (s, rest)) :
    text s ++ rest = cs := by
  unfold scan at h
  split at h
  · cases h; rfl
  next c cs =>
    split at h
    next s' hs => cases h; exact congrArg (· :: rest) (toChar_of_ofChar? hs)
    next => cases h; rfl

/-- A sign is scanned from its text, and where none is written, none may follow. -/
theorem scan_text {s : Option Sign} {rest : List Char}
    (h : s = none → Stops (fun c => (ofChar? c).isSome) rest) : scan (text s ++ rest) = (s, rest) := by
  cases s with
  | some s =>
    show scan (s.toChar :: rest) = _
    rw [scan, ofChar?_toChar]
  | none =>
    cases rest with
    | nil => rfl
    | cons c cs =>
      have hc := stops_cons.1 (h rfl)
      show scan (c :: cs) = _
      rw [scan, Option.isSome_eq_false_iff.1 hc |> Option.isNone_iff_eq_none.1]

theorem text_inj {s s' : Option Sign} (h : text s = text s') : s = s' := by
  have hs : scan (text s ++ []) = (s, []) := scan_text fun _ => stops_nil
  have hs' : scan (text s' ++ []) = (s', []) := scan_text fun _ => stops_nil
  rw [h] at hs
  exact (Prod.mk.inj (hs.symm.trans hs')).1

theorem forall_mem_text {p : Char → Prop} (h : ∀ s : Sign, p s.toChar) :
    ∀ s : Option Sign, ∀ c ∈ text s, p c
  | none => nofun
  | some s => List.forall_mem_singleton.2 (h s)

/-- A text that opens with a digit, or with a point, opens with no sign. -/
theorem stops_of_digit {c : Char} {cs : List Char} (h : c.isDigit ∨ c = '.') :
    Stops (fun c => (ofChar? c).isSome) (c :: cs) := by
  refine stops_cons.2 ?_
  have hn : ofChar? c = none := by
    rcases h with h | rfl
    · exact ofChar?_eq_none.2 ⟨(ne_of_isDigit h).1, (ne_of_isDigit h).2.1⟩
    · rfl
  rw [hn]; rfl

end Sign

/-! ## Powers of ten -/

namespace PowerOfTen

/-- A power of ten has digits. -/
structure WellFormed (p : PowerOfTen) : Prop where
  digits : Digits p.digits
  ne_nil : p.digits ≠ []

/-- The text of a power of ten that may be missing. -/
def text : Option PowerOfTen → List Char
  | none => []
  | some p => p.toChars

theorem toChars_eq (p : PowerOfTen) :
    p.toChars = (if p.capital then 'E' else 'e') :: (Sign.text p.sign ++ p.digits) := rfl

theorem scan_sound {cs rest : List Char} {p : Option PowerOfTen} (h : scan cs = (p, rest)) :
    text p ++ rest = cs ∧ ∀ q ∈ p, q.WellFormed := by
  unfold scan at h
  split at h
  · cases h; exact ⟨rfl, fun _ h => nomatch h⟩
  next c cs =>
    dsimp only at h
    split at h
    next hc =>
      simp only [Bool.and_eq_true, Bool.not_eq_true', List.isEmpty_eq_false_iff] at hc
      cases h
      refine ⟨?_, fun q hq => ?_⟩
      · have hm : (if (c == 'E') = true then 'E' else 'e') = c := by
          have := hc.1
          simp only [isMarker, Bool.or_eq_true, beq_iff_eq] at this
          rcases this with rfl | rfl <;> rfl
        have hs : Sign.text (Sign.scan cs).1 ++ (Sign.scan cs).2 = cs := Sign.text_scan rfl
        show (if (c == 'E') = true then 'E' else 'e') :: (Sign.text (Sign.scan cs).1 ++ _) ++ _ = _
        rw [hm, List.cons_append, List.append_assoc, List.takeWhile_append_dropWhile, hs]
      · cases hq
        exact ⟨digits_takeWhile _, hc.2⟩
    next => cases h; exact ⟨rfl, fun _ h => nomatch h⟩

theorem scan_toChars {p : PowerOfTen} {rest : List Char} (h : p.WellFormed)
    (hrest : Stops Char.isDigit rest) : scan (p.toChars ++ rest) = (some p, rest) := by
  obtain ⟨capital, sign, digits⟩ := p
  have hd : ∀ c ∈ digits, c.isDigit := h.digits
  have hne : digits ≠ [] := h.ne_nil
  have hsign : Sign.scan (Sign.text sign ++ digits ++ rest) = (sign, digits ++ rest) := by
    rw [List.append_assoc]
    refine Sign.scan_text fun _ => ?_
    cases digits with
    | nil => exact absurd rfl hne
    | cons c cs => exact Sign.stops_of_digit (.inl (hd c List.mem_cons_self))
  rw [toChars_eq, List.cons_append, scan]
  simp only [hsign, takeWhile_run hd hrest, dropWhile_run hd hrest]
  cases capital <;> simp [isMarker, hne]

/-- Neither a digit nor a point stands at the front, and no marker of a power of ten. -/
def Stopped (rest : List Char) : Prop := Stops (fun c => c.isDigit || c == '.' || isMarker c) rest

theorem stopped_nil : Stopped [] := stops_nil

theorem Stopped.point {rest : List Char} (h : Stopped rest) :
    Stops (fun c => c.isDigit || c == '.') rest := fun c hc => (Bool.or_eq_false_iff.1 (h c hc)).1

theorem Stopped.digit {rest : List Char} (h : Stopped rest) : Stops Char.isDigit rest :=
  fun c hc => (Bool.or_eq_false_iff.1 (h.point c hc)).1

theorem scan_text {p : Option PowerOfTen} {rest : List Char} (h : ∀ q ∈ p, q.WellFormed)
    (hrest : Stopped rest) : scan (text p ++ rest) = (p, rest) := by
  cases p with
  | some p => exact scan_toChars (h p rfl) hrest.digit
  | none =>
    cases rest with
    | nil => rfl
    | cons c cs =>
      have hc : isMarker c = false := (Bool.or_eq_false_iff.1 (stops_cons.1 hrest)).2
      show scan (c :: cs) = _
      rw [scan, hc]
      rfl

end PowerOfTen

/-! ## Numerals -/

namespace Numeral

/-- The rows of digits of a numeral hold digits, and none that has to be there is empty. -/
structure WellFormed (n : Numeral) : Prop where
  hasDigit : n.HasDigit
  whole : Digits n.whole
  fraction : ∀ ds ∈ n.fraction, Digits ds
  power : ∀ p ∈ n.power, p.WellFormed

/-- The text of a fraction that may be missing. -/
def fractionText : Option (List Char) → List Char
  | none => []
  | some ds => '.' :: ds

theorem toChars_eq (n : Numeral) :
    n.toChars = Sign.text n.sign ++ (n.whole ++ (fractionText n.fraction ++ PowerOfTen.text n.power)) := by
  obtain ⟨sign, whole, fraction, power⟩ := n
  cases fraction <;> cases power <;> rfl

theorem scanFraction_sound {cs rest : List Char} {f : Option (List Char)}
    (h : scanFraction cs = (f, rest)) : fractionText f ++ rest = cs ∧ ∀ ds ∈ f, Digits ds := by
  unfold scanFraction at h
  split at h
  next cs =>
    cases h
    refine ⟨?_, fun ds hds => ?_⟩
    · rw [fractionText, List.cons_append, List.takeWhile_append_dropWhile]
    · cases hds; exact digits_takeWhile cs
  next => cases h; exact ⟨rfl, fun _ h => nomatch h⟩

theorem scanFraction_text {f : Option (List Char)} {rest : List Char}
    (hf : ∀ ds ∈ f, Digits ds) (hrest : Stops (fun c => c.isDigit || c == '.') rest) :
    scanFraction (fractionText f ++ rest) = (f, rest) := by
  have hdigit : Stops Char.isDigit rest := fun c hc => (Bool.or_eq_false_iff.1 (hrest c hc)).1
  cases f with
  | none =>
    show scanFraction rest = _
    unfold scanFraction
    split
    next cs => exact absurd (stops_cons.1 hrest) (by decide)
    next => rfl
  | some ds =>
    have hds := hf ds rfl
    show scanFraction ('.' :: (ds ++ rest)) = _
    rw [scanFraction, takeWhile_run hds hdigit, dropWhile_run hds hdigit]

theorem scan_sound {cs rest : List Char} {n : Numeral} (h : scan cs = (n, rest)) :
    n.toChars ++ rest = cs ∧ (n.HasDigit → n.WellFormed) := by
  unfold scan at h
  obtain ⟨cs₁, hs⟩ : ∃ cs₁, Sign.scan cs = ((Sign.scan cs).1, cs₁) := ⟨_, rfl⟩
  obtain ⟨f, cs₂, hf⟩ : ∃ f cs₂, scanFraction (cs₁.dropWhile Char.isDigit) = (f, cs₂) := ⟨_, _, rfl⟩
  obtain ⟨p, cs₃, hp⟩ : ∃ p cs₃, PowerOfTen.scan cs₂ = (p, cs₃) := ⟨_, _, rfl⟩
  rw [hs] at h
  simp only [hf, hp, Prod.mk.injEq] at h
  obtain ⟨rfl, rfl⟩ := h
  obtain ⟨ef, wf⟩ := scanFraction_sound hf
  obtain ⟨ep, wp⟩ := PowerOfTen.scan_sound hp
  refine ⟨?_, fun hd => ⟨hd, digits_takeWhile _, wf, wp⟩⟩
  rw [toChars_eq]
  simp only [List.append_assoc]
  rw [ep, ef, List.takeWhile_append_dropWhile, Sign.text_scan hs]

/-- What follows the digits of a numeral opens with its marker. -/
theorem stops_powerText (p : Option PowerOfTen) {rest : List Char}
    (hrest : PowerOfTen.Stopped rest) :
    Stops (fun c => c.isDigit || c == '.') (PowerOfTen.text p ++ rest) := by
  cases p with
  | none => exact hrest.point
  | some p =>
    rw [PowerOfTen.text, PowerOfTen.toChars_eq, List.cons_append, stops_cons]
    cases p.capital <;> rfl

theorem stops_fractionText (f : Option (List Char)) (p : Option PowerOfTen) {rest : List Char}
    (hrest : PowerOfTen.Stopped rest) :
    Stops Char.isDigit (fractionText f ++ (PowerOfTen.text p ++ rest)) := by
  cases f with
  | none => exact fun c hc => (Bool.or_eq_false_iff.1 (stops_powerText p hrest c hc)).1
  | some ds => exact stops_cons.2 rfl

/-- The text of a numeral without a sign opens with a digit or a point. -/
theorem stops_digitsText {n : Numeral} (h : n.WellFormed) (rest : List Char) :
    Stops (fun c => (Sign.ofChar? c).isSome) (n.whole ++ (fractionText n.fraction ++ rest)) := by
  have hwhole := h.whole
  have hdigit := h.hasDigit
  cases hw : n.whole with
  | cons c cs => exact Sign.stops_of_digit (.inl (hwhole c (by rw [hw]; exact List.mem_cons_self)))
  | nil =>
    cases hf : n.fraction with
    | some ds => exact Sign.stops_of_digit (.inr rfl)
    | none => simp [HasDigit, hw, hf] at hdigit

theorem scan_toChars {n : Numeral} {rest : List Char} (h : n.WellFormed)
    (hrest : PowerOfTen.Stopped rest) : scan (n.toChars ++ rest) = (n, rest) := by
  have hsign : Sign.scan (n.toChars ++ rest) =
      (n.sign, n.whole ++ (fractionText n.fraction ++ (PowerOfTen.text n.power ++ rest))) := by
    rw [toChars_eq]
    simp only [List.append_assoc]
    exact Sign.scan_text fun _ => stops_digitsText h _
  have hfraction := scanFraction_text h.fraction (stops_powerText n.power hrest)
  have hpower := PowerOfTen.scan_text h.power hrest
  have hstop := stops_fractionText n.fraction n.power hrest
  unfold scan
  simp only [hsign, takeWhile_run h.whole hstop, dropWhile_run h.whole hstop, hfraction, hpower]

/-- Reading accepts the texts of well-formed numerals and no others. -/
theorem read?_eq_some_iff {cs : List Char} {n : Numeral} :
    read? cs = some n ↔ n.WellFormed ∧ n.toChars = cs := by
  constructor
  · intro h
    unfold read? at h
    split at h
    next m hm =>
      split at h
      next hd =>
        cases h
        obtain ⟨ht, hw⟩ := scan_sound hm
        exact ⟨hw hd, by rw [← ht, List.append_nil]⟩
      next => cases h
    next => cases h
  · rintro ⟨h, rfl⟩
    have hscan := scan_toChars h PowerOfTen.stopped_nil
    rw [List.append_nil] at hscan
    unfold read?
    rw [hscan]
    exact if_pos h.hasDigit

theorem toChars_inj {m n : Numeral} (hm : m.WellFormed) (hn : n.WellFormed)
    (h : m.toChars = n.toChars) : m = n := by
  have hread := read?_eq_some_iff.2 ⟨hm, h⟩
  rw [read?_eq_some_iff.2 ⟨hn, rfl⟩] at hread
  exact (Option.some.inj hread).symm

theorem readPlain?_eq_some_iff {cs : List Char} {n : Numeral} :
    readPlain? cs = some n ↔ (n.WellFormed ∧ n.IsPlain) ∧ n.toChars = cs := by
  unfold readPlain?
  constructor
  · intro h
    split at h
    next m hm =>
      split at h
      next hp =>
        cases h
        obtain ⟨hw, ht⟩ := read?_eq_some_iff.1 hm
        exact ⟨⟨hw, hp⟩, ht⟩
      next => cases h
    next => cases h
  · rintro ⟨⟨hw, hp⟩, rfl⟩
    simp only [read?_eq_some_iff.2 ⟨hw, rfl⟩]
    exact if_pos hp

/-! ## The characters of a numeral -/

/-- What holds of digits, signs, the point and the markers of powers of ten holds of every
character of a numeral. -/
theorem WellFormed.forall_mem {n : Numeral} {p : Char → Prop} (h : n.WellFormed)
    (hdigit : ∀ c : Char, c.isDigit → p c) (hsign : ∀ s : Sign, p s.toChar) (hpoint : p '.')
    (hmarker : p 'e' ∧ p 'E') : ∀ c ∈ n.toChars, p c := by
  have hdigits {ds : List Char} (hd : Digits ds) : ∀ c ∈ ds, p c := fun c hc => hdigit c (hd c hc)
  rw [toChars_eq]
  refine List.forall_mem_append.2 ⟨Sign.forall_mem_text hsign n.sign, List.forall_mem_append.2
    ⟨hdigits h.whole, List.forall_mem_append.2 ⟨?_, ?_⟩⟩⟩
  · cases hf : n.fraction with
    | none => exact nofun
    | some ds => exact List.forall_mem_cons.2 ⟨hpoint, hdigits (h.fraction ds hf)⟩
  · cases hp : n.power with
    | none => exact nofun
    | some q =>
      refine List.forall_mem_cons.2 ⟨?_, List.forall_mem_append.2
        ⟨Sign.forall_mem_text hsign q.sign, hdigits (h.power q hp).digits⟩⟩
      cases q.capital
      · exact hmarker.1
      · exact hmarker.2

/-- A numeral without a sign opens with a digit or a point. -/
theorem WellFormed.head_of_unsigned {n : Numeral} (h : n.WellFormed) (hs : n.sign = none) :
    ∃ c cs, n.toChars = c :: cs ∧ (c.isDigit ∨ c = '.') := by
  have hwhole := h.whole
  have hdigit := h.hasDigit
  rw [Numeral.toChars_eq, hs]
  cases hw : n.whole with
  | cons c cs => exact ⟨c, _, rfl, .inl (hwhole c (by rw [hw]; exact List.mem_cons_self))⟩
  | nil =>
    cases hf : n.fraction with
    | some ds => exact ⟨'.', _, rfl, .inr rfl⟩
    | none => simp [Numeral.HasDigit, hw, hf] at hdigit

end Numeral

end ComplexExpr
