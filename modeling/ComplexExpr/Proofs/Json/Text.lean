import ComplexExpr.Json.Reader
import ComplexExpr.Json.Writer
import Mathlib.Data.List.Chain

/-!
# Texts in quotes

What a settings file says of a text is read back as that text
(`takes_stringRest`), whatever characters it holds. Surrogates that stand alone
are no exception, as long as no two of them would make a pair
(`WideText.Separate`).
-/

namespace ComplexExpr

/-- The first half of a pair of surrogates. -/
def CodePoint.IsHigh : CodePoint → Prop
  | char _ => False
  | surrogate k => k.val < 0x400

/-- The second half of a pair of surrogates. -/
def CodePoint.IsLow : CodePoint → Prop
  | char _ => False
  | surrogate k => 0x400 ≤ k.val

/-- No two surrogates stand side by side that make a pair. -/
def WideText.Separate (s : WideText) : Prop := s.IsChain fun p q => ¬(p.IsHigh ∧ q.IsLow)

namespace Json

/-- What was read, and what is left of the text. -/
def Takes {α : Type} {n : Nat} (r : Except Fault (Parsed Char α n)) (a : α) (rest : List Char) :
    Prop :=
  ∃ h, r = .ok ⟨a, rest, h⟩

section

variable {α β : Type} {m n : Nat} {r : Except Fault (Parsed Char α n)} {a : α}
  {c d : Char} {s : WideText} {p : CodePoint} {cs mid rest : List Char}

theorem Takes.map (h : Takes r a rest) (f : α → β) (hn : n ≤ m) :
    Takes (r.map fun p => (p.map f).widen hn) (f a) rest := by
  obtain ⟨hlt, rfl⟩ := h
  exact ⟨Nat.lt_of_lt_of_le hlt hn, rfl⟩

theorem Takes.widen (h : Takes r a rest) (hn : n ≤ m) :
    Takes (r.map fun p => p.widen hn) a rest := by
  obtain ⟨hlt, rfl⟩ := h
  exact ⟨Nat.lt_of_lt_of_le hlt hn, rfl⟩

/-! ## Characters between quotes -/

theorem takes_quote : Takes (stringRest ('"' :: rest)) [] rest := by
  rw [stringRest]
  exact ⟨_, rfl⟩

theorem Takes.char (h : Takes (stringRest cs) s rest) (hc : c ≠ '"' ∧ c ≠ '\\' ∧ 0x20 ≤ c.toNat) :
    Takes (stringRest (c :: cs)) (.char c :: s) rest := by
  obtain ⟨hlt, h⟩ := h
  rw [stringRest, if_neg hc.1, if_neg hc.2.1, if_neg (Nat.not_lt.2 hc.2.2), h]
  exact ⟨Nat.lt_succ_of_lt hlt, rfl⟩

theorem Takes.escape (h : Takes (stringRest mid) s rest) (he : Takes (Json.escape cs) p mid) :
    Takes (stringRest ('\\' :: cs)) (p :: s) rest := by
  obtain ⟨hmid, he⟩ := he
  obtain ⟨hlt, h⟩ := h
  rw [stringRest, if_neg (by decide), if_pos rfl, he]
  show Takes (stringRest mid >>= _) _ _
  rw [h]
  exact ⟨Nat.lt_succ_of_lt (Nat.lt_trans hlt hmid), rfl⟩

theorem takes_letter (hc : c ≠ 'u') (hd : escaped? c = some d) :
    Takes (Json.escape (c :: rest)) (.char d) rest := by
  rw [Json.escape, if_neg hc, hd]
  exact ⟨_, rfl⟩

theorem takes_unicode (h : Takes (unicodeEscape cs) p rest) :
    Takes (Json.escape ('u' :: cs)) p rest := by
  rw [Json.escape, if_pos rfl]
  exact h.widen _

/-! ## Units -/

theorem hexValue?_hexDigit : ∀ n < 16, hexValue? (hexDigit n) = some n := by decide

/-- The digits of a unit. -/
def unitDigits (n : Nat) : List Char :=
  [hexDigit (n / 4096 % 16), hexDigit (n / 256 % 16), hexDigit (n / 16 % 16), hexDigit (n % 16)]

theorem hex4?_digits {n : Nat} (hn : n < 0x10000) :
    hex4? (hexDigit (n / 4096 % 16)) (hexDigit (n / 256 % 16)) (hexDigit (n / 16 % 16))
      (hexDigit (n % 16)) = some n := by
  have hmod (k : Nat) : k % 16 < 16 := Nat.mod_lt k (by decide)
  unfold hex4?
  rw [hexValue?_hexDigit _ (hmod _), hexValue?_hexDigit _ (hmod _), hexValue?_hexDigit _ (hmod _),
    hexValue?_hexDigit _ (hmod _)]
  show some (((n / 4096 % 16) * 16 + n / 256 % 16) * 256 + ((n / 16 % 16) * 16 + n % 16)) = some n
  congr 1
  omega

theorem lowSurrogate?_of_ne (hc : c ≠ '\\') : lowSurrogate? (c :: cs) = none := by
  rw [lowSurrogate?]
  exact fun _ _ _ _ _ h => hc (List.cons.inj h).1

theorem length_lt_unit (n : Nat) (cs : List Char) : cs.length < (unitEscape n ++ cs).length := by
  rw [List.length_append]
  exact Nat.lt_add_of_pos_left (Nat.zero_lt_succ _)

theorem lowSurrogate?_unit {n : Nat} (hn : n < 0x10000) :
    lowSurrogate? (unitEscape n ++ cs) =
      if 0xDC00 ≤ n ∧ n < 0xE000 then some ⟨n, cs, length_lt_unit n cs⟩ else none := by
  show (hex4? _ _ _ _ >>= _) = _
  rw [hex4?_digits hn]
  rfl

section

variable {a b c d : Char} {n : Nat}

/-- A unit that is not read together with the next one. -/
theorem takes_unit (hn : hex4? a b c d = some n)
    (h : 0xD800 ≤ n ∧ n < 0xDC00 → lowSurrogate? rest = none) :
    Takes (unicodeEscape (a :: b :: c :: d :: rest)) (.ofUnit n) rest := by
  have hnone : (if 0xD800 ≤ n ∧ n < 0xDC00 then lowSurrogate? rest else none) = none := by
    split
    next hhigh => exact h hhigh
    next => rfl
  rw [unicodeEscape, hn]
  dsimp only
  rw [hnone]
  exact ⟨_, rfl⟩

theorem takes_pair {low : Nat} (hn : hex4? a b c d = some n) (hhigh : 0xD800 ≤ n ∧ n < 0xDC00)
    (hlow : 0xDC00 ≤ low ∧ low < 0xE000) :
    Takes (unicodeEscape (a :: b :: c :: d :: (unitEscape low ++ rest)))
      (.char (charOfPair n low)) rest := by
  rw [unicodeEscape, hn]
  dsimp only
  rw [if_pos hhigh, lowSurrogate?_unit (by omega), if_pos hlow]
  exact ⟨_, rfl⟩

end

/-! ## Code points -/

theorem toNat_range (c : Char) : c.toNat < 0xD800 ∨ (0xDFFF < c.toNat ∧ c.toNat < 0x110000) :=
  c.valid

theorem ofUnit_toNat (c : Char) : CodePoint.ofUnit c.toNat = .char c := by
  have hc := toNat_range c
  rw [CodePoint.ofUnit, dif_neg (by omega), Char.ofNat_toNat]

theorem takes_unicodeText (h : Takes (stringRest cs) s rest) :
    Takes (stringRest (unicodeText c ++ cs)) (.char c :: s) rest := by
  have hc := toNat_range c
  by_cases hsmall : c.toNat < 0x10000
  · have htext : unicodeText c = unitEscape c.toNat := if_pos hsmall
    have hunit : Takes (unicodeEscape (unitDigits c.toNat ++ cs)) (.ofUnit c.toNat) cs :=
      takes_unit (hex4?_digits hsmall) (by omega)
    rw [ofUnit_toNat] at hunit
    rw [htext]
    exact h.escape (takes_unicode hunit)
  · generalize hhigh : 0xD800 + (c.toNat - 0x10000) / 0x400 = high
    generalize hlow : 0xDC00 + (c.toNat - 0x10000) % 0x400 = low
    have htext : unicodeText c = unitEscape high ++ unitEscape low := by
      rw [← hhigh, ← hlow]
      exact if_neg hsmall
    have hchar : charOfPair high low = c := by
      have hsum : 0x10000 + (high - 0xD800) * 0x400 + (low - 0xDC00) = c.toNat := by omega
      rw [charOfPair, hsum, Char.ofNat_toNat]
    have hpair : Takes (unicodeEscape (unitDigits high ++ (unitEscape low ++ cs)))
        (.char (charOfPair high low)) cs :=
      takes_pair (hex4?_digits (by omega)) (by omega) (by omega)
    rw [hchar] at hpair
    rw [htext, List.append_assoc]
    exact h.escape (takes_unicode hpair)

/-- Every character is read back, whichever way it is written. -/
theorem takes_charText (h : Takes (stringRest cs) s rest) :
    Takes (stringRest (charText c ++ cs)) (.char c :: s) rest := by
  have hletter {c d : Char} (hc : c ≠ 'u') (hd : escaped? c = some d) :
      Takes (stringRest ('\\' :: c :: cs)) (.char d :: s) rest := h.escape (takes_letter hc hd)
  fun_cases charText c with
  | case1 hc => subst hc; exact hletter (by decide) rfl
  | case2 _ hc => subst hc; exact hletter (by decide) rfl
  | case3 _ _ hc => subst hc; exact hletter (by decide) rfl
  | case4 _ _ _ hc => subst hc; exact hletter (by decide) rfl
  | case5 _ _ _ _ hc => subst hc; exact hletter (by decide) rfl
  | case6 _ _ _ _ _ hc => subst hc; exact hletter (by decide) rfl
  | case7 _ _ _ _ _ _ hc => subst hc; exact hletter (by decide) rfl
  | case8 hquote hslash _ _ _ _ _ hplain => exact h.char ⟨hquote, hslash, hplain.1⟩
  | case9 => exact takes_unicodeText h

/-- What is written of a code point opens with a low surrogate only if it is one. -/
theorem lowSurrogate?_pointText (hp : ¬p.IsLow) : lowSurrogate? (pointText p ++ cs) = none := by
  cases p with
  | surrogate k =>
    have hk : k.val < 0x400 := Nat.lt_of_not_le hp
    rw [pointText, lowSurrogate?_unit (by omega), if_neg (by omega)]
  | char c =>
    rw [pointText]
    fun_cases charText c with
    | case8 hquote hslash =>
      exact lowSurrogate?_of_ne hslash
    | case9 =>
      have hc := toNat_range c
      unfold unicodeText
      dsimp only
      by_cases hsmall : c.toNat < 0x10000
      · rw [if_pos hsmall, lowSurrogate?_unit hsmall, if_neg (by omega)]
      · rw [if_neg hsmall, List.append_assoc, lowSurrogate?_unit (by omega), if_neg (by omega)]
    | _ => rfl

/-- A text is read back up to its closing quote. -/
theorem takes_stringRest (hs : s.Separate) :
    Takes (stringRest (s.flatMap pointText ++ '"' :: rest)) s rest := by
  induction s with
  | nil => exact takes_quote
  | cons p s ih =>
    have htail := ih hs.tail
    rw [List.flatMap_cons, List.append_assoc]
    cases p with
    | char c => exact takes_charText htail
    | surrogate k =>
      generalize hcs : s.flatMap pointText ++ '"' :: rest = cs at htail ⊢
      have hunit : Takes (unicodeEscape (unitDigits (0xD800 + k) ++ cs)) (.ofUnit (0xD800 + k))
          cs := by
        refine takes_unit (hex4?_digits (by omega)) fun hhigh => ?_
        rw [← hcs]
        cases s with
        | nil => rfl
        | cons q s =>
          have hq : ¬q.IsLow := fun hlow => (List.isChain_cons_cons.1 hs).1 ⟨by
            show k.val < 0x400
            omega, hlow⟩
          rw [List.flatMap_cons, List.append_assoc]
          exact lowSurrogate?_pointText hq
      have hpoint : CodePoint.ofUnit (0xD800 + k) = .surrogate k := by
        rw [CodePoint.ofUnit, dif_pos (by omega)]
        exact congrArg CodePoint.surrogate (Fin.ext (show 0xD800 + k.val - 0xD800 = k.val by omega))
      rw [hpoint] at hunit
      exact htail.escape (takes_unicode hunit)

end

end Json

end ComplexExpr
