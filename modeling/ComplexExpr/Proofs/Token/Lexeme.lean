import ComplexExpr.Proofs.Decimal.Numeral
import ComplexExpr.Token.Lexer

/-!
# Lexemes

`Lexeme` says which texts are tokens, class by class, and `Longest t cs` that
`t` is the longest of them that a text opens with. What the scanner takes off
the front of a text is that one, and it takes nothing only if there is none:

* `Lexeme.taken`: in front of anything, a lexeme is taken, or a longer text;
* `lexeme?_eq_some_iff`: what is taken is the longest lexeme at the front;
* `Lexeme.clear`: no position inside a lexeme is illegal;
* `exists_lexeme_front`: a lexeme starts wherever neither a blank nor an illegal
  position is.
-/

namespace ComplexExpr.Token

open Text (Stops stops_dropWhile takeWhile_run dropWhile_run isBlank isNameStart isNameChar
  isNameChar_iff isNameChar_of_isDigit not_isDigit_of_isNameStart)

/-- The texts that are tokens. -/
inductive Lexeme : List Char → Prop
  | name {c cs} (hc : isNameStart c) (hcs : ∀ d ∈ cs, isNameChar d) : Lexeme (c :: cs)
  | integer {ds} (hd : Digits ds) (hne : ds ≠ []) : Lexeme ds
  | decimal {ds fs} (hd : Digits ds) (hne : ds ≠ []) (hf : Digits fs) (hfne : fs ≠ []) :
    Lexeme (ds ++ '.' :: fs)
  | fraction {fs} (hf : Digits fs) (hfne : fs ≠ []) : Lexeme ('.' :: fs)
  | stars : Lexeme ['*', '*']
  | mark {c} (hc : isMark c) : Lexeme [c]

/-- The longest lexeme that a text opens with. -/
structure Longest (t cs : List Char) : Prop where
  lexeme : Lexeme t
  front : t <+: cs
  longest : ∀ u, Lexeme u → u <+: cs → u.length ≤ t.length

theorem Longest.unique {t u cs : List Char} (ht : Longest t cs) (hu : Longest u cs) : t = u := by
  have hle := ht.longest u hu.lexeme hu.front
  have hge := hu.longest t ht.lexeme ht.front
  have hlen : t.length = u.length := by omega
  rw [List.prefix_iff_eq_take.1 ht.front, hlen, ← List.prefix_iff_eq_take.1 hu.front]

/-- A text opens with a character that stands in no token and between no tokens. A point has a
place if a digit follows. -/
def Illegal : List Char → Prop
  | [] => False
  | c :: cs => isBlank c = false ∧ isNameChar c = false ∧ isMark c = false ∧
      ¬(c = '.' ∧ ∃ d ∈ cs.head?, d.isDigit)

/-! ## Marks -/

/-- A mark is no blank and stands in no name and no number. -/
theorem not_isBlank_of_isMark {c : Char} (h : isMark c) :
    isBlank c = false ∧ isNameChar c = false := by
  have hmarks : c ∈ ['(', ')', '+', '-', '*', '/', '^', ','] := by
    simpa [isMark, or_assoc] using h
  have hall : ['(', ')', '+', '-', '*', '/', '^', ','].all
      (fun c => !isBlank c && !isNameChar c) = true := by decide
  simpa using List.all_eq_true.1 hall c hmarks

/-- A mark, or a point, opens no name and no number. -/
theorem not_isNameChar_of_sign {c : Char} (h : isMark c ∨ c = '.') : isNameChar c = false := by
  rcases h with h | rfl
  · exact (not_isBlank_of_isMark h).2
  · decide

/-! ## What the scanner takes -/

theorem lexeme?_name {c : Char} (hc : isNameStart c) (cs : List Char) :
    lexeme? (c :: cs) = some (c :: cs.takeWhile isNameChar, cs.dropWhile isNameChar) := by
  have hne : c ≠ '*' ∧ c ≠ '.' := by
    refine ⟨?_, ?_⟩ <;> (rintro rfl; revert hc; decide)
  unfold lexeme?
  split
  next h => cases h
  next h => exact absurd (List.cons.inj h).1 hne.1
  next h => exact absurd (List.cons.inj h).1 hne.2
  next h =>
    cases h
    rw [if_pos hc]

theorem lexeme?_digit {c : Char} (hc : c.isDigit) (cs : List Char) :
    lexeme? (c :: cs) = some (spanNumber (c :: cs)) := by
  have hne : c ≠ '*' ∧ c ≠ '.' := by
    refine ⟨?_, ?_⟩ <;> (rintro rfl; revert hc; decide)
  have hname : ¬isNameStart c := fun h => by
    rw [not_isDigit_of_isNameStart h] at hc
    cases hc
  unfold lexeme?
  split
  next h => cases h
  next h => exact absurd (List.cons.inj h).1 hne.1
  next h => exact absurd (List.cons.inj h).1 hne.2
  next h =>
    cases h
    rw [if_neg hname, if_pos hc]

theorem lexeme?_mark {c : Char} (hc : isMark c) {cs : List Char}
    (h : c = '*' → ∀ rest, cs ≠ '*' :: rest) : lexeme? (c :: cs) = some ([c], cs) := by
  have hnc := not_isNameChar_of_sign (.inl hc)
  have hname : ¬isNameStart c := fun hs => by
    rw [isNameChar_iff.2 (.inl hs)] at hnc
    cases hnc
  have hdigit : ¬c.isDigit := fun hd => by
    rw [isNameChar_of_isDigit hd] at hnc
    cases hnc
  unfold lexeme?
  split
  next he => cases he
  next rest he =>
    obtain ⟨rfl, rfl⟩ := List.cons.inj he
    exact absurd rfl (h rfl _)
  next he =>
    obtain ⟨rfl, rfl⟩ := List.cons.inj he
    exact absurd hc (by decide)
  next he =>
    cases he
    rw [if_neg hname, if_neg hdigit, if_pos hc]

theorem lexeme?_point {fs rest : List Char} (hf : Digits fs) (hne : fs ≠ [])
    (hr : Stops Char.isDigit rest) : lexeme? ('.' :: (fs ++ rest)) = some ('.' :: fs, rest) := by
  obtain ⟨d, ds, rfl⟩ := List.exists_cons_of_ne_nil hne
  unfold lexeme?
  simp only [takeWhile_run hf hr, dropWhile_run hf hr]

/-- Digits, a point and digits are taken as one number. -/
theorem spanNumber_decimal {ds fs rest : List Char} (hd : Digits ds) (hf : Digits fs)
    (hne : fs ≠ []) (hr : Stops Char.isDigit rest) :
    spanNumber (ds ++ '.' :: (fs ++ rest)) = (ds ++ '.' :: fs, rest) := by
  have hstop : Stops Char.isDigit ('.' :: (fs ++ rest)) := Text.stops_cons.2 rfl
  unfold spanNumber
  simp only [takeWhile_run hd hstop, dropWhile_run hd hstop, takeWhile_run hf hr,
    dropWhile_run hf hr]

theorem length_takeWhile_le_spanNumber (cs : List Char) :
    (cs.takeWhile Char.isDigit).length ≤ (spanNumber cs).1.length := by
  unfold spanNumber
  dsimp only
  split
  · split
    · exact Nat.le_refl _
    · rw [List.length_append]
      exact Nat.le_add_right ..
  · exact Nat.le_refl _

theorem length_le_takeWhile {p : Char → Bool} {run : List Char} (h : ∀ c ∈ run, p c)
    (rest : List Char) : run.length ≤ ((run ++ rest).takeWhile p).length := by
  rw [List.takeWhile_append_of_pos h, List.length_append]
  exact Nat.le_add_right ..

theorem exists_digits_append (cs : List Char) :
    ∃ run rest, Digits run ∧ Stops Char.isDigit rest ∧ run ++ rest = cs :=
  ⟨_, _, digits_takeWhile cs, stops_dropWhile Char.isDigit cs, List.takeWhile_append_dropWhile⟩

/-- In front of any text a lexeme is taken, or a text that is longer. -/
theorem Lexeme.taken {u : List Char} (h : Lexeme u) (cs : List Char) :
    ∃ t rest, lexeme? (u ++ cs) = some (t, rest) ∧ u.length ≤ t.length := by
  -- the digits that follow `u` belong to what is taken if `u` ends in digits after a point
  obtain ⟨run, tail, hrun, hstop, hsplit⟩ := exists_digits_append cs
  cases h with
  | @name c ds hc hds =>
    refine ⟨_, _, lexeme?_name hc (ds ++ cs), ?_⟩
    have hle := length_le_takeWhile hds cs
    simp only [List.length_cons]
    omega
  | integer hd hne =>
    obtain ⟨c, ds, rfl⟩ := List.exists_cons_of_ne_nil hne
    refine ⟨_, _, lexeme?_digit (hd c List.mem_cons_self) (ds ++ cs), ?_⟩
    have hle := length_le_takeWhile hd cs
    have hspan := length_takeWhile_le_spanNumber (c :: ds ++ cs)
    exact hle.trans hspan
  | @decimal ds fs hd hne hf hfne =>
    obtain ⟨c, ds, rfl⟩ := List.exists_cons_of_ne_nil hne
    have hspan := spanNumber_decimal hd (hf.append hrun) (List.append_ne_nil_of_left_ne_nil hfne _)
      hstop
    refine ⟨c :: ds ++ '.' :: (fs ++ run), tail, ?_, ?_⟩
    · have htext : c :: ds ++ '.' :: fs ++ cs = c :: (ds ++ '.' :: (fs ++ run ++ tail)) := by
        simp [← hsplit]
      rw [htext, lexeme?_digit (hd c List.mem_cons_self)]
      exact congrArg some hspan
    · simp only [List.length_append, List.length_cons]
      omega
  | @fraction fs hf hfne =>
    refine ⟨'.' :: (fs ++ run), tail, ?_, ?_⟩
    · rw [← lexeme?_point (hf.append hrun) (List.append_ne_nil_of_left_ne_nil hfne _) hstop,
        ← hsplit]
      simp
    · simp only [List.length_append, List.length_cons]
      omega
  | stars => exact ⟨_, _, rfl, Nat.le_refl _⟩
  | @mark c hc =>
    by_cases hstar : c = '*' ∧ ∃ rest, cs = '*' :: rest
    · obtain ⟨rfl, rest, rfl⟩ := hstar
      exact ⟨['*', '*'], rest, rfl, by decide⟩
    · refine ⟨[c], cs, lexeme?_mark hc fun h rest hcs => hstar ⟨h, rest, hcs⟩, Nat.le_refl _⟩

theorem lexeme_of_spanNumber {cs : List Char} (h : cs.takeWhile Char.isDigit ≠ []) :
    Lexeme (spanNumber cs).1 := by
  have hd := digits_takeWhile cs
  unfold spanNumber
  dsimp only
  split
  next fs _ =>
    split
    next => exact .integer hd h
    next hf => exact .decimal hd h (digits_takeWhile fs) hf
  next => exact .integer hd h

/-- Only lexemes are taken. -/
theorem lexeme_of_lexeme? {cs t rest : List Char} (h : lexeme? cs = some (t, rest)) :
    Lexeme t := by
  unfold lexeme? at h
  split at h
  next => cases h
  next => cases h; exact .stars
  next r =>
    split at h
    next => cases h
    next hf =>
      cases h
      exact .fraction (digits_takeWhile r) hf
  next c r _ _ =>
    split at h
    next hc =>
      cases h
      exact .name hc fun d hd => List.mem_takeWhile_imp hd
    next =>
      split at h
      next hc =>
        have hspan : spanNumber (c :: r) = (t, rest) := Option.some.inj h
        have hlexeme : Lexeme (spanNumber (c :: r)).1 := lexeme_of_spanNumber (by simp [hc])
        rwa [hspan] at hlexeme
      next =>
        split at h
        next hc => cases h; exact .mark hc
        next => cases h

/-- What is taken off the front of a text is the longest lexeme there. -/
theorem lexeme?_eq_some_iff {cs t rest : List Char} :
    lexeme? cs = some (t, rest) ↔ t ++ rest = cs ∧ Longest t cs := by
  have hlongest {t rest : List Char} (h : lexeme? cs = some (t, rest)) : Longest t cs := by
    refine ⟨lexeme_of_lexeme? h, ⟨rest, lexeme?_append h⟩, ?_⟩
    rintro u hu ⟨r, rfl⟩
    obtain ⟨t', rest', ht', hle⟩ := hu.taken r
    rw [h] at ht'
    cases ht'
    exact hle
  refine ⟨fun h => ⟨lexeme?_append h, hlongest h⟩, ?_⟩
  rintro ⟨rfl, ht⟩
  obtain ⟨t', rest', ht', -⟩ := ht.lexeme.taken rest
  have heq := lexeme?_append ht'
  cases (hlongest ht').unique ht
  rw [ht', List.append_cancel_left heq]

/-! ## Illegal positions -/

/-- No position of `a` is illegal if `cs` follows it. -/
def Clear (a cs : List Char) : Prop := ∀ j < a.length, ¬Illegal ((a ++ cs).drop j)

theorem Clear.nil {cs : List Char} : Clear [] cs := fun _ h => absurd h (Nat.not_lt_zero _)

theorem Clear.append {a b cs : List Char} (ha : Clear a (b ++ cs)) (hb : Clear b cs) :
    Clear (a ++ b) cs := by
  intro j hj
  rw [List.append_assoc]
  by_cases hja : j < a.length
  · exact ha j hja
  · rw [List.length_append] at hj
    rw [List.drop_append, List.drop_eq_nil_of_le (by omega), List.nil_append]
    exact hb _ (by omega)

theorem Clear.singleton {c : Char} {cs : List Char} (h : ¬Illegal (c :: cs)) : Clear [c] cs := by
  intro j hj
  have hj : j = 0 := by
    simp only [List.length_cons, List.length_nil] at hj
    omega
  rw [hj]
  exact h

/-- Blanks, marks, and the characters of names have a place everywhere. -/
theorem Clear.run {a : List Char} (h : ∀ c ∈ a, isBlank c ∨ isNameChar c ∨ isMark c)
    (cs : List Char) : Clear a cs := by
  induction a with
  | nil => exact .nil
  | cons c a ih =>
    refine Clear.append (a := [c]) (.singleton ?_) (ih fun d hd => h d (List.mem_cons_of_mem _ hd))
    rintro ⟨hb, hn, hm, -⟩
    have hc := h c List.mem_cons_self
    rw [hb, hn, hm] at hc
    simp at hc

theorem Clear.digits {ds : List Char} (h : Digits ds) (cs : List Char) : Clear ds cs :=
  .run (fun c hc => .inr (.inl (isNameChar_of_isDigit (h c hc)))) cs

/-- A point is in its place in front of digits. -/
theorem Clear.point {fs : List Char} (hf : Digits fs) (hne : fs ≠ []) (cs : List Char) :
    Clear ('.' :: fs) cs := by
  refine Clear.append (a := ['.']) (.singleton ?_) (.digits hf cs)
  rintro ⟨-, -, -, hpoint⟩
  obtain ⟨d, ds, rfl⟩ := List.exists_cons_of_ne_nil hne
  exact hpoint ⟨rfl, d, rfl, hf d List.mem_cons_self⟩

/-- No position inside a lexeme is illegal. -/
theorem Lexeme.clear {t : List Char} (h : Lexeme t) (cs : List Char) : Clear t cs := by
  cases h with
  | name hc hcs =>
    refine .run (fun d hd => .inr (.inl ?_)) cs
    rcases List.mem_cons.1 hd with rfl | hd
    · exact Text.isNameChar_of_isNameStart hc
    · exact hcs d hd
  | integer hd hne => exact .digits hd cs
  | decimal hd hne hf hfne => exact .append (.digits hd _) (.point hf hfne cs)
  | fraction hf hfne => exact .point hf hfne cs
  | stars =>
    refine .run (fun d hd => ?_) cs
    rw [List.eq_of_mem_replicate (a := '*') (n := 2) hd]
    decide
  | mark hc => exact .run (fun d hd => .inr (.inr (List.mem_singleton.1 hd ▸ hc))) cs

/-- A lexeme starts at every position but the illegal ones and those of blanks. -/
theorem exists_lexeme_front {c : Char} {cs : List Char} (hb : isBlank c = false)
    (h : ¬Illegal (c :: cs)) : ∃ u, Lexeme u ∧ u <+: c :: cs := by
  by_cases hn : isNameChar c
  · rcases isNameChar_iff.1 hn with hs | hd
    · exact ⟨[c], .name hs (by simp), cs, rfl⟩
    · exact ⟨[c], .integer (by simpa [Digits] using hd) (by simp), cs, rfl⟩
  · by_cases hm : isMark c
    · exact ⟨[c], .mark hm, cs, rfl⟩
    · have hpoint : c = '.' ∧ ∃ d ∈ cs.head?, d.isDigit := by
        refine Classical.not_not.1 fun hp => h ⟨hb, ?_, ?_, hp⟩
        · exact Bool.not_eq_true _ ▸ hn
        · exact Bool.not_eq_true _ ▸ hm
      obtain ⟨rfl, d, hd, hdigit⟩ := hpoint
      obtain ⟨ds, rfl⟩ := List.head?_eq_some_iff.1 hd
      exact ⟨['.', d], .fraction (by simpa [Digits] using hdigit) (by simp), ds, rfl⟩

end ComplexExpr.Token
