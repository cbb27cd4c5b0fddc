import ComplexExpr.Proofs.Value.Split

/-!
# The grammar of complex literals

`Literal` has one constructor for each shape of a literal, `Literal.text` is
its text without blanks and `Literal.value` what it denotes. The reader splits
a text at a sign and reads the two parts, and knows nothing of shapes. Main
statements:

* `read?_text`, `exists_literal_of_read?`: it reads every literal as its
  value, and nothing else;
* `Literal.text_inj`: a text has one shape, in one way;
* `ofText_iff_literal`: so a text denotes a value iff, without its blanks, it
  is a literal, and the two ways to fail are told apart.
-/

namespace ComplexExpr.Value

open Text (ne_of_isDigit)

/-- What stands before `i`: at most a sign, for one, or a numeral. -/
inductive Factor
  | one (s : Option Sign)
  | numeral (n : Numeral) (h : n.WellFormed)

namespace Factor

def text : Factor → List Char
  | one s => Sign.text s
  | numeral n _ => n.toChars

def sign : Factor → Option Sign
  | one s => s
  | numeral n _ => n.sign

def value : Factor → Float
  | one (some .minus) => -1.0
  | one _ => 1.0
  | numeral n _ => n.toFloat

end Factor

/-- A complex literal: a numeral, an imaginary part, or both, where the imaginary part after a
real one has a sign. -/
inductive Literal
  | real (n : Numeral) (h : n.WellFormed)
  | imaginary (f : Factor)
  | both (n : Numeral) (h : n.WellFormed) (f : Factor) (hs : f.sign ≠ none)

namespace Literal

/-- The text of a literal, without blanks. -/
def text : Literal → List Char
  | real n _ => n.toChars
  | imaginary f => f.text ++ ['i']
  | both n _ f _ => n.toChars ++ f.text ++ ['i']

/-- The value of a literal. -/
def value : Literal → Value
  | real n _ => ⟨n.toFloat, 0.0⟩
  | imaginary f => ⟨0.0, f.value⟩
  | both n _ f _ => ⟨n.toFloat, f.value⟩

end Literal

/-! ## The ends of numerals -/

theorem exists_getLast?_of_digits {ds : List Char} (h : Digits ds) (hne : ds ≠ []) :
    ∃ c ∈ ds.getLast?, c.isDigit := by
  refine ⟨ds.getLast hne, ?_, h _ (List.getLast_mem hne)⟩
  rw [List.getLast?_eq_some_getLast hne]
  rfl

/-- A numeral ends in a digit or in its point. -/
theorem getLast?_toChars {n : Numeral} (h : n.WellFormed) :
    ∃ c ∈ n.toChars.getLast?, c.isDigit ∨ c = '.' := by
  rw [Numeral.toChars_eq]
  cases hp : n.power with
  | some p =>
    obtain ⟨c, hc, hd⟩ := exists_getLast?_of_digits (h.power p hp).digits (h.power p hp).ne_nil
    refine ⟨c, ?_, .inl hd⟩
    rw [PowerOfTen.text, PowerOfTen.toChars_eq]
    simp [List.getLast?_append, List.getLast?_cons, Option.mem_def.1 hc]
  | none =>
    cases hf : n.fraction with
    | some ds =>
      by_cases hds : ds = []
      · refine ⟨'.', ?_, .inr rfl⟩
        simp [hds, Numeral.fractionText, PowerOfTen.text, List.getLast?_append]
      · obtain ⟨c, hc, hd⟩ := exists_getLast?_of_digits (h.fraction ds hf) hds
        refine ⟨c, ?_, .inl hd⟩
        simp [Numeral.fractionText, PowerOfTen.text, List.getLast?_append, List.getLast?_cons,
          Option.mem_def.1 hc]
    | none =>
      have hne : n.whole ≠ [] := by
        have hd := h.hasDigit
        simpa [Numeral.HasDigit, hf] using hd
      obtain ⟨c, hc, hd⟩ := exists_getLast?_of_digits h.whole hne
      refine ⟨c, ?_, .inl hd⟩
      simp [Numeral.fractionText, PowerOfTen.text, List.getLast?_append, Option.mem_def.1 hc]

/-- What ends in a numeral's last character does not end in `i`, nor in a marker. -/
theorem ne_unit_of_numeral {c : Char} (h : c.isDigit ∨ c = '.') :
    c ≠ 'i' ∧ PowerOfTen.isMarker c = false := by
  rcases h with h | rfl
  · obtain ⟨-, -, -, he, hE, hi⟩ := ne_of_isDigit h
    exact ⟨hi, by simp [PowerOfTen.isMarker, he, hE]⟩
  · exact ⟨by decide, rfl⟩

theorem toChars_ne_append_unit {n : Numeral} (h : n.WellFormed) (cs : List Char) :
    n.toChars ≠ cs ++ ['i'] := by
  intro he
  obtain ⟨c, hc, hd⟩ := getLast?_toChars h
  rw [he, List.getLast?_concat] at hc
  exact (ne_unit_of_numeral hd).1 (Option.some.inj hc).symm

/-- A numeral breaks off before a sign. -/
theorem breaks_toChars {n : Numeral} (h : n.WellFormed) (s : Sign) (cs : List Char) :
    Breaks n.toChars (s.toChar :: cs) := by
  obtain ⟨c, hc, hd⟩ := getLast?_toChars h
  refine ⟨c, hc, s.toChar, rfl, not_bound_iff.2 ⟨?_, (ne_unit_of_numeral hd).2⟩⟩
  rw [Sign.ofChar?_toChar]
  rfl

theorem toChars_ne_nil {n : Numeral} (h : n.WellFormed) : n.toChars ≠ [] := by
  intro he
  obtain ⟨c, hc, -⟩ := getLast?_toChars h
  rw [he] at hc
  cases hc

/-- A sign alone is no numeral. -/
theorem toChars_ne_sign {n : Numeral} (h : n.WellFormed) (s : Sign) : n.toChars ≠ [s.toChar] := by
  intro he
  obtain ⟨c, hc, hd⟩ := getLast?_toChars h
  rw [he] at hc
  cases hc
  revert hd
  cases s <;> decide

/-- A numeral has a sign iff its text opens with one. -/
theorem sign_eq_some_iff {m : Numeral} (h : m.WellFormed) {s : Sign} :
    m.sign = some s ↔ ∃ cs, m.toChars = s.toChar :: cs := by
  rw [Numeral.toChars_eq]
  constructor
  · intro hs
    rw [hs]
    exact ⟨_, rfl⟩
  · rintro ⟨cs, hcs⟩
    cases hm : m.sign with
    | some s' =>
      rw [hm] at hcs
      exact congrArg some (Sign.toChar_inj (List.cons.inj hcs).1)
    | none =>
      have hstop := Numeral.stops_digitsText h (PowerOfTen.text m.power)
      rw [hm] at hcs
      replace hcs : m.whole ++ _ = s.toChar :: cs := hcs
      rw [hcs, Text.stops_cons, Sign.ofChar?_toChar] at hstop
      cases hstop

/-! ## Reading numerals -/

theorem readReal?_toChars {n : Numeral} (h : n.WellFormed) :
    readReal? n.toChars = some n.toFloat := by
  rw [readReal?, Numeral.read?_eq_some_iff.2 ⟨h, rfl⟩]
  rfl

theorem exists_numeral_of_readReal? {cs : List Char} {x : Float} (h : readReal? cs = some x) :
    ∃ n : Numeral, n.WellFormed ∧ n.toChars = cs ∧ n.toFloat = x := by
  obtain ⟨n, hn, rfl⟩ := Option.map_eq_some_iff.1 h
  obtain ⟨hw, ht⟩ := Numeral.read?_eq_some_iff.1 hn
  exact ⟨n, hw, ht, rfl⟩

/-! ## Factors -/

namespace Factor

theorem sign_eq_some_iff (f : Factor) {s : Sign} :
    f.sign = some s ↔ ∃ cs, f.text = s.toChar :: cs := by
  cases f with
  | numeral n h => exact Value.sign_eq_some_iff h
  | one s' =>
    cases s' with
    | none =>
      constructor
      · rintro ⟨⟩
      · rintro ⟨cs, ⟨⟩⟩
    | some s' =>
      constructor
      · rintro ⟨⟩
        exact ⟨[], rfl⟩
      · rintro ⟨cs, h⟩
        exact congrArg some (Sign.toChar_inj (List.cons.inj h).1)

/-- No factor has a place to be split. -/
theorem splitParts_text (f : Factor) : splitParts f.text = none := by
  cases f with
  | numeral n h => exact splitParts_toChars h
  | one s => cases s <;> rfl

/-- A text is that of one factor at most. -/
theorem text_inj {f g : Factor} (h : f.text = g.text) : f = g := by
  have hne (s : Option Sign) {n : Numeral} (hn : n.WellFormed) : Sign.text s ≠ n.toChars := by
    cases s with
    | none => exact (toChars_ne_nil hn).symm
    | some s => exact (toChars_ne_sign hn s).symm
  cases f with
  | one s =>
    cases g with
    | one s' => rw [Sign.text_inj h]
    | numeral n hn => exact absurd h (hne s hn)
  | numeral n hn =>
    cases g with
    | one s => exact absurd h.symm (hne s hn)
    | numeral m hm =>
      cases Numeral.toChars_inj hn hm h
      rfl

/-- A factor is read as its value. -/
theorem readFactor?_text (f : Factor) : readFactor? f.text = some f.value := by
  cases f with
  | one s =>
    rcases s with - | - | -
    all_goals rfl
  | numeral n h =>
    have hread : readFactor? n.toChars = readReal? n.toChars := by
      unfold readFactor?
      split
      next he => exact absurd he (toChars_ne_nil h)
      next he => exact absurd he (toChars_ne_sign h .plus)
      next he => exact absurd he (toChars_ne_sign h .minus)
      next => rfl
    exact hread.trans (readReal?_toChars h)

/-- Nothing but factors is read. -/
theorem exists_of_readFactor? {cs : List Char} {x : Float} (h : readFactor? cs = some x) :
    ∃ f : Factor, f.text = cs ∧ f.value = x := by
  unfold readFactor? at h
  split at h
  next => cases h; exact ⟨.one none, rfl, rfl⟩
  next => cases h; exact ⟨.one (some .plus), rfl, rfl⟩
  next => cases h; exact ⟨.one (some .minus), rfl, rfl⟩
  next =>
    obtain ⟨n, hn, rfl, rfl⟩ := exists_numeral_of_readReal? h
    exact ⟨.numeral n hn, rfl, rfl⟩

end Factor

/-! ## Literals -/

/-- What precedes `i` is the factor, if it is not split. -/
theorem read?_of_splitParts_eq_none {core : List Char} (h : splitParts core = none) :
    read? (core ++ ['i']) = (readFactor? core).map fun im => ⟨0.0, im⟩ := by
  have hr : (core ++ ['i']).reverse = 'i' :: core.reverse := by simp
  unfold read?
  simp only [hr, List.reverse_reverse, h]

/-- What precedes `i` is the real part and the factor, if it is split. -/
theorem read?_of_splitParts_eq_some {core re im : List Char} (h : splitParts core = some (re, im)) :
    read? (core ++ ['i']) =
      (readReal? re).bind fun x => (readFactor? im).map fun y => ⟨x, y⟩ := by
  have hr : (core ++ ['i']).reverse = 'i' :: core.reverse := by simp
  unfold read?
  simp only [hr, List.reverse_reverse, h]
  cases readReal? re <;> cases readFactor? im <;> rfl

theorem read?_of_ne {cs : List Char} (h : ∀ core, cs ≠ core ++ ['i']) :
    read? cs = (readReal? cs).map fun re => ⟨re, 0.0⟩ := by
  unfold read?
  split
  next rest hr =>
    refine absurd ?_ (h rest.reverse)
    rw [← List.reverse_reverse cs, hr, List.reverse_cons]
  next => rfl

/-- A literal with two parts is split between them. -/
theorem splitParts_both {n : Numeral} (h : n.WellFormed) {f : Factor} (hs : f.sign ≠ none) :
    splitParts (n.toChars ++ f.text) = some (n.toChars, f.text) := by
  obtain ⟨s, hsign⟩ := Option.ne_none_iff_exists'.1 hs
  obtain ⟨cs, hcs⟩ := f.sign_eq_some_iff.1 hsign
  refine splitParts_append ?_ f.splitParts_text
  rw [hcs]
  exact breaks_toChars h s cs

/-- Every literal is read as its value. -/
theorem read?_text (l : Literal) : read? l.text = some l.value := by
  cases l with
  | real n h =>
    rw [Literal.text, read?_of_ne (toChars_ne_append_unit h), readReal?_toChars h]
    rfl
  | imaginary f =>
    rw [Literal.text, read?_of_splitParts_eq_none f.splitParts_text, f.readFactor?_text]
    rfl
  | both n h f hs =>
    rw [Literal.text, read?_of_splitParts_eq_some (splitParts_both h hs), readReal?_toChars h,
      f.readFactor?_text]
    rfl

/-- Nothing but literals is read. -/
theorem exists_literal_of_read? {cs : List Char} {z : Value} (h : read? cs = some z) :
    ∃ l : Literal, l.text = cs ∧ l.value = z := by
  by_cases hi : ∃ core, cs = core ++ ['i']
  · obtain ⟨core, rfl⟩ := hi
    cases hsplit : splitParts core with
    | none =>
      rw [read?_of_splitParts_eq_none hsplit] at h
      obtain ⟨im, him, rfl⟩ := Option.map_eq_some_iff.1 h
      obtain ⟨f, rfl, rfl⟩ := Factor.exists_of_readFactor? him
      exact ⟨.imaginary f, rfl, rfl⟩
    | some parts =>
      obtain ⟨re, im⟩ := parts
      rw [read?_of_splitParts_eq_some hsplit] at h
      obtain ⟨x, hx, h⟩ := Option.bind_eq_some_iff.1 h
      obtain ⟨y, hy, rfl⟩ := Option.map_eq_some_iff.1 h
      obtain ⟨rfl, ⟨c, -, d, hd, hbreak⟩, -⟩ := breaks_of_splitParts hsplit
      obtain ⟨s, hs⟩ := Option.isSome_iff_exists.1 (not_bound_iff.1 hbreak).1
      obtain ⟨n, hn, rfl, rfl⟩ := exists_numeral_of_readReal? hx
      obtain ⟨f, rfl, rfl⟩ := Factor.exists_of_readFactor? hy
      have hsign : f.sign = some s := by
        obtain ⟨cs, hcs⟩ := List.head?_eq_some_iff.1 hd
        refine f.sign_eq_some_iff.2 ⟨cs, ?_⟩
        rw [hcs, Sign.toChar_of_ofChar? hs]
      have hne : f.sign ≠ none := by
        rw [hsign]
        exact Option.some_ne_none s
      exact ⟨.both n hn f hne, rfl, rfl⟩
  · rw [read?_of_ne fun core hc => hi ⟨core, hc⟩] at h
    obtain ⟨x, hx, rfl⟩ := Option.map_eq_some_iff.1 h
    obtain ⟨n, hn, rfl, rfl⟩ := exists_numeral_of_readReal? hx
    exact ⟨.real n hn, rfl, rfl⟩

/-- A text has one shape, in one way. -/
theorem Literal.text_inj {l l' : Literal} (h : l.text = l'.text) : l = l' := by
  cases l with
  | real n hn =>
    cases l' with
    | real m hm =>
      cases Numeral.toChars_inj hn hm h
      rfl
    | imaginary f => exact absurd h (toChars_ne_append_unit hn _)
    | both m hm f hf => exact absurd h (toChars_ne_append_unit hn _)
  | imaginary f =>
    cases l' with
    | real m hm => exact absurd h.symm (toChars_ne_append_unit hm _)
    | imaginary g => rw [Factor.text_inj (List.append_cancel_right h)]
    | both m hm g hg =>
      have hsplit := congrArg splitParts (List.append_cancel_right h)
      rw [f.splitParts_text, splitParts_both hm hg] at hsplit
      cases hsplit
  | both n hn f hf =>
    cases l' with
    | real m hm => exact absurd h.symm (toChars_ne_append_unit hm _)
    | imaginary g =>
      have hsplit := congrArg splitParts (List.append_cancel_right h)
      rw [g.splitParts_text, splitParts_both hn hf] at hsplit
      cases hsplit
    | both m hm g hg =>
      have hsplit := congrArg splitParts (List.append_cancel_right h)
      rw [splitParts_both hn hf, splitParts_both hm hg] at hsplit
      obtain ⟨hnum, hfac⟩ := Prod.mk.inj (Option.some.inj hsplit)
      cases Numeral.toChars_inj hn hm hnum
      cases Factor.text_inj hfac
      rfl

/-! ## The reader -/

theorem ofText_of_removeBlanks_ne {text : String} (h : Text.removeBlanks text.toList ≠ []) :
    ofText text = match read? (Text.removeBlanks text.toList) with
      | some z => .ok z
      | none => .error (.malformed (String.ofList (Text.removeBlanks text.toList))) := by
  unfold ofText
  split
  next he => exact absurd he h
  next => rfl

/-- What holds of every character of numerals, and of `i`, holds of every character of a
literal. -/
theorem Literal.forall_mem_text {p : Char → Prop} (l : Literal)
    (hdigit : ∀ c : Char, c.isDigit → p c) (hsign : ∀ s : Sign, p s.toChar) (hpoint : p '.')
    (hmarker : p 'e' ∧ p 'E') (hunit : p 'i') : ∀ c ∈ l.text, p c := by
  have hnumeral {n : Numeral} (h : n.WellFormed) : ∀ c ∈ n.toChars, p c :=
    h.forall_mem hdigit hsign hpoint hmarker
  have hfactor (f : Factor) : ∀ c ∈ f.text ++ ['i'], p c := by
    refine List.forall_mem_append.2 ⟨?_, List.forall_mem_singleton.2 hunit⟩
    cases f with
    | one s => exact Sign.forall_mem_text hsign s
    | numeral n h => exact hnumeral h
  cases l with
  | real n h => exact hnumeral h
  | imaginary f => exact hfactor f
  | both n h f hs =>
    rw [text, List.append_assoc]
    exact List.forall_mem_append.2 ⟨hnumeral h, hfactor f⟩

/-- A literal holds no blanks. -/
theorem Literal.removeBlanks_text (l : Literal) : Text.removeBlanks l.text = l.text := by
  refine Text.removeBlanks_eq_self (l.forall_mem_text (fun c hc => ?_) (fun s => ?_) (by decide)
    (by decide) (by decide))
  · exact Text.not_isBlank_of_isNameChar (Text.isNameChar_of_isDigit hc)
  · cases s <;> decide

theorem Literal.text_ne_nil (l : Literal) : l.text ≠ [] := by
  cases l with
  | real n h => exact toChars_ne_nil h
  | imaginary f => simp [text]
  | both n h f hs => simp [text]

/-- A text that is a literal denotes its value. -/
theorem ofText_text {text : String} {l : Literal} (h : text.toList = l.text) :
    ofText text = .ok l.value := by
  have hcs : Text.removeBlanks text.toList = l.text := by rw [h, l.removeBlanks_text]
  rw [ofText_of_removeBlanks_ne (by rw [hcs]; exact l.text_ne_nil), hcs, read?_text]

/-- A text of blanks is refused as empty. Of any other, the value is that of the one literal which
the text is without its blanks, and if it is none, the text without blanks is the fault. -/
theorem ofText_iff_literal (text : String) :
    let cs := Text.removeBlanks text.toList
    (cs = [] → ofText text = .error (.empty text)) ∧
    (cs ≠ [] →
      (∀ z, ofText text = .ok z ↔ ∃ l : Literal, l.text = cs ∧ l.value = z) ∧
      (∀ l l' : Literal, l.text = cs → l'.text = cs → l = l') ∧
      ((¬∃ l : Literal, l.text = cs) → ofText text = .error (.malformed (String.ofList cs)))) := by
  refine ⟨fun hnil => ?_, fun hne => ⟨fun z => ⟨fun h => ?_, ?_⟩, ?_, fun hnone => ?_⟩⟩
  · rw [ofText, hnil]
  · rw [ofText_of_removeBlanks_ne hne] at h
    split at h
    next z' hz =>
      cases h
      exact exists_literal_of_read? hz
    next => cases h
  · rintro ⟨l, hl, rfl⟩
    rw [ofText_of_removeBlanks_ne hne, ← hl, read?_text]
  · exact fun l l' hl hl' => Literal.text_inj (hl.trans hl'.symm)
  · rw [ofText_of_removeBlanks_ne hne]
    split
    next z hz =>
      obtain ⟨l, hl, -⟩ := exists_literal_of_read? hz
      exact absurd ⟨l, hl⟩ hnone
    next => rfl

/-- Two parts with powers of ten: the sign before the `2` splits the text, the other two do not. -/
theorem ofText_powers :
    ofText "1e-07 - 2E+5i" = .ok ⟨Numeral.toFloat ⟨none, ['1'], none, some ⟨false, some .minus,
      ['0', '7']⟩⟩, Numeral.toFloat ⟨some .minus, ['2'], none, some ⟨true, some .plus, ['5']⟩⟩⟩ := by
  have hn : (⟨none, ['1'], none, some ⟨false, some .minus, ['0', '7']⟩⟩ : Numeral).WellFormed :=
    ((@Numeral.read?_eq_some_iff "1e-07".toList _).1 (by decide)).1
  have hm : (⟨some .minus, ['2'], none, some ⟨true, some .plus, ['5']⟩⟩ : Numeral).WellFormed :=
    ((@Numeral.read?_eq_some_iff "-2E+5".toList _).1 (by decide)).1
  refine (((ofText_iff_literal _).2 (by decide)).1 _).2 ⟨.both _ hn (.numeral _ hm) ?_, ?_, rfl⟩
  · exact Option.some_ne_none _
  · rfl

end ComplexExpr.Value
