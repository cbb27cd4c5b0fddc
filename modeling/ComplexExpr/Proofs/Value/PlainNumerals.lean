import ComplexExpr.Proofs.Value.Pieces

/-!
# Texts with plain numerals

`PlainNumerals` says of a text, character by character, that its numerals are
plain and have no blanks inside. A text that denotes a value and is such is a
literal's pieces with blanks around them (`exists_literal_of_plainNumerals`):
the blanks that a text has may stand in no other places.
-/

namespace ComplexExpr

open Text (isBlank removeBlanks)
open Token (Blanks spread)

/-- The next character that is no blank. -/
theorem Text.exists_of_removeBlanks_eq_cons {cs r : List Char} {c : Char} (h : removeBlanks cs = c :: r) :
    ∃ bs cs', cs = bs ++ c :: cs' ∧ (∀ b ∈ bs, isBlank b) ∧ isBlank c = false ∧ removeBlanks cs' = r := by
  obtain ⟨bs, cs', hcs, hbs, hc, hr⟩ := List.filter_eq_cons_iff.1 h
  exact ⟨bs, cs', hcs, fun b hb => by simpa using hbs b hb, by simpa using hc, hr⟩

namespace Value

/-- A character of a numeral without its sign and power of ten. -/
def isNumeric (c : Char) : Bool := c.isDigit || c == '.'

/-- Two characters of numerals have other characters between them, if there are blanks. -/
def Unbroken (cs : List Char) : Prop :=
  ∀ a c bs d b, cs = a ++ c :: (bs ++ d :: b) → (∀ x ∈ bs, isBlank x) → isNumeric c → isNumeric d →
    bs = []

theorem Unbroken.of_append {a cs : List Char} (h : Unbroken (a ++ cs)) : Unbroken cs := by
  rintro a' c bs d b rfl
  exact h (a ++ a') c bs d b (by rw [List.append_assoc])

/-- A row of digits and points goes on with the next character, if that is no blank. -/
theorem Unbroken.exists_numeric {c : Char} {t cs r : List Char} (h : Unbroken (c :: cs))
    (hc : isNumeric c) (ht : ∀ d ∈ t, isNumeric d) (hcs : removeBlanks cs = t ++ r) :
    ∃ cs', cs = t ++ cs' ∧ removeBlanks cs' = r := by
  induction t generalizing c cs with
  | nil => exact ⟨cs, rfl, hcs⟩
  | cons d t ih =>
    rw [List.forall_mem_cons] at ht
    obtain ⟨bs, cs', rfl, hbs, -, hr⟩ := Text.exists_of_removeBlanks_eq_cons hcs
    obtain rfl := h [] c bs d cs' rfl hbs hc ht.1
    obtain ⟨cs'', rfl, hr'⟩ := ih (h.of_append (a := [c])) ht.1 ht.2 hr
    exact ⟨cs'', rfl, hr'⟩

/-- A piece that is one character, or a row of digits and points. -/
def Solid (t : List Char) : Prop := (∃ c, t = [c]) ∨ t ≠ [] ∧ ∀ c ∈ t, isNumeric c

theorem Unbroken.exists_piece {cs t r : List Char} (h : Unbroken cs) (ht : Solid t)
    (hcs : removeBlanks cs = t ++ r) :
    ∃ (bs : Blanks) (cs' : List Char), cs = bs.chars ++ (t ++ cs') ∧ removeBlanks cs' = r := by
  have hne : t ≠ [] := by
    obtain ⟨c, rfl⟩ | ⟨hne, -⟩ := ht
    · exact List.cons_ne_nil c []
    · exact hne
  obtain ⟨c, t, rfl⟩ := List.exists_cons_of_ne_nil hne
  obtain ⟨bs, cs', rfl, hbs, -, hr⟩ := Text.exists_of_removeBlanks_eq_cons hcs
  obtain ⟨c', h'⟩ | ⟨-, hnum⟩ := ht
  · obtain ⟨rfl, rfl⟩ := List.cons.inj h'
    exact ⟨⟨bs, hbs⟩, cs', rfl, hr⟩
  · rw [List.forall_mem_cons] at hnum
    obtain ⟨cs'', rfl, hr'⟩ := h.of_append.exists_numeric hnum.1 hnum.2 hr
    exact ⟨⟨bs, hbs⟩, cs'', rfl, hr'⟩

/-- A run of blanks before other runs. -/
def consGap (bs : Blanks) (gaps : ℕ → Blanks) : ℕ → Blanks
  | 0 => bs
  | i + 1 => gaps i

/-- An unbroken text that is some pieces without its blanks has its blanks around the pieces. -/
theorem Unbroken.exists_spread {cs : List Char} {ts : List (List Char)} (h : Unbroken cs)
    (ht : ∀ t ∈ ts, Solid t) (hcs : removeBlanks cs = ts.flatten) : ∃ gaps, cs = spread gaps ts := by
  induction ts generalizing cs with
  | nil =>
    have hblank : ∀ c ∈ cs, isBlank c := by
      simpa [removeBlanks, List.filter_eq_nil_iff] using hcs
    exact ⟨fun _ => ⟨cs, hblank⟩, rfl⟩
  | cons t ts ih =>
    rw [List.forall_mem_cons] at ht
    obtain ⟨bs, cs', rfl, hr⟩ := h.exists_piece ht.1 hcs
    obtain ⟨gaps, rfl⟩ := ih h.of_append.of_append ht.2 hr
    exact ⟨consGap bs gaps, rfl⟩

/-- The numerals of a text are plain: digits, with or without a point and digits after it, or a
point and digits, with no blanks inside. -/
structure PlainNumerals (cs : List Char) : Prop where
  not_isMarker : ∀ c ∈ cs, PowerOfTen.isMarker c = false
  point : ∀ a b, cs = a ++ '.' :: b → ∃ d ∈ b.head?, d.isDigit
  unbroken : Unbroken cs

theorem PlainNumerals.isPlain {cs x y : List Char} (hp : PlainNumerals cs) {n : Numeral}
    (hcs : removeBlanks cs = x ++ (n.toChars ++ y))
    (hy : Text.Stops Char.isDigit y) : n.unsigned.IsPlain := by
  rw [Numeral.toChars_eq] at hcs
  have hpower : n.power = none := by
    cases hn : n.power with
    | none => rfl
    | some p =>
      have hmem : (if p.capital then 'E' else 'e') ∈ removeBlanks cs := by
        rw [hcs, hn]
        simp [PowerOfTen.text, PowerOfTen.toChars_eq]
      have hmark := hp.not_isMarker _ (List.mem_of_mem_filter hmem)
      split at hmark <;> cases hmark
  refine ⟨rfl, fun hf => ?_, hpower⟩
  have hpoint : removeBlanks cs = (x ++ (Sign.text n.sign ++ n.whole)) ++ '.' :: y := by
    rw [hcs, hpower, show n.fraction = some [] from hf]
    simp [Numeral.fractionText, PowerOfTen.text]
  obtain ⟨a, b, rfl, -, hb⟩ := List.filter_eq_append_iff.1 hpoint
  obtain ⟨bs, b, rfl, -, -, hr⟩ := Text.exists_of_removeBlanks_eq_cons hb
  obtain ⟨d, hd, hdigit⟩ := hp.point (a ++ bs) b (by rw [List.append_assoc])
  obtain ⟨b, rfl⟩ := List.head?_eq_some_iff.1 hd
  have hblank := Text.not_isBlank_of_isNameChar (Text.isNameChar_of_isDigit hdigit)
  have hstop := hy d (by rw [← hr, removeBlanks, List.filter_cons_of_pos (by rw [hblank]; rfl)]; rfl)
  rw [hdigit] at hstop
  cases hstop

theorem Factor.isPlain {cs x : List Char} (hp : PlainNumerals cs) {f : Factor}
    (hcs : removeBlanks cs = x ++ (f.text ++ ['i'])) : f.IsPlain := by
  cases f with
  | one s => trivial
  | numeral n h => exact hp.isPlain hcs (Text.stops_cons.2 (by decide))

theorem Literal.isPlain {cs : List Char} (hp : PlainNumerals cs) {l : Literal}
    (hcs : removeBlanks cs = l.text) : l.IsPlain := by
  cases l with
  | real n h => exact hp.isPlain (x := []) (y := []) (by rw [hcs, text]; simp) Text.stops_nil
  | imaginary f => exact Factor.isPlain (x := []) hp hcs
  | both n h f hs =>
    rw [text, List.append_assoc] at hcs
    refine ⟨hp.isPlain (x := []) hcs ?_, Factor.isPlain hp hcs⟩
    obtain ⟨s, hs⟩ := Option.ne_none_iff_exists'.1 hs
    obtain ⟨cs', hf⟩ := f.sign_eq_some_iff.1 hs
    rw [hf]
    exact Text.stops_cons.2 (by cases s <;> decide)

theorem solid_toChars {n : Numeral} (h : n.WellFormed) (hp : n.unsigned.IsPlain) :
    Solid n.unsigned.toChars := by
  refine .inr ⟨toChars_ne_nil h.unsigned, ?_⟩
  have hdigits {ds : List Char} (hd : Digits ds) : ∀ c ∈ ds, isNumeric c := fun c hc =>
    Bool.or_eq_true_iff.2 (.inl (hd c hc))
  rw [Numeral.toChars_eq, hp.2.2]
  refine List.forall_mem_append.2 ⟨List.forall_mem_nil _, List.forall_mem_append.2
    ⟨hdigits h.whole, ?_⟩⟩
  rw [PowerOfTen.text, List.append_nil]
  cases hf : n.unsigned.fraction with
  | none => exact List.forall_mem_nil _
  | some ds => exact List.forall_mem_cons.2 ⟨rfl, hdigits (h.fraction ds hf)⟩

theorem Literal.solid_pieces {l : Literal} (hp : l.IsPlain) : ∀ t ∈ l.pieces, Solid t :=
  Literal.forall_mem_pieces (fun _ => .inl ⟨_, rfl⟩) (.inl ⟨_, rfl⟩) (fun _ => solid_toChars) hp

/-- A text that denotes a value, with plain numerals, is a literal with blanks around its pieces. -/
theorem exists_literal_of_plainNumerals {text : String} {z : Value} (h : ofText text = .ok z)
    (hp : PlainNumerals text.toList) :
    ∃ (l : Literal) (gaps : ℕ → Blanks), l.IsPlain ∧ text.toList = spread gaps l.pieces ∧
      l.value = z := by
  have hne : removeBlanks text.toList ≠ [] := fun hnil => by
    rw [(ofText_iff_literal text).1 hnil] at h
    cases h
  obtain ⟨l, hl, hz⟩ := (((ofText_iff_literal text).2 hne).1 z).1 h
  have hplain := Literal.isPlain hp hl.symm
  obtain ⟨gaps, hgaps⟩ := hp.unbroken.exists_spread (Literal.solid_pieces hplain)
    (by rw [l.flatten_pieces, hl])
  exact ⟨l, gaps, hplain, hgaps, hz⟩

end Value

end ComplexExpr
