import ComplexExpr.Proofs.Token.Spacing
import ComplexExpr.Proofs.Value.Literal

/-!
# The pieces of a literal

A literal is made up of signs, numerals without a sign, and `i`
(`Literal.pieces`). Blanks may stand between any two of these: as lexemes, no
piece merges with the next (`Literal.not_merges`), if the numerals are plain. A
text that is the pieces of a plain literal with blanks around them is read as
the literal (`ofText_spread`).
-/

namespace ComplexExpr

open Token (Blanks HasShape Lexeme Merges cut_spread spread)

/-- A numeral without its sign. -/
def Numeral.unsigned (n : Numeral) : Numeral := { n with sign := none }

/-- The sign as a piece of its own, if there is one. -/
def signPieces (s : Option Sign) : List (List Char) := s.toList.map fun s => [s.toChar]

def Numeral.pieces (n : Numeral) : List (List Char) := signPieces n.sign ++ [n.unsigned.toChars]

namespace Value

namespace Factor

def pieces : Factor → List (List Char)
  | one s => signPieces s
  | numeral n _ => n.pieces

def IsPlain : Factor → Prop
  | one _ => True
  | numeral n _ => n.unsigned.IsPlain

end Factor

namespace Literal

/-- The signs and numerals of a literal, and `i`. -/
def pieces : Literal → List (List Char)
  | real n _ => n.pieces
  | imaginary f => f.pieces ++ [['i']]
  | both n _ f _ => n.pieces ++ f.pieces ++ [['i']]

/-- The numerals have no power of ten, and a digit after the point if there is a point. -/
def IsPlain : Literal → Prop
  | real n _ => n.unsigned.IsPlain
  | imaginary f => f.IsPlain
  | both n _ f _ => n.unsigned.IsPlain ∧ f.IsPlain

end Literal

end Value

/-! ## Signs and numerals -/

theorem flatten_signPieces (s : Option Sign) : (signPieces s).flatten = Sign.text s := by
  cases s <;> rfl

/-- Nothing adheres to a sign. -/
theorem not_merges_sign (s : Sign) (b : List Char) : ¬Merges [s.toChar] b := by
  rintro ⟨c, -, h⟩
  obtain ⟨d, hd, h⟩ := h.head
  cases hd
  cases s <;> revert h <;> simp [Sign.toChar] <;> decide

theorem isChain_signPieces (s : Option Sign) {ts : List (List Char)}
    (h : ts.IsChain fun a b => ¬Merges a b) :
    (signPieces s ++ ts).IsChain fun a b => ¬Merges a b := by
  cases s with
  | none => exact h
  | some s => exact h.cons fun b _ => not_merges_sign s b

namespace Numeral

variable {n : Numeral}

theorem WellFormed.unsigned (h : n.WellFormed) : n.unsigned.WellFormed :=
  ⟨h.hasDigit, h.whole, h.fraction, h.power⟩

theorem flatten_pieces (n : Numeral) : n.pieces.flatten = n.toChars := by
  rw [pieces, List.flatten_append, flatten_signPieces]
  simp [unsigned, toChars, Sign.text]

/-- Neither a sign nor `i` adheres to a numeral. -/
theorem WellFormed.not_merges (h : n.WellFormed) {b : List Char}
    (hb : b = ['i'] ∨ ∃ s : Sign, b = [s.toChar]) : ¬Merges n.unsigned.toChars b := by
  rintro ⟨c, hc, had⟩
  obtain ⟨d, ds, htext, hd⟩ := h.unsigned.head_of_unsigned rfl
  have hcs : ¬(c.isDigit ∨ c = '.') := by
    obtain rfl | ⟨s, rfl⟩ := hb
    · cases hc; decide
    · cases hc; cases s <;> decide
  obtain ⟨d', hd', hname | ⟨-, hnum⟩ | rfl⟩ := had.head
  · rw [htext] at hd'
    cases hd'
    exact Token.not_numeric_of_isNameStart hname hd
  · exact hcs hnum
  · rw [htext] at hd'
    cases hd'
    revert hd
    decide

theorem WellFormed.isChain_pieces (h : n.WellFormed) {ts : List (List Char)}
    (hhead : ∀ b ∈ ts.head?, b = ['i'] ∨ ∃ s : Sign, b = [s.toChar])
    (hts : ts.IsChain fun a b => ¬Merges a b) :
    (n.pieces ++ ts).IsChain fun a b => ¬Merges a b := by
  rw [pieces, List.append_assoc]
  exact isChain_signPieces n.sign (hts.cons fun b hb => h.not_merges (hhead b hb))

theorem forall_mem_pieces {P : List Char → Prop} (hsign : ∀ s : Sign, P [s.toChar])
    (hn : P n.unsigned.toChars) : ∀ t ∈ n.pieces, P t :=
  List.forall_mem_append.2 ⟨List.forall_mem_map.2 fun s _ => hsign s, List.forall_mem_singleton.2 hn⟩

end Numeral

/-! ## Literals -/

namespace Value

theorem Factor.flatten_pieces (f : Factor) : f.pieces.flatten = f.text := by
  cases f with
  | one s => exact flatten_signPieces s
  | numeral n h => exact n.flatten_pieces

theorem Literal.flatten_pieces (l : Literal) : l.pieces.flatten = l.text := by
  cases l with
  | real n h => exact n.flatten_pieces
  | imaginary f => rw [pieces, List.flatten_append, f.flatten_pieces, text]; rfl
  | both n h f hs =>
    rw [pieces, List.flatten_append, List.flatten_append, n.flatten_pieces, f.flatten_pieces, text]
    rfl

theorem Factor.isChain_pieces (f : Factor) :
    (f.pieces ++ [['i']]).IsChain fun a b => ¬Merges a b := by
  cases f with
  | one s => exact isChain_signPieces s (.singleton _)
  | numeral n h => exact h.isChain_pieces (fun b hb => by cases hb; exact .inl rfl) (.singleton _)

/-- A factor with a sign has it as its first piece. -/
theorem Factor.head?_pieces {f : Factor} (hs : f.sign ≠ none) :
    ∀ b ∈ (f.pieces ++ [['i']]).head?, ∃ s : Sign, b = [s.toChar] := by
  obtain ⟨s, hs⟩ := Option.ne_none_iff_exists'.1 hs
  have hhead : ∃ ts, f.pieces = [s.toChar] :: ts := by
    cases f with
    | one s' => cases hs; exact ⟨[], rfl⟩
    | numeral n h =>
      rw [pieces, Numeral.pieces, show n.sign = some s from hs]
      exact ⟨_, rfl⟩
  obtain ⟨ts, hts⟩ := hhead
  intro b hb
  rw [hts] at hb
  cases hb
  exact ⟨s, rfl⟩

/-- No piece of a literal merges with the next. -/
theorem Literal.isChain_pieces (l : Literal) : l.pieces.IsChain fun a b => ¬Merges a b := by
  cases l with
  | real n h =>
    have hchain : (n.pieces ++ []).IsChain fun a b => ¬Merges a b := h.isChain_pieces nofun .nil
    rwa [List.append_nil] at hchain
  | imaginary f => exact f.isChain_pieces
  | both n h f hs =>
    rw [pieces, List.append_assoc]
    exact h.isChain_pieces (fun b hb => .inr (Factor.head?_pieces hs b hb)) f.isChain_pieces

section

variable {P : List Char → Prop}

theorem Factor.forall_mem_pieces (hsign : ∀ s : Sign, P [s.toChar]) (hunit : P ['i'])
    (hnumeral : ∀ n : Numeral, n.WellFormed → n.unsigned.IsPlain → P n.unsigned.toChars)
    {f : Factor} (hp : f.IsPlain) : ∀ t ∈ f.pieces ++ [['i']], P t := by
  refine List.forall_mem_append.2 ⟨?_, List.forall_mem_singleton.2 hunit⟩
  cases f with
  | one s => exact List.forall_mem_map.2 fun s _ => hsign s
  | numeral n h => exact Numeral.forall_mem_pieces hsign (hnumeral n h hp)

/-- What holds of signs, of plain numerals and of `i` holds of the pieces of a plain literal. -/
theorem Literal.forall_mem_pieces (hsign : ∀ s : Sign, P [s.toChar]) (hunit : P ['i'])
    (hnumeral : ∀ n : Numeral, n.WellFormed → n.unsigned.IsPlain → P n.unsigned.toChars)
    {l : Literal} (hp : l.IsPlain) : ∀ t ∈ l.pieces, P t := by
  cases l with
  | real n h => exact Numeral.forall_mem_pieces hsign (hnumeral n h hp)
  | imaginary f => exact Factor.forall_mem_pieces hsign hunit hnumeral hp
  | both n h f hs =>
    rw [pieces, List.append_assoc]
    exact List.forall_mem_append.2 ⟨Numeral.forall_mem_pieces hsign (hnumeral n h hp.1),
      Factor.forall_mem_pieces hsign hunit hnumeral hp.2⟩

end

theorem Literal.lexeme_pieces {l : Literal} (hp : l.IsPlain) : ∀ t ∈ l.pieces, Lexeme t := by
  have hsign (s : Sign) : Lexeme [s.toChar] := .mark (by cases s <;> decide)
  refine Literal.forall_mem_pieces hsign HasShape.unit.lexeme (fun n h hn => ?_) hp
  simpa using (HasShape.number h.unsigned hn).lexeme

/-- Blanks between the pieces of a literal do not change what it denotes. -/
theorem ofText_spread {text : String} {l : Literal} {gaps : ℕ → Blanks} (hp : l.IsPlain)
    (h : text.toList = spread gaps l.pieces) : ofText text = .ok l.value := by
  have hcut := @cut_spread gaps l.pieces (Literal.lexeme_pieces hp) fun i hi _ =>
    List.isChain_iff_getElem.1 l.isChain_pieces i hi
  have hcs : Text.removeBlanks text.toList = l.text := by rw [h, ← hcut.flatten, l.flatten_pieces]
  rw [ofText_of_removeBlanks_ne (by rw [hcs]; exact l.text_ne_nil), hcs, read?_text]

end Value

end ComplexExpr
