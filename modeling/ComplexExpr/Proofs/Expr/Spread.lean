import ComplexExpr.Proofs.Expr.Reading
import ComplexExpr.Proofs.Token.Spacing
import ComplexExpr.Proofs.Value.Pieces
import Mathlib.Data.List.Chain

/-!
# Phrases in texts

The tokens of a phrase are lexemes (`Sum.lexeme` and its like), so a sum can be
read from a text as from its tokens: `Sum.ofText_spread` lets any blanks stand
around the tokens, as long as no two of them merge, and `Sum.ofText_flatten`
none. A number alone is read from its own text (`Number.ofText_token`), and a sum
of any length within four frames (`ofText_repeated`).
-/

namespace ComplexExpr.Phrase

open Token (Blanks HasShape Lexeme Merges spread spread_none tokenize_spread)

theorem lexeme_signToken (s : Sign) : Lexeme (signToken s).toList := by
  cases s
  · exact HasShape.plus.lexeme
  · exact HasShape.minus.lexeme

theorem Scaling.lexeme (m : Scaling) : Lexeme m.token.toList := by
  cases m
  · exact HasShape.times.lexeme
  · exact HasShape.over.lexeme

theorem Raising.lexeme (m : Raising) : Lexeme m.token.toList := by
  cases m
  · exact HasShape.stars.lexeme
  · exact HasShape.caret.lexeme

theorem Number.lexeme (n : Number) : Lexeme n.token.toList :=
  (HasShape.number n.wellFormed n.plain).lexeme

theorem Name.lexeme (x : Name) : Lexeme x.token.toList := (HasShape.name x.isName x.ne_unit).lexeme

mutual

theorem Sum.lexeme (s : Sum) : ∀ t ∈ s.tokens, Lexeme t.toList := by
  cases s with
  | term t => exact t.lexeme
  | join s sign t =>
    rw [Sum.tokens, List.forall_mem_append, List.forall_mem_cons]
    exact ⟨s.lexeme, lexeme_signToken sign, t.lexeme⟩

theorem Term.lexeme (t : Term) : ∀ u ∈ t.tokens, Lexeme u.toList := by
  cases t with
  | power p => exact p.lexeme
  | join t mark p =>
    rw [Term.tokens, List.forall_mem_append, List.forall_mem_cons]
    exact ⟨t.lexeme, mark.lexeme, p.lexeme⟩

theorem Power.lexeme (p : Power) : ∀ t ∈ p.tokens, Lexeme t.toList := by
  cases p with
  | primary p => exact p.lexeme
  | raise base mark exponent =>
    rw [Power.tokens, List.forall_mem_append, List.forall_mem_cons]
    exact ⟨base.lexeme, mark.lexeme, exponent.lexeme⟩

theorem Primary.lexeme (p : Primary) : ∀ t ∈ p.tokens, Lexeme t.toList := by
  cases p with
  | group s =>
    rw [Primary.tokens, List.forall_mem_cons, List.forall_mem_append, List.forall_mem_singleton]
    exact ⟨HasShape.opening.lexeme, s.lexeme, HasShape.closing.lexeme⟩
  | number n => exact List.forall_mem_singleton.2 n.lexeme
  | imaginary n =>
    exact List.forall_mem_cons.2 ⟨n.lexeme, List.forall_mem_singleton.2 HasShape.unit.lexeme⟩
  | unit => exact List.forall_mem_singleton.2 HasShape.unit.lexeme
  | name x => exact List.forall_mem_singleton.2 x.lexeme
  | callEmpty f =>
    rw [Primary.tokens, List.forall_mem_cons, List.forall_mem_cons, List.forall_mem_singleton]
    exact ⟨f.lexeme, HasShape.opening.lexeme, HasShape.closing.lexeme⟩
  | call f args =>
    rw [Primary.tokens, List.forall_mem_cons, List.forall_mem_cons, List.forall_mem_append,
      List.forall_mem_singleton]
    exact ⟨f.lexeme, HasShape.opening.lexeme, args.lexeme, HasShape.closing.lexeme⟩
  | signed sign p => exact List.forall_mem_cons.2 ⟨lexeme_signToken sign, p.lexeme⟩

theorem Arguments.lexeme (args : Arguments) : ∀ t ∈ args.tokens, Lexeme t.toList := by
  cases args with
  | last s => exact s.lexeme
  | cons s args =>
    rw [Arguments.tokens, List.forall_mem_append, List.forall_mem_cons]
    exact ⟨s.lexeme, HasShape.comma.lexeme, args.lexeme⟩

end

variable {room : ℕ} {traced : Bool}

/-- A text that is a sum's tokens with blanks around them is parsed as the sum, if the frames
suffice, and then traced. -/
theorem Sum.ofText_spread (s : Sum) {gaps : ℕ → Blanks}
    (hg : ∀ i (h : i + 1 < s.tokens.length), (gaps (i + 1)).chars = [] →
      ¬Merges s.tokens[i].toList s.tokens[i + 1].toList) :
    Expr.ofTextWithin room traced (String.ofList (spread gaps (s.tokens.map String.toList))) =
      if s.frames ≤ room then s.tree.traceWithin room traced else .error (.tooDeep .parse) := by
  rw [Expr.ofTextWithin, tokenize_spread s.lexeme hg]
  exact s.parse_tokens room traced

/-- Tokens of which no two merge need no blanks. -/
theorem Sum.ofText_flatten (s : Sum)
    (hg : (s.tokens.map String.toList).IsChain fun a b => ¬Merges a b)
    (hframes : s.frames ≤ room) :
    Expr.ofTextWithin room traced (String.ofList (s.tokens.map String.toList).flatten) =
      s.tree.traceWithin room traced := by
  rw [List.isChain_map] at hg
  rw [← spread_none, s.ofText_spread fun i hi _ => List.isChain_iff_getElem.1 hg i hi,
    if_pos hframes]

/-- The text of a number alone is parsed as its literal. -/
theorem Number.ofText_token (n : Number) :
    Expr.ofText n.token = .ok (.literal ⟨n.numeral.toFloat, 0.0⟩) := by
  have h : Expr.ofText _ = .ok _ := Sum.ofText_flatten (.term (.power (.primary (.number n))))
    (List.isChain_singleton _) (show 4 ≤ 985 by decide)
  have htext : [n.token.toList].flatten = n.token.toList := List.append_nil _
  rwa [Sum.tokens, Term.tokens, Power.tokens, Primary.tokens, List.map_cons, List.map_nil, htext,
    String.ofList_toList] at h

/-! ## Long sums -/

/-- A number, and `n` times a plus and the number again. -/
def Sum.repeated (a : Number) : ℕ → Sum
  | 0 => .term (.power (.primary (.number a)))
  | n + 1 => .join (repeated a n) .plus (.power (.primary (.number a)))

/-- The text of `Sum.repeated`, without blanks. -/
def repeatedText (a : Number) (n : ℕ) : String :=
  String.ofList (a.token.toList ++ (List.replicate n ('+' :: a.token.toList)).flatten)

variable (a : Number) (n : ℕ)

theorem frames_repeated : (Sum.repeated a n).frames = 4 := by
  induction n with
  | zero => rfl
  | succ n ih => rw [Sum.repeated, Sum.frames, ih]; rfl

theorem height_repeated : (Sum.repeated a n).tree.height = n + 1 := by
  induction n with
  | zero => rfl
  | succ n ih =>
    have hone : (Term.power (.primary (.number a))).tree.height = 1 := rfl
    rw [Sum.repeated, Sum.tree, Expr.height, ih, hone]
    omega

theorem tokens_repeated :
    (Sum.repeated a n).tokens = a.token :: (List.replicate n ["+", a.token]).flatten := by
  induction n with
  | zero => rfl
  | succ n ih =>
    rw [Sum.repeated, Sum.tokens, ih, List.replicate_succ', List.flatten_concat]
    rfl

theorem Number.not_merges_plus : ¬Merges a.token.toList ['+'] := by
  have hunsigned : a.numeral.unsigned = a.numeral := by rw [Numeral.unsigned, ← a.plain.1]
  rw [Number.token, String.toList_ofList, ← hunsigned]
  exact a.wellFormed.not_merges (.inr ⟨.plus, rfl⟩)

theorem isChain_repeated :
    ((Sum.repeated a n).tokens.map String.toList).IsChain fun b c => ¬Merges b c := by
  rw [tokens_repeated, List.map_cons]
  induction n with
  | zero => exact .singleton _
  | succ n ih =>
    rw [List.replicate_succ, List.flatten_cons, List.map_append, List.map_cons, List.map_cons]
    exact .cons_cons a.not_merges_plus (.cons_cons (not_merges_sign .plus _) ih)

theorem flatten_repeated :
    String.ofList ((Sum.repeated a n).tokens.map String.toList).flatten = repeatedText a n := by
  rw [tokens_repeated, repeatedText, List.map_cons, List.flatten_cons, List.map_flatten,
    List.map_replicate, List.flatten_flatten, List.map_replicate]
  simp

theorem ofText_repeated (h : 4 ≤ room) :
    Expr.ofTextWithin room traced (repeatedText a n) =
      (Sum.repeated a n).tree.traceWithin room traced := by
  rw [← flatten_repeated]
  exact Sum.ofText_flatten _ (isChain_repeated a n) (by rwa [frames_repeated])

end ComplexExpr.Phrase
