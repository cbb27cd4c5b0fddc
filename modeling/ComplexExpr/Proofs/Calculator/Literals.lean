import ComplexExpr.Calculator
import ComplexExpr.Proofs.Binary.Sum
import ComplexExpr.Proofs.Expr.Dependence
import ComplexExpr.Proofs.Expr.Spread
import ComplexExpr.Proofs.Value.PlainNumerals

/-!
# Literals as expressions

A literal is also an expression: signs in it are negations, and two parts are a
sum or a difference. What the expression evaluates to may differ from what the
literal denotes in the signs of its zeros, and in nothing else, if its numerals
are plain. Each literal is a sum of tokens with such a value
(`Literal.exists_sum`). Main statement:

* `run_literal`: a text with plain numerals that denotes a value is evaluated to
  a value with equal parts.
-/

namespace ComplexExpr

open Binary (IsNumber IsZero isNumber_toFloat isZero_zero add_zero_beq zero_add_beq sub_zero_beq
  zero_sub_beq)
open Phrase (Number Primary signToken)
open Token (Blanks spread)

/-- The parts of two values are equal as numbers. -/
structure Value.Equals (z w : Value) : Prop where
  re : (z.re == w.re) = true
  im : (z.im == w.im) = true

/-! ## Signs -/

/-- A double with a sign before it. -/
def signedFloat : Option Sign → Float → Float
  | some .minus, x => -x
  | _, x => x

/-- A value with a sign before it. -/
def signedValue : Option Sign → Value → Value
  | some .minus, z => z.neg
  | _, z => z

theorem signedValue_eq (s : Option Sign) (z : Value) :
    signedValue s z = ⟨signedFloat s z.re, signedFloat s z.im⟩ := by
  obtain - | - | - := s <;> rfl

theorem isNumber_signedFloat (s : Option Sign) {x : Float} (h : IsNumber x) :
    IsNumber (signedFloat s x) := by
  match s with
  | none | some .plus => exact h
  | some .minus => exact h.neg

theorem isZero_signedFloat (s : Option Sign) : IsZero (signedFloat s 0.0) := by
  match s with
  | none | some .plus => exact isZero_zero
  | some .minus => exact isZero_zero.neg

theorem Numeral.isNumber_unsigned (n : Numeral) : IsNumber n.unsigned.toFloat := isNumber_toFloat rfl

theorem toFloat_eq_signed (n : Numeral) : n.toFloat = signedFloat n.sign n.unsigned.toFloat := by
  obtain ⟨sign, whole, fraction, power⟩ := n
  obtain - | - | - := sign <;> rfl

namespace Value

/-- The double before `i`, without its sign. -/
def Factor.magnitude : Factor → Float
  | .one _ => 1.0
  | .numeral n _ => n.unsigned.toFloat

theorem Factor.value_eq_signed (f : Factor) : f.value = signedFloat f.sign f.magnitude := by
  cases f with
  | one s => obtain - | - | - := s <;> rfl
  | numeral n h => exact toFloat_eq_signed n

theorem Factor.isNumber_magnitude (f : Factor) : IsNumber f.magnitude := by
  cases f with
  | one s =>
    have hone : (1.0 : Float).isFinite := by decide
    exact Binary.isNumber_of_isFinite hone
  | numeral n h => exact isNumber_toFloat rfl

end Value

/-- A real and an imaginary number, the first with a sign of its own, are added or subtracted to
the value with these parts. -/
theorem apply_signOp (s : Sign) (t : Option Sign) {x y : Float} (hx : IsNumber x)
    (hy : IsNumber y) :
    ∃ v, (Phrase.signOp s).apply (signedValue t ⟨x, 0.0⟩) ⟨0.0, y⟩ = .ok v ∧
      v.Equals ⟨signedFloat t x, signedFloat (some s) y⟩ := by
  have hre := isNumber_signedFloat t hx
  have him := isZero_signedFloat t
  rw [signedValue_eq]
  cases s with
  | plus => exact ⟨_, rfl, add_zero_beq hre isZero_zero, zero_add_beq hy him⟩
  | minus => exact ⟨_, rfl, sub_zero_beq hre isZero_zero, zero_sub_beq hy him⟩

/-! ## Primaries -/

namespace Phrase

/-- A primary with a sign before it, if there is one. -/
def Primary.withSign : Option Sign → Primary → Primary
  | none, p => p
  | some s, p => .signed s p

theorem toList_signToken (s : Sign) : (signToken s).toList = [s.toChar] := by
  cases s <;> simp [signToken, Sign.toChar]

theorem Primary.tokens_withSign (s : Option Sign) (p : Primary) :
    (p.withSign s).tokens.map String.toList = signPieces s ++ p.tokens.map String.toList := by
  cases s <;> simp [withSign, tokens, signPieces, toList_signToken]

theorem Primary.frames_withSign (s : Option Sign) (p : Primary) :
    (p.withSign s).frames ≤ p.frames + 1 := by
  cases s with
  | none => exact Nat.le_succ _
  | some s => exact Nat.le_of_eq (by rw [withSign, frames])

theorem Primary.frames_tree_withSign (s : Option Sign) {p : Primary} {z : Value}
    (h : p.tree = .literal z) : (p.withSign s).tree.frames ≤ 2 := by
  match s with
  | none | some .plus =>
    show p.tree.frames ≤ 2
    simp [h, Expr.frames]
  | some .minus =>
    show (Expr.negate p.tree).frames ≤ 2
    simp [h, Expr.frames]

/-- A literal with a sign before it has the value with the sign. -/
theorem Primary.evaluate_withSign (s : Option Sign) {p : Primary} {z : Value}
    (h : p.tree = .literal z) (b : Bindings) (room : ℕ) :
    (p.withSign s).tree.evaluateWithin b (room + 2) = .ok (signedValue s z) := by
  match s with
  | none | some .plus =>
    show p.tree.evaluateWithin b (room + 2) = .ok z
    rw [h, Expr.evaluateWithin_literal]
  | some .minus =>
    show (Expr.negate p.tree).evaluateWithin b (room + 2) = .ok z.neg
    rw [h, Expr.evaluateWithin_negate, Expr.evaluateWithin_literal]
    rfl

/-- A literal with a sign before it is a sum by itself. -/
theorem Primary.exists_sum (s : Option Sign) {p : Primary} {z : Value} (htree : p.tree = .literal z)
    (hf : p.frames = 1) :
    ∃ u : Sum, u.tokens.map String.toList = signPieces s ++ p.tokens.map String.toList ∧
      u.frames ≤ 5 ∧ u.tree.frames ≤ 3 ∧
      ∀ b room, u.tree.evaluateWithin b (room + 3) = .ok (signedValue s z) := by
  refine ⟨.term (.power (.primary (p.withSign s))), p.tokens_withSign s, ?_, ?_, fun b room =>
    p.evaluate_withSign s htree b (room + 1)⟩
  · have hframes := p.frames_withSign s
    simp only [Sum.frames, Term.frames, Power.frames]
    omega
  · exact (Primary.frames_tree_withSign s htree).trans (by decide)

/-- A real literal and an imaginary one with a sign between them are a sum, whether there is a sign
before the first or not. -/
theorem Primary.exists_sum_both (t : Option Sign) (s : Sign) {p q : Primary} {x y : Float}
    (hp : p.tree = .literal ⟨x, 0.0⟩) (hpf : p.frames = 1) (hq : q.tree = .literal ⟨0.0, y⟩)
    (hqf : q.frames = 1) (hx : IsNumber x) (hy : IsNumber y) :
    ∃ u : Sum, u.tokens.map String.toList = signPieces t ++ p.tokens.map String.toList ++
        (signPieces (some s) ++ q.tokens.map String.toList) ∧
      u.frames ≤ 5 ∧ u.tree.frames ≤ 3 ∧
      ∀ b room, ∃ v, u.tree.evaluateWithin b (room + 3) = .ok v ∧
        v.Equals ⟨signedFloat t x, signedFloat (some s) y⟩ := by
  have hframes := p.frames_withSign t
  have hleft := Primary.frames_tree_withSign t hp
  refine ⟨.join (.term (.power (.primary (p.withSign t)))) s (.power (.primary q)), ?_, ?_, ?_,
    fun b room => ?_⟩
  · rw [← p.tokens_withSign]
    simp [Sum.tokens, Term.tokens, Power.tokens, signPieces, toList_signToken]
  · simp only [Sum.frames, Term.frames, Power.frames]
    omega
  · show max (p.withSign t).tree.frames q.tree.frames + 1 ≤ 3
    have hright : q.tree.frames = 1 := by rw [hq, Expr.frames]
    omega
  · have hop : signOp s ≠ .div := by cases s <;> decide
    obtain ⟨v, hv, hequals⟩ := apply_signOp s t hx hy
    refine ⟨v, ?_, hequals⟩
    show (Expr.binary (signOp s) (p.withSign t).tree q.tree).evaluateWithin b (room + 3) = .ok v
    rw [Expr.evaluateWithin_binary hop, Primary.evaluate_withSign t hp, hq,
      Expr.evaluateWithin_literal]
    exact hv

end Phrase

/-! ## Literals -/

theorem Numeral.WellFormed.exists_primary {n : Numeral} (h : n.WellFormed) (hp : n.unsigned.IsPlain) :
    ∃ p : Primary, signPieces n.sign ++ p.tokens.map String.toList = n.pieces ∧
      p.tree = .literal ⟨n.unsigned.toFloat, 0.0⟩ ∧ p.frames = 1 :=
  ⟨.number ⟨n.unsigned, h.unsigned, hp⟩,
    by simp [Primary.tokens, Number.token, Numeral.pieces], rfl, rfl⟩

namespace Value

theorem Factor.exists_primary {f : Factor} (hp : f.IsPlain) :
    ∃ p : Primary, signPieces f.sign ++ p.tokens.map String.toList = f.pieces ++ [['i']] ∧
      p.tree = .literal ⟨0.0, f.magnitude⟩ ∧ p.frames = 1 := by
  cases f with
  | one s => exact ⟨.unit, by simp [Primary.tokens, pieces, sign], rfl, rfl⟩
  | numeral n h =>
    exact ⟨.imaginary ⟨n.unsigned, h.unsigned, hp⟩,
      by simp [Primary.tokens, Number.token, pieces, Numeral.pieces, sign], rfl, rfl⟩

/-- A literal is a sum, and the sum has the literal's value but for the signs of zeros. -/
theorem Literal.exists_sum {l : Literal} (hp : l.IsPlain) :
    ∃ s : Phrase.Sum, s.tokens.map String.toList = l.pieces ∧ s.frames ≤ 5 ∧ s.tree.frames ≤ 3 ∧
      ∀ (b : Bindings) (room : ℕ), ∃ v, s.tree.evaluateWithin b (room + 3) = .ok v ∧
        v.Equals l.value := by
  cases l with
  | real n h =>
    obtain ⟨p, ht, htree, hf⟩ := h.exists_primary hp
    obtain ⟨u, hu, hframes, hframes', heval⟩ := Primary.exists_sum n.sign htree hf
    refine ⟨u, hu.trans ht, hframes, hframes', fun b room => ⟨_, heval b room, ?_⟩⟩
    rw [signedValue_eq, value, toFloat_eq_signed n]
    exact ⟨(isNumber_signedFloat n.sign n.isNumber_unsigned).beq_self,
      (isZero_signedFloat n.sign).beq isZero_zero⟩
  | imaginary f =>
    obtain ⟨p, ht, htree, hf⟩ := Factor.exists_primary hp
    obtain ⟨u, hu, hframes, hframes', heval⟩ := Primary.exists_sum f.sign htree hf
    refine ⟨u, hu.trans ht, hframes, hframes', fun b room => ⟨_, heval b room, ?_⟩⟩
    rw [signedValue_eq, value, f.value_eq_signed]
    exact ⟨(isZero_signedFloat f.sign).beq isZero_zero,
      (isNumber_signedFloat f.sign f.isNumber_magnitude).beq_self⟩
  | both n h f hs =>
    obtain ⟨p, htp, htreep, hfp⟩ := h.exists_primary hp.1
    obtain ⟨q, htq, htreeq, hfq⟩ := Factor.exists_primary hp.2
    obtain ⟨s, hs⟩ := Option.ne_none_iff_exists'.1 hs
    obtain ⟨u, hu, hframes, hframes', heval⟩ := Primary.exists_sum_both n.sign s htreep hfp htreeq hfq
      n.isNumber_unsigned f.isNumber_magnitude
    refine ⟨u, ?_, hframes, hframes', fun b room => ?_⟩
    · rw [hu, ← hs, htp, htq, pieces, List.append_assoc]
    · rw [value, toFloat_eq_signed n, f.value_eq_signed, hs]
      exact heval b room

/-- Blanks around the pieces of a literal do not change the expression either. -/
theorem Literal.exists_expr {l : Literal} (hp : l.IsPlain) {text : String} {gaps : ℕ → Blanks}
    (h : text.toList = spread gaps l.pieces) :
    ∃ e, Expr.ofText text = .ok e ∧ e.frames ≤ 3 ∧
      ∀ (b : Bindings) (room : ℕ), ∃ v, e.evaluateWithin b (room + 3) = .ok v ∧
        v.Equals l.value := by
  obtain ⟨s, ht, hframes, htree, heval⟩ := l.exists_sum hp
  refine ⟨s.tree, ?_, htree, heval⟩
  have hchain := l.isChain_pieces
  rw [← ht, List.isChain_map] at hchain
  have htext : text = String.ofList (spread gaps (s.tokens.map String.toList)) := by
    rw [ht, ← h, String.ofList_toList]
  have hlimit : s.frames ≤ Expr.frameLimit := hframes.trans (by decide)
  rw [htext]
  exact (s.ofText_spread fun i hi _ => List.isChain_iff_getElem.1 hchain i hi).trans (if_pos hlimit)

end Value

namespace Calculator

theorem parse_of_ofText {text : String} {e : Expr} (h : Expr.ofText text = .ok e)
    (hframes : e.frames ≤ Expr.frameLimit) (traced : Bool) : parse traced text = .ok e := by
  have htrace : e.traceWithin Expr.frameLimit traced = .ok e :=
    Expr.traceWithin_eq_ok_iff.2 ⟨rfl, fun _ => hframes⟩
  have huntraced : Expr.ofTextWithin Expr.frameLimit false text = .ok e := h
  rw [parse, Expr.ofTextWithin_eq_bind, huntraced]
  exact htrace

/-- A text that denotes a value, with plain numerals, is evaluated to a value with equal parts. -/
theorem run_literal {text : String} {z : Value} (h : Value.ofText text = .ok z)
    (hp : Value.PlainNumerals text.toList) (traced : Bool) :
    ∃ v, run traced text .empty = .ok v ∧ v.Equals z := by
  obtain ⟨l, gaps, hl, htext, rfl⟩ := Value.exists_literal_of_plainNumerals h hp
  obtain ⟨e, he, hframes, heval⟩ := l.exists_expr hl htext
  obtain ⟨v, hv, hequals⟩ := heval .empty 982
  refine ⟨v, ?_, hequals⟩
  unfold run
  rw [parse_of_ofText he (hframes.trans (by decide)) traced]
  show about text (e.evaluateWithin .empty (982 + 3)) = .ok v
  rw [hv]
  rfl

/-- The numeral `1`. -/
def one : Numeral := ⟨none, ['1'], none, none⟩

theorem run_one_minus_unit :
    Value.ofText "1- i" = .ok ⟨one.toFloat, -1.0⟩ ∧
      ∃ v, run true "1- i" .empty = .ok v ∧ v.Equals ⟨one.toFloat, -1.0⟩ := by
  have h : Value.ofText "1- i" = .ok ⟨one.toFloat, -1.0⟩ := rfl
  have hmarker : ∀ c ∈ ['1', '-', ' ', 'i'], PowerOfTen.isMarker c = false := by
    simp [PowerOfTen.isMarker]
  refine ⟨h, run_literal h ⟨hmarker, fun a b hcs => ?_, fun a c bs d b hcs _ hc hd => ?_⟩ true⟩
  · have hmem : '.' ∈ "1- i".toList := by rw [hcs]; simp
    exact absurd hmem (by decide)
  · -- there is one character of a numeral, and the two sides of a gap would be two
    have hone : "1- i".toList.countP Value.isNumeric = 1 := by decide
    rw [hcs] at hone
    simp only [List.countP_append, List.countP_cons, hc, hd, if_true] at hone
    omega

end Calculator

end ComplexExpr
