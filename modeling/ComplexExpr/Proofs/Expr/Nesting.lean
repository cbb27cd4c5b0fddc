import ComplexExpr.Proofs.Expr.Reading
import Mathlib.Data.Int.Order.Basic

/-!
# Parentheses

Counting tells which parentheses are open after some tokens, with no grammar:
`nesting` is how many more are opened than closed, and tokens are `Balanced`
if each parenthesis in them has its partner. The innermost parenthesis that is
open stands before balanced tokens. The tokens of every phrase are balanced,
and a phrase other than arguments has no comma outside parentheses
(`Sum.compact` and its like).
-/

namespace ComplexExpr.Phrase

/-- How many more parentheses are opened than closed. -/
def nesting (ts : List Token) : ℤ := (ts.count "(" : ℤ) - ts.count ")"

/-- No parenthesis is closed before it is opened, and none is left open. -/
structure Balanced (ts : List Token) : Prop where
  nesting_eq : nesting ts = 0
  nonneg : ∀ a, a <+: ts → 0 ≤ nesting a

/-- Balanced tokens with every comma between parentheses. -/
structure Compact (ts : List Token) : Prop extends Balanced ts where
  comma : ∀ a b, a ++ "," :: b = ts → 0 < nesting a

variable {ts us : List Token} {t : Token}

@[simp] theorem nesting_nil : nesting [] = 0 := rfl

@[simp] theorem nesting_append (ts us : List Token) :
    nesting (ts ++ us) = nesting ts + nesting us := by
  simp only [nesting, List.count_append]
  omega

@[simp] theorem nesting_opening (ts : List Token) : nesting ("(" :: ts) = nesting ts + 1 := by
  have h : ("(" == ")") = false := by decide
  simp only [nesting, List.count_cons, h, BEq.rfl, if_true, Bool.false_eq_true, if_false]
  omega

@[simp] theorem nesting_closing (ts : List Token) : nesting (")" :: ts) = nesting ts - 1 := by
  have h : (")" == "(") = false := by decide
  simp only [nesting, List.count_cons, h, BEq.rfl, if_true, Bool.false_eq_true, if_false]
  omega

theorem nesting_cons (ho : t ≠ "(") (hc : t ≠ ")") (ts : List Token) :
    nesting (t :: ts) = nesting ts := by
  rw [nesting, List.count_cons_of_ne ho, List.count_cons_of_ne hc]
  rfl

/-! ## Balanced tokens -/

namespace Balanced

theorem nil : Balanced [] := ⟨rfl, fun a ha => by rw [List.prefix_nil.1 ha]; rfl⟩

theorem append (h : Balanced ts) (h' : Balanced us) : Balanced (ts ++ us) where
  nesting_eq := by rw [nesting_append, h.nesting_eq, h'.nesting_eq, Int.add_zero]
  nonneg a ha := by
    obtain ⟨b, hb⟩ := ha
    obtain ⟨c, rfl, -⟩ | ⟨c, rfl, rfl⟩ := List.append_eq_append_iff.1 hb
    · exact h.nonneg a (List.prefix_append a c)
    · have hc := h'.nonneg c (List.prefix_append c b)
      rw [nesting_append, h.nesting_eq]
      omega

theorem cons (ho : t ≠ "(") (hc : t ≠ ")") (h : Balanced ts) : Balanced (t :: ts) where
  nesting_eq := by rw [nesting_cons ho hc, h.nesting_eq]
  nonneg a ha := by
    obtain rfl | ⟨a, rfl, ha'⟩ := List.prefix_cons_iff.1 ha
    · exact le_rfl
    · rw [nesting_cons ho hc]
      exact h.nonneg a ha'

theorem parentheses (h : Balanced ts) : Balanced ("(" :: (ts ++ [")"])) where
  nesting_eq := by
    rw [nesting_opening, nesting_append, h.nesting_eq]
    rfl
  nonneg a ha := by
    obtain rfl | ⟨a, rfl, ha'⟩ := List.prefix_cons_iff.1 ha
    · exact le_rfl
    · rw [nesting_opening]
      obtain rfl | hts := List.prefix_concat_iff.1 ha'
      · rw [nesting_append, h.nesting_eq]
        rfl
      · have := h.nonneg a hts
        omega

end Balanced

namespace Compact

theorem append (h : Compact ts) (h' : Compact us) : Compact (ts ++ us) where
  toBalanced := h.toBalanced.append h'.toBalanced
  comma a b hab := by
    obtain ⟨c, rfl, hc⟩ | ⟨c, rfl, hc⟩ := List.append_eq_append_iff.1 hab
    · obtain ⟨rfl, hus⟩ | ⟨c, rfl, -⟩ := List.cons_eq_append_iff.1 hc
      · have := h'.comma [] b hus.symm
        exact absurd this (lt_irrefl 0)
      · exact h.comma a c rfl
    · have := h'.comma c b hc.symm
      rw [nesting_append, h.nesting_eq]
      omega

/-- A token that is no parenthesis and no comma. -/
theorem singleton (ho : t ≠ "(") (hc : t ≠ ")") (hcomma : t ≠ ",") : Compact [t] where
  toBalanced := .cons ho hc .nil
  comma a b hab := by
    obtain ⟨-, h⟩ | ⟨a', -, h⟩ := List.append_eq_cons_iff.1 hab
    · exact absurd (List.cons.inj h).1.symm hcomma
    · simp at h

theorem parentheses (h : Balanced ts) : Compact ("(" :: (ts ++ [")"])) where
  toBalanced := h.parentheses
  comma a b hab := by
    obtain ⟨-, h⟩ | ⟨a, rfl, h'⟩ := List.append_eq_cons_iff.1 hab
    · exact absurd (List.cons.inj h).1 (by decide)
    · have ha : a <+: ts := by
        obtain ⟨c, -, hc⟩ | ⟨c, hc, -⟩ := List.append_eq_append_iff.1 h'
        · obtain ⟨-, h⟩ | ⟨c, -, h⟩ := List.append_eq_cons_iff.1 hc.symm
          · exact absurd (List.cons.inj h).1 (by decide)
          · simp at h
        · exact ⟨c, hc.symm⟩
      have := h.nonneg a ha
      rw [nesting_opening]
      omega

end Compact

/-! ## Phrases -/

/-- A token of a shape other than a parenthesis or a comma. -/
theorem compact_token (ho : Token.shape t ≠ .opening) (hc : Token.shape t ≠ .closing)
    (hcomma : Token.shape t ≠ .comma) : Compact [t] := by
  refine .singleton ?_ ?_ ?_
  · rintro rfl
    exact ho shape_opening
  · rintro rfl
    exact hc shape_closing
  · rintro rfl
    exact hcomma shape_comma

theorem Number.compact (n : Number) : Compact [n.token] := by
  refine compact_token ?_ ?_ ?_ <;> rw [shape_number] <;> exact nofun

theorem Name.compact (x : Name) : Compact [x.token] := by
  refine compact_token ?_ ?_ ?_ <;> rw [shape_name] <;> exact nofun

theorem compact_sign (s : Sign) : Compact [signToken s] := by
  refine compact_token ?_ ?_ ?_ <;> rw [shape_signToken] <;> exact nofun

theorem Scaling.compact (m : Scaling) : Compact [m.token] := by
  cases m <;> exact .singleton (by decide) (by decide) (by decide)

theorem Raising.compact (m : Raising) : Compact [m.token] := by
  cases m <;> exact .singleton (by decide) (by decide) (by decide)

theorem compact_unit : Compact ["i"] := .singleton (by decide) (by decide) (by decide)

mutual

theorem Sum.compact (s : Sum) : Compact s.tokens := by
  cases s with
  | term t => exact t.compact
  | join s sign t =>
    rw [Sum.tokens, ← List.singleton_append]
    exact s.compact.append ((compact_sign sign).append t.compact)

theorem Term.compact (t : Term) : Compact t.tokens := by
  cases t with
  | power p => exact p.compact
  | join t mark p =>
    rw [Term.tokens, ← List.singleton_append]
    exact t.compact.append (mark.compact.append p.compact)

theorem Power.compact (p : Power) : Compact p.tokens := by
  cases p with
  | primary p => exact p.compact
  | raise base mark exponent =>
    rw [Power.tokens, ← List.singleton_append]
    exact base.compact.append (mark.compact.append exponent.compact)

theorem Primary.compact (p : Primary) : Compact p.tokens := by
  cases p with
  | group s => exact .parentheses s.compact.toBalanced
  | number n => exact n.compact
  | imaginary n => exact n.compact.append compact_unit
  | unit => exact compact_unit
  | name x => exact x.compact
  | callEmpty f => exact f.compact.append (.parentheses .nil)
  | call f args => exact f.compact.append (.parentheses args.balanced)
  | signed sign p => exact (compact_sign sign).append p.compact

theorem Arguments.balanced (args : Arguments) : Balanced args.tokens := by
  cases args with
  | last s => exact s.compact.toBalanced
  | cons s args => exact s.compact.toBalanced.append (args.balanced.cons (by decide) (by decide))

end

end ComplexExpr.Phrase
