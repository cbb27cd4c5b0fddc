import ComplexExpr.Expr.Basic
import ComplexExpr.Proofs.Token.Shape

/-!
# Phrases

A phrase is a derivation of the grammar of expressions, a tree with one
constructor for each rule:

* sum: a term, or a sum, a sign and a term;
* term: a power, or a term, `*` or `/` and a power;
* power: a primary, or a primary, `**` or `^` and a power;
* primary: a sum in parentheses, a number, a number and `i`, `i`, a name, a
  name with parentheses after it, with arguments or empty, or a sign and a
  primary.

`tokens` are the tokens that a phrase derives, `tree` the expression read off
it, and `frames` what reading it takes.
-/

namespace ComplexExpr.Phrase

/-- A number that may stand in an expression: digits, with or without a point and digits after
it, or a point and digits. -/
structure Number where
  numeral : Numeral
  wellFormed : numeral.WellFormed
  plain : numeral.IsPlain

def Number.token (n : Number) : Token := String.ofList n.numeral.toChars

/-- A name that may stand in an expression: any but the imaginary unit's. -/
structure Name where
  token : Token
  isName : Token.isName token.toList
  ne_unit : token ≠ "i"

/-- The marks of a product. -/
inductive Scaling
  | times
  | over
deriving DecidableEq

def Scaling.token : Scaling → Token
  | .times => "*"
  | .over => "/"

def Scaling.op : Scaling → BinaryOp
  | .times => .mul
  | .over => .div

/-- The two marks of a power. -/
inductive Raising
  | stars
  | caret
deriving DecidableEq

def Raising.token : Raising → Token
  | stars => "**"
  | caret => "^"

/-- The token of a sign. -/
def signToken : Sign → Token
  | .plus => "+"
  | .minus => "-"

/-- The operation of a sign between two operands. -/
def signOp : Sign → BinaryOp
  | .plus => .add
  | .minus => .sub

/-- A sign before an operand. -/
def signed : Sign → Expr → Expr
  | .plus => id
  | .minus => .negate

mutual

inductive Sum
  | term (t : Term)
  | join (s : Sum) (sign : Sign) (t : Term)

inductive Term
  | power (p : Power)
  | join (t : Term) (mark : Scaling) (p : Power)

inductive Power
  | primary (p : Primary)
  | raise (base : Primary) (mark : Raising) (exponent : Power)

inductive Primary
  | group (s : Sum)
  | number (n : Number)
  | imaginary (n : Number)
  | unit
  | name (x : Name)
  | callEmpty (f : Name)
  | call (f : Name) (args : Arguments)
  | signed (sign : Sign) (p : Primary)

/-- Sums with commas between them. -/
inductive Arguments
  | last (s : Sum)
  | cons (s : Sum) (args : Arguments)

end

/-! ## Tokens -/

mutual

def Sum.tokens : Sum → List Token
  | .term t => t.tokens
  | .join s sign t => s.tokens ++ signToken sign :: t.tokens

def Term.tokens : Term → List Token
  | .power p => p.tokens
  | .join t mark p => t.tokens ++ mark.token :: p.tokens

def Power.tokens : Power → List Token
  | .primary p => p.tokens
  | .raise base mark exponent => base.tokens ++ mark.token :: exponent.tokens

def Primary.tokens : Primary → List Token
  | .group s => "(" :: (s.tokens ++ [")"])
  | .number n => [n.token]
  | .imaginary n => [n.token, "i"]
  | .unit => ["i"]
  | .name x => [x.token]
  | .callEmpty f => [f.token, "(", ")"]
  | .call f args => f.token :: "(" :: (args.tokens ++ [")"])
  | .signed sign p => signToken sign :: p.tokens

def Arguments.tokens : Arguments → List Token
  | .last s => s.tokens
  | .cons s args => s.tokens ++ "," :: args.tokens

end

/-! ## Expressions -/

mutual

def Sum.tree : Sum → Expr
  | .term t => t.tree
  | .join s sign t => .binary (signOp sign) s.tree t.tree

def Term.tree : Term → Expr
  | .power p => p.tree
  | .join t mark p => .binary mark.op t.tree p.tree

def Power.tree : Power → Expr
  | .primary p => p.tree
  | .raise base _ exponent => .binary .pow base.tree exponent.tree

def Primary.tree : Primary → Expr
  | .group s => s.tree
  | .number n => .literal ⟨n.numeral.toFloat, 0.0⟩
  | .imaginary n => .literal ⟨0.0, n.numeral.toFloat⟩
  | .unit => .literal ⟨0.0, 1.0⟩
  | .name x => .var x.token
  | .callEmpty f => .call f.token []
  | .call f args => .call f.token args.trees
  | .signed sign p => Phrase.signed sign p.tree

def Arguments.trees : Arguments → List Expr
  | .last s => [s.tree]
  | .cons s args => s.tree :: args.trees

end

/-! ## Frames -/

mutual

/-- The frames that reading a sum takes. A chain costs no more than its costliest operand. -/
def Sum.frames : Sum → Nat
  | .term t => t.frames + 1
  | .join s _ t => max s.frames (t.frames + 1)

def Term.frames : Term → Nat
  | .power p => p.frames + 1
  | .join t _ p => max t.frames (p.frames + 1)

def Power.frames : Power → Nat
  | .primary p => p.frames + 1
  | .raise base _ exponent => max base.frames exponent.frames + 1

def Primary.frames : Primary → Nat
  | .number _ | .imaginary _ | .unit | .name _ | .callEmpty _ => 1
  | .group s => s.frames + 1
  | .call _ args => args.frames + 1
  | .signed _ p => p.frames + 1

def Arguments.frames : Arguments → Nat
  | .last s => s.frames
  | .cons s args => max s.frames args.frames

end

end ComplexExpr.Phrase
