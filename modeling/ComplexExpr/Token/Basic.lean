import ComplexExpr.Decimal.Numeral
import ComplexExpr.Text.Blank

/-!
# Tokens

A token is a text without structure of its own; what it is to the grammar is
its `shape`. A text that is neither a number, a name nor one of the signs is a
token too, of the shape `other`, and no expression holds one.
-/

namespace ComplexExpr

/-- A piece of an expression's text. -/
abbrev Token := String

namespace Token

/-- What a token is to the grammar. -/
inductive Shape
  | opening
  | closing
  | comma
  | sign (sign : Sign)
  | times
  | over
  | power
  | number (value : Numeral)
  /-- The imaginary unit. -/
  | unit
  | name
  | other
deriving DecidableEq, Repr

/-- The text is a name: an ASCII letter or an underscore, then letters, digits and underscores. -/
def isName : List Char → Bool
  | [] => false
  | c :: cs => Text.isNameStart c && cs.all Text.isNameChar

/-- The sign or bracket that a text is. -/
def mark? : List Char → Option Shape
  | ['('] => some .opening
  | [')'] => some .closing
  | [','] => some .comma
  | ['+'] => some (.sign .plus)
  | ['-'] => some (.sign .minus)
  | ['*'] => some .times
  | ['/'] => some .over
  | ['^'] | ['*', '*'] => some .power
  | ['i'] => some .unit
  | _ => none

/-- The shape of a text. -/
def shapeOf (cs : List Char) : Shape :=
  match mark? cs with
  | some s => s
  | none => match Numeral.readPlain? cs with
    | some n => .number n
    | none => if isName cs then .name else .other

def shape (t : Token) : Shape := shapeOf t.toList

end Token

end ComplexExpr
