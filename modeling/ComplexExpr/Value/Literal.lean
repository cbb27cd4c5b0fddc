import ComplexExpr.Decimal.Numeral
import ComplexExpr.Text.Blank
import ComplexExpr.Value.Basic

/-!
# Complex literals

The texts that denote values: a numeral, an imaginary numeral, or both, with
blanks anywhere (`Value.ofText`). A text without blanks is split at the sign
between its two parts (`splitParts`): the last sign that neither opens the
text nor belongs to a power of ten.
-/

namespace ComplexExpr.Value

/-- The two parts of a literal, the second with its sign, if it has two parts. -/
def splitParts : List Char → Option (List Char × List Char)
  | [] => none
  | c :: cs =>
    match splitParts cs with
    | some (re, im) => some (c :: re, im)
    | none => match cs with
      | [] => none
      | d :: _ => if (Sign.ofChar? d).isSome && !PowerOfTen.isMarker c then some ([c], cs) else none

/-- The double that a numeral denotes. -/
def readReal? (cs : List Char) : Option Float := (Numeral.read? cs).map Numeral.toFloat

/-- The factor of `i`: no digits at all stand for one. -/
def readFactor? : List Char → Option Float
  | [] | ['+'] => some 1.0
  | ['-'] => some (-1.0)
  | cs => readReal? cs

/-- The value of a text without blanks. -/
def read? (cs : List Char) : Option Value :=
  match cs.reverse with
  | 'i' :: rest =>
    match splitParts rest.reverse with
    | none => (readFactor? rest.reverse).map fun im => ⟨0.0, im⟩
    | some (re, im) =>
      match readReal? re, readFactor? im with
      | some re, some im => some ⟨re, im⟩
      | _, _ => none
  | _ => (readReal? cs).map fun re => ⟨re, 0.0⟩

/-- The value that a text denotes. -/
def ofText (text : String) : Except LiteralFault Value :=
  match Text.removeBlanks text.toList with
  | [] => .error (.empty text)
  | literal => match read? literal with
    | some z => .ok z
    | none => .error (.malformed (String.ofList literal))

end ComplexExpr.Value
