import ComplexExpr.Decimal.Numeral
import ComplexExpr.Text.Blank
import ComplexExpr.Text.DecimalDigit

/-!
# Numbers as people type them

More freely than in expressions: with blanks around, digits of any script,
single underscores between digits, and words for what is no finite number
(`readInt?`, `readFloat?`).
-/

namespace ComplexExpr.Typed

/-- The blanks that may stand around a number: not the separators U+001C to U+001F. -/
def isOuterBlank (c : Char) : Bool := Text.isBlank c && !(0x1C ≤ c.toNat && c.toNat < 0x20)

/-- A text without its underscores, each of which has to stand between two digits. -/
def joinDigits (afterDigit : Bool) : List Char → Option (List Char)
  | [] => some []
  | c :: rest =>
    if c = '_' then
      if afterDigit && rest.head?.any Char.isDigit then joinDigits false rest else none
    else (joinDigits c.isDigit rest).map (c :: ·)

/-- The plain form of a typed number: ASCII digits, nothing around them, nothing between them. -/
def plainForm? (text : String) : Option (List Char) :=
  joinDigits false (Text.trimWhile isOuterBlank (text.toList.map Text.asciiDigit))

/-- The most digits of a typed whole number. -/
def digitLimit : Nat := 4300

/-- The whole number that a text is. -/
def readInt? (text : String) : Option Int := do
  let (sign, digits) := Sign.scan (← plainForm? text)
  if digits ≠ [] ∧ digits.all Char.isDigit ∧ digits.length ≤ digitLimit then
    let n : Int := Decimal.ofDigits digits
    return if sign = some .minus then -n else n
  else none

/-- The doubles that have names, by their names in small letters. -/
def named? : List Char → Option Float
  | ['n', 'a', 'n'] => some Decimal.nan
  | ['i', 'n', 'f'] | ['i', 'n', 'f', 'i', 'n', 'i', 't', 'y'] => some Decimal.infinity
  | _ => none

/-- The double that a text is. -/
def readFloat? (text : String) : Option Float := do
  let cs ← plainForm? text
  let (sign, name) := Sign.scan cs
  match named? (name.map Char.toLower) with
  | some x => return if sign = some .minus then -x else x
  | none => return (← Numeral.read? cs).toFloat

end ComplexExpr.Typed
