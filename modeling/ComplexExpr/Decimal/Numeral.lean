import ComplexExpr.Decimal.Basic

/-!
# Numerals

The written form of a decimal: an optional sign, digits, an optional point
with digits after it, and an optional power of ten. `Numeral.scan` takes the
longest such text off the front, and `Numeral.read?` reads a whole text.
A numeral remembers how it was written, so that each grammar that has numbers
can say which of them it admits.
-/

namespace ComplexExpr

/-- A written sign. -/
inductive Sign
  | plus
  | minus
deriving DecidableEq, Repr

namespace Sign

def ofChar? (c : Char) : Option Sign :=
  if c = '+' then some .plus else if c = '-' then some .minus else none

def toChar : Sign → Char
  | .plus => '+'
  | .minus => '-'

theorem ofChar?_toChar (s : Sign) : ofChar? s.toChar = some s := by cases s <;> rfl

/-- The sign that a text opens with, and what follows it. -/
def scan : List Char → Option Sign × List Char
  | [] => (none, [])
  | c :: cs => match ofChar? c with
    | some s => (some s, cs)
    | none => (none, c :: cs)

end Sign

/-- A written power of ten. -/
structure PowerOfTen where
  /-- The letter is `E` and not `e`. -/
  capital : Bool
  sign : Option Sign
  digits : List Char
deriving DecidableEq, Repr

/-- A written number. -/
structure Numeral where
  sign : Option Sign
  /-- The digits before the point. -/
  whole : List Char
  /-- The digits after the point, if there is a point. -/
  fraction : Option (List Char)
  power : Option PowerOfTen
deriving DecidableEq, Repr

namespace PowerOfTen

/-- The marker of a power of ten. -/
def isMarker (c : Char) : Bool := c == 'e' || c == 'E'

/-- The power of ten that a text opens with: without digits there is none. -/
def scan : List Char → Option PowerOfTen × List Char
  | [] => (none, [])
  | c :: cs =>
    let (sign, rest) := Sign.scan cs
    if isMarker c && !(rest.takeWhile Char.isDigit).isEmpty then
      (some ⟨c == 'E', sign, rest.takeWhile Char.isDigit⟩, rest.dropWhile Char.isDigit)
    else (none, c :: cs)

def toInt (p : PowerOfTen) : Int :=
  match p.sign with
  | some .minus => -(Decimal.ofDigits p.digits : Int)
  | _ => Decimal.ofDigits p.digits

/-- The text of a power of ten. -/
def toChars (p : PowerOfTen) : List Char :=
  (if p.capital then 'E' else 'e') :: (p.sign.toList.map Sign.toChar ++ p.digits)

end PowerOfTen

namespace Numeral

/-- The point and the digits after it that a text opens with. -/
def scanFraction : List Char → Option (List Char) × List Char
  | '.' :: cs => (some (cs.takeWhile Char.isDigit), cs.dropWhile Char.isDigit)
  | cs => (none, cs)

/-- The longest numeral-like text at the front, and what follows it. -/
def scan (cs : List Char) : Numeral × List Char :=
  let (sign, cs) := Sign.scan cs
  let whole := cs.takeWhile Char.isDigit
  let (fraction, cs) := scanFraction (cs.dropWhile Char.isDigit)
  let (power, cs) := PowerOfTen.scan cs
  (⟨sign, whole, fraction, power⟩, cs)

/-- A number needs a digit on one side of its point. -/
def HasDigit (n : Numeral) : Prop := n.whole ≠ [] ∨ n.fraction.getD [] ≠ []

instance (n : Numeral) : Decidable n.HasDigit := inferInstanceAs (Decidable (_ ∨ _))

/-- The numeral that is the whole of a text. -/
def read? (cs : List Char) : Option Numeral :=
  match scan cs with
  | (n, []) => if n.HasDigit then some n else none
  | _ => none

/-- The text of a numeral. -/
def toChars (n : Numeral) : List Char :=
  n.sign.toList.map Sign.toChar ++ (n.whole ++
    ((match n.fraction with | some ds => '.' :: ds | none => []) ++
      (match n.power with | some p => p.toChars | none => [])))

/-- The decimal that a numeral denotes. -/
def toDecimal (n : Numeral) : Decimal :=
  let fraction := n.fraction.getD []
  ⟨n.sign == some .minus, Decimal.ofDigits (n.whole ++ fraction),
    (match n.power with | some p => p.toInt | none => 0) - fraction.length⟩

/-- The double nearest to what a numeral denotes. -/
def toFloat (n : Numeral) : Float := n.toDecimal.toFloat

/-- An unsigned number with digits on each side that is written, and no power of ten. -/
def IsPlain (n : Numeral) : Prop :=
  n.sign = none ∧ n.fraction ≠ some [] ∧ n.power = none

instance (n : Numeral) : Decidable n.IsPlain := inferInstanceAs (Decidable (_ ∧ _ ∧ _))

/-- The plain numeral that is the whole of a text. -/
def readPlain? (cs : List Char) : Option Numeral :=
  match read? cs with
  | some n => if n.IsPlain then some n else none
  | none => none

end Numeral

end ComplexExpr
