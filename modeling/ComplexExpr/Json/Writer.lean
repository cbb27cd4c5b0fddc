import ComplexExpr.Decimal.Layout
import ComplexExpr.Json.Basic

/-!
# Writing settings files

The text of a value in ASCII, with one item on a line, four blanks further in
than its container (`Json.write`). Other characters are written by their
UTF-16 units in hexadecimal digits.
-/

namespace ComplexExpr.Json

/-- A hexadecimal digit. -/
def hexDigit (n : Nat) : Char := if n < 10 then Char.ofNat (0x30 + n) else Char.ofNat (0x57 + n)

/-- A UTF-16 unit by four hexadecimal digits. -/
def unitEscape (n : Nat) : List Char :=
  ['\\', 'u', hexDigit (n / 4096 % 16), hexDigit (n / 256 % 16), hexDigit (n / 16 % 16),
    hexDigit (n % 16)]

/-- A character by its UTF-16 units. -/
def unicodeText (c : Char) : List Char :=
  let n := c.toNat
  if n < 0x10000 then unitEscape n
  else unitEscape (0xD800 + (n - 0x10000) / 0x400) ++ unitEscape (0xDC00 + (n - 0x10000) % 0x400)

/-- A character within quotes. -/
def charText (c : Char) : List Char :=
  if c = '"' then ['\\', '"']
  else if c = '\\' then ['\\', '\\']
  else if c = '\n' then ['\\', 'n']
  else if c = '\r' then ['\\', 'r']
  else if c = '\t' then ['\\', 't']
  else if c = '\x0c' then ['\\', 'f']
  else if c = '\x08' then ['\\', 'b']
  else if ' ' ≤ c ∧ c ≤ '~' then [c]
  else unicodeText c

/-- A code point within quotes. -/
def pointText : CodePoint → List Char
  | .char c => charText c
  | .surrogate k => unitEscape (0xD800 + k)

/-- A text with its quotes. -/
def quoted (s : WideText) : List Char := '"' :: (s.flatMap pointText ++ ['"'])

/-- A new line, `depth` containers deep. -/
def newLine (depth : Nat) : List Char := '\n' :: List.replicate (4 * depth) ' '

mutual

/-- The text of a value, `depth` containers deep. -/
def toChars (depth : Nat) : Json → List Char
  | .null => "null".toList
  | .bool b => (if b then "true" else "false").toList
  | .int n => (toString n).toList
  | .real x => (Layout.data.write (Binary.ofFloat x)).toList
  | .text s => quoted s
  | .list [] => ['[', ']']
  | .list (v :: vs) =>
    '[' :: (newLine (depth + 1) ++ toChars (depth + 1) v ++ moreItems (depth + 1) vs ++
      newLine depth ++ [']'])
  | .object [] => ['\x7b', '\x7d']
  | .object ((k, v) :: ms) =>
    '\x7b' :: (newLine (depth + 1) ++ quoted k ++ ':' :: ' ' :: toChars (depth + 1) v ++
      moreMembers (depth + 1) ms ++ newLine depth ++ ['\x7d'])

/-- Further items, each after a comma on its own line. -/
def moreItems (depth : Nat) : List Json → List Char
  | [] => []
  | v :: vs => ',' :: (newLine depth ++ toChars depth v ++ moreItems depth vs)

/-- Further members, each after a comma on its own line. -/
def moreMembers (depth : Nat) : List (WideText × Json) → List Char
  | [] => []
  | (k, v) :: ms =>
    ',' :: (newLine depth ++ quoted k ++ ':' :: ' ' :: toChars depth v ++ moreMembers depth ms)

end

/-- The text of a value. -/
def write (v : Json) : String := String.ofList (toChars 0 v)

end ComplexExpr.Json
