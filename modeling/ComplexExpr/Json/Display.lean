import ComplexExpr.Decimal.Layout
import ComplexExpr.Json.Writer
import ComplexExpr.Text.Printable

/-!
# Showing settings

The text that people are shown of a value (`Json.display`). A string stands
there as it is, but within a container it is quoted: by apostrophes, unless it
holds one and no double quote. What cannot be printed is then written by its
code point.
-/

namespace ComplexExpr.Json

/-- The last `width` hexadecimal digits of a number. -/
def hexDigits : Nat → Nat → List Char
  | 0, _ => []
  | width + 1, n => hexDigits width (n / 16) ++ [hexDigit (n % 16)]

/-- A character within quotes of the kind `quote`. -/
def shownChar (quote c : Char) : List Char :=
  let n := c.toNat
  if c = quote || c = '\\' then ['\\', c]
  else if c = '\n' then ['\\', 'n']
  else if c = '\r' then ['\\', 'r']
  else if c = '\t' then ['\\', 't']
  else if Text.isPrintable c then [c]
  else if n < 0x100 then '\\' :: 'x' :: hexDigits 2 n
  else if n < 0x10000 then '\\' :: 'u' :: hexDigits 4 n
  else '\\' :: 'U' :: hexDigits 8 n

/-- A code point within quotes of the kind `quote`. -/
def shownPoint (quote : Char) : CodePoint → List Char
  | .char c => shownChar quote c
  | .surrogate k => '\\' :: 'u' :: hexDigits 4 (0xD800 + k)

/-- A text within a container. -/
def shownText (s : WideText) : String :=
  let quote := if s.contains (.char '\'') && !s.contains (.char '"') then '"' else '\''
  String.ofList (quote :: (s.flatMap (shownPoint quote) ++ [quote]))

mutual

/-- A value within a container. -/
def shown : Json → String
  | .null => "None"
  | .bool b => if b then "True" else "False"
  | .int n => toString n
  | .real x => decimalText x
  | .text s => shownText s
  | .list vs => "[" ++ ", ".intercalate (shownItems vs) ++ "]"
  | .object ms => "\x7b" ++ ", ".intercalate (shownMembers ms) ++ "\x7d"

def shownItems : List Json → List String
  | [] => []
  | v :: vs => shown v :: shownItems vs

def shownMembers : List (WideText × Json) → List String
  | [] => []
  | (k, v) :: ms => (shownText k ++ ": " ++ shown v) :: shownMembers ms

end

/-- The text that people are shown of a value. A surrogate that stands alone in a string is shown as
U+FFFD, where printing the string as it is would print that surrogate. -/
def display : Json → String
  | .text s => s.legible
  | v => shown v

end ComplexExpr.Json
