/-!
# Code points

A text whose code points are written by their numbers may hold surrogates that
are no half of a pair, and such a text is no `String`. It is a row of code
points (`WideText`); every string is one (`WideText.ofString`), and
`WideText.legible` is the string to show for it.
-/

namespace ComplexExpr

/-- A character, or a surrogate that stands alone. -/
inductive CodePoint
  | char (c : Char)
  /-- The surrogate at this distance from U+D800. -/
  | surrogate (offset : Fin 0x800)
deriving DecidableEq, Repr

/-- The code point that a number below 0x10000 stands for by itself. -/
def CodePoint.ofUnit (n : Nat) : CodePoint :=
  if h : 0xD800 ≤ n ∧ n < 0xE000 then .surrogate ⟨n - 0xD800, by omega⟩ else .char (Char.ofNat n)

/-- The character to show for a code point. A surrogate that stands alone is no character, and U+FFFD
is shown for it; printing code points as they are would print the surrogate itself, which an output
with a strict encoding refuses. -/
def CodePoint.legible : CodePoint → Char
  | char c => c
  | surrogate _ => '\uFFFD'

/-- A row of code points. -/
abbrev WideText := List CodePoint

namespace WideText

def ofString (s : String) : WideText := s.toList.map .char

/-- The string to show for a text: U+FFFD stands for each lone surrogate. -/
def legible (t : WideText) : String := String.ofList (t.map CodePoint.legible)

end WideText

end ComplexExpr
