/-!
# Blanks and ASCII classes

Which characters are white space (`isBlank`), how a text is freed of the
blanks around it (`trim`) or of all its blanks (`removeBlanks`), and the ASCII
classes that names are made of. Digits are `Char.isDigit`, which knows ASCII
alone.
-/

namespace ComplexExpr.Text

/-- The white space of Unicode, with the four separators U+001C to U+001F. -/
def isBlank (c : Char) : Bool :=
  let n := c.toNat
  (0x09 ≤ n && n ≤ 0x0D) || (0x1C ≤ n && n ≤ 0x20) || n == 0x85 || n == 0xA0 || n == 0x1680 ||
    (0x2000 ≤ n && n ≤ 0x200A) || n == 0x2028 || n == 0x2029 || n == 0x202F || n == 0x205F ||
    n == 0x3000

/-- A character that opens a name: an ASCII letter or an underscore. -/
def isNameStart (c : Char) : Bool := c.isAlpha || c == '_'

/-- A character that continues a name: an ASCII letter or digit, or an underscore. -/
def isNameChar (c : Char) : Bool := c.isAlphanum || c == '_'

/-- The characters of `cs` without the run satisfying `p` at either end. -/
def trimWhile (p : Char → Bool) (cs : List Char) : List Char :=
  ((cs.dropWhile p).reverse.dropWhile p).reverse

/-- A text without the blanks around it. -/
def trim (cs : List Char) : List Char := trimWhile isBlank cs

/-- A text without any of its blanks. -/
def removeBlanks (cs : List Char) : List Char := cs.filter fun c => !isBlank c

/-- `trim` on strings. -/
def strip (s : String) : String := String.ofList (trim s.toList)

theorem isNameChar_of_isNameStart {c : Char} (h : isNameStart c) : isNameChar c := by
  simp only [isNameStart, isNameChar, Char.isAlphanum, Bool.or_eq_true] at h ⊢
  rcases h with h | h
  · exact .inl (.inl h)
  · exact .inr h

theorem removeBlanks_append (a b : List Char) :
    removeBlanks (a ++ b) = removeBlanks a ++ removeBlanks b := List.filter_append ..

end ComplexExpr.Text
