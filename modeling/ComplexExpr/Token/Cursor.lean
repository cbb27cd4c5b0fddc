import ComplexExpr.Failure
import ComplexExpr.Token.Basic

/-!
# A cursor over tokens

A position in a list of tokens that looks one token ahead (`peek?`) and moves
on, freely or only over an expected token (`advance`, `expect`). Past the end
there is no token, and the position still counts.
-/

namespace ComplexExpr.Token

/-- A position in a list of tokens. -/
structure Cursor where
  tokens : List Token
  position : Nat := 0

namespace Cursor

def peek? (c : Cursor) : Option Token := c.tokens[c.position]?

/-- The tokens from the position on. -/
def remaining (c : Cursor) : List Token := c.tokens.drop c.position

/-- The token at the position, with the cursor moved on. -/
def advance (c : Cursor) : Option Token × Cursor :=
  (c.peek?, { c with position := c.position + 1 })

/-- The expected token, with the cursor moved over it; on any other the cursor stays. -/
def expect (c : Cursor) (expected : Token) : Except Cause (Option Token × Cursor) :=
  if c.peek? = some expected then .ok c.advance else .error (.unexpectedToken expected c.peek?)

end Cursor

end ComplexExpr.Token
