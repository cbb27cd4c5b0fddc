/-!
# Decimals

A decimal is a sign, a coefficient and a power of ten. `Decimal.toFloat` is the
double nearest to it, however long the coefficient and however far the power.
-/

namespace ComplexExpr

/-- The number `± coefficient · 10 ^ exponent`. -/
structure Decimal where
  negative : Bool
  coefficient : Nat
  exponent : Int
deriving DecidableEq, Repr

namespace Decimal

/-- The number that a row of ASCII digits denotes. -/
def ofDigits (digits : List Char) : Nat :=
  digits.foldl (fun n c => 10 * n + (c.toNat - 0x30)) 0

/-- Positive infinity. -/
def infinity : Float := 1.0 / 0.0

/-- Not a number. -/
def nan : Float := 0.0 / 0.0

/-- The double nearest to `c · 10 ^ e`, ties to even. A coefficient is below `2 ^ (log2 c + 1)`,
so the first two bounds lie outside all doubles, and no power of ten beyond them is formed. -/
def magnitude (c : Nat) (e : Int) : Float :=
  if c = 0 then 0.0
  else if 400 < e then infinity
  else if e < -(400 + c.log2 : Int) then 0.0
  else Float.ofScientific c (e < 0) e.natAbs

/-- The double nearest to a decimal. -/
def toFloat (d : Decimal) : Float :=
  let x := magnitude d.coefficient d.exponent
  if d.negative then -x else x

theorem ofDigits_append_singleton (ds : List Char) (c : Char) :
    ofDigits (ds ++ [c]) = 10 * ofDigits ds + (c.toNat - 0x30) := by
  simp [ofDigits]

end Decimal

end ComplexExpr
