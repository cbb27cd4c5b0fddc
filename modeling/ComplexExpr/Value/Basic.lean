import ComplexExpr.Decimal.Basic
import ComplexExpr.Decimal.Layout
import ComplexExpr.Failure
import ComplexExpr.Value.Magnitude

/-!
# Complex values

A value is a pair of doubles, and its arithmetic is that of doubles, one
operation after the other, so that infinities and what is not a number spread
and do not fail. Powers go through the polar form. Only approximate equality
of values means something (`approxEq`). `toText` is a value's written form.
-/

namespace ComplexExpr

/-- A complex number by its real and imaginary part. -/
structure Value where
  re : Float
  im : Float

namespace Value

def add (z w : Value) : Value := ⟨z.re + w.re, z.im + w.im⟩

def sub (z w : Value) : Value := ⟨z.re - w.re, z.im - w.im⟩

def mul (z w : Value) : Value := ⟨z.re * w.re - z.im * w.im, z.re * w.im + z.im * w.re⟩

def neg (z : Value) : Value := ⟨-z.re, -z.im⟩

def conj (z : Value) : Value := ⟨z.re, -z.im⟩

def modulus (z : Value) : Float := hypot z.re z.im

/-- Both parts are zero, of either sign. -/
def isZero (z : Value) : Bool := z.re == 0.0 && z.im == 0.0

/-- Both parts differ by less than `eps`. -/
def approxEq (z w : Value) (eps : Float) : Bool :=
  (z.re - w.re).abs < eps && (z.im - w.im).abs < eps

/-- A power of a double that is not negative: one too large is infinite, and so is that of zero
to a negative exponent. -/
def realPower (x n : Float) : Float :=
  if x == 0.0 && n < 0.0 then Decimal.infinity
  else
    let power := x.pow n
    if x.isFinite && n.isFinite && power.isInf then Decimal.infinity else power

/-- A real power through the polar form. The origin has the angle zero and the negative reals
have the angle pi; an angle that is not finite has no direction. -/
def pow (z : Value) (n : Float) : Value :=
  let length := realPower z.modulus n
  let angle := Float.atan2 z.im z.re * n
  if angle.isFinite then ⟨length * angle.cos, length * angle.sin⟩
  else ⟨Decimal.nan, Decimal.nan⟩

/-- The sign of the imaginary part of a square root: a zero, or what is no number, counts as
positive. -/
def rootSign (im : Float) : Float :=
  if im == 0.0 || 0.0 < im || im.isNaN then 1.0 else -1.0

/-- The principal square root. -/
def sqrt (z : Value) : Value :=
  let m := z.modulus
  ⟨((m + z.re) / 2.0).sqrt, rootSign z.im * ((m - z.re) / 2.0).sqrt⟩

/-- The text of one part: a whole number below 10 ^ 16 without point, and without the sign of a
negative zero. -/
def partText (x : Float) : String :=
  match (Binary.ofFloat x).toInt? with
  | some n => if n.natAbs < Nat.pow 10 16 then toString n else decimalText x
  | none => decimalText x

/-- The text of an imaginary part that is written with its sign apart: one is left out. -/
def unitText (x : Float) : String := if x == 1.0 then "i" else partText x ++ "i"

/-- The written form: a part that is zero is left out, and so is the factor one before `i`. -/
def toText (z : Value) : String :=
  if z.im == 0.0 then partText z.re
  else if z.re == 0.0 then
    if z.im == -1.0 then "-i" else unitText z.im
  else partText z.re ++ (if 0.0 ≤ z.im then "+" else "-") ++ unitText z.im.abs

/-- The quotient. There is none by a divisor whose squared modulus is zero, even if the divisor
is not zero itself. -/
def div (z w : Value) : Except Cause Value :=
  let d := w.re * w.re + w.im * w.im
  if d == 0.0 then .error (.zeroModulus w.toText)
  else .ok ⟨(z.re * w.re + z.im * w.im) / d, (z.im * w.re - z.re * w.im) / d⟩

end Value

end ComplexExpr
