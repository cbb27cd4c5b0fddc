import ComplexExpr.Decimal.Binary

/-!
# The length of a plane vector

`hypot a b` is `sqrt (a * a + b * b)` to the last bit, without overflow or
underflow on the way: the arguments are scaled by a power of two, the squares
are summed with their rounding errors kept apart (`Sum`), and the root is
corrected by one step.
-/

namespace ComplexExpr

/-- A sum started at one, with three accounts for small terms and for what rounding loses. -/
structure Sum where
  total : Float := 1.0
  first : Float := 0.0
  second : Float := 0.0
  third : Float := 0.0

namespace Sum

/-- A term added, its rounding error kept in the first account. -/
def addFirst (s : Sum) (x : Float) : Sum :=
  let total := s.total + x
  { s with total, first := s.first + ((s.total - total) + x) }

/-- A term added, its rounding error kept in the second account. -/
def addSecond (s : Sum) (x : Float) : Sum :=
  let total := s.total + x
  { s with total, second := s.second + ((s.total - total) + x) }

/-- A term added, its rounding error kept in the third account. -/
def addThird (s : Sum) (x : Float) : Sum :=
  let total := s.total + x
  { s with total, third := s.third + ((s.total - total) + x) }

/-- The sum of the terms alone. -/
def value (s : Sum) : Float := s.total - 1.0 + (s.first + s.second + s.third)

end Sum

/-- A double as a sum of two with half as many digits each. -/
def halves (x : Float) : Float × Float :=
  let t := x * 134217729.0
  let high := t - (t - x)
  (high, x - high)

/-- The square of `x` added in three exact parts, the least of them to the third account alone. -/
def Sum.addSquare (s : Sum) (x : Float) : Sum :=
  let (high, low) := halves x
  let s := (s.addFirst (high * high)).addSecond (2.0 * high * low)
  { s with third := s.third + low * low }

/-- The square of `x` taken away in three exact parts. -/
def Sum.subSquare (s : Sum) (x : Float) : Sum :=
  let (high, low) := halves x
  ((s.addFirst (-high * high)).addSecond (-2.0 * high * low)).addThird (-low * low)

/-- The `e` with `2 ^ (e - 1) ≤ x < 2 ^ e`, for a positive finite double. -/
def binaryExponent (x : Float) : Int :=
  match Binary.ofFloat x with
  | .finite _ m e => e + m.log2 + 1
  | _ => 0

/-- The length of `(a, b)`, both not negative and finite, the larger being `m`, not zero. -/
def scaledLength (m a b : Float) : Float :=
  let e := binaryExponent m
  if e < -1023 then
    let x := a / m
    let y := b / m
    m * (({} : Sum).addFirst (x * x) |>.addFirst (y * y)).value.sqrt
  else
    let scale := powerOfTwo (-e)
    let s := (({} : Sum).addSquare (a * scale)).addSquare (b * scale)
    let h := s.value.sqrt
    (h + (s.subSquare h).value / (2.0 * h)) / scale

/-- The length of `(a, b)`: infinite if a part is, not a number if a part is not. -/
def hypot (a b : Float) : Float :=
  let a := a.abs
  let b := b.abs
  if a.isInf || b.isInf then 1.0 / 0.0
  else if a.isNaN || b.isNaN then 0.0 / 0.0
  else
    let m := if b < a then a else b
    if m == 0.0 then 0.0 else scaledLength m a b

end ComplexExpr
