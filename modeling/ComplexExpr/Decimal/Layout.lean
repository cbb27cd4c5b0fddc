import ComplexExpr.Decimal.Shortest

/-!
# Decimal text

How a double is written: the shortest digits that read back, in positional
notation for ordinary magnitudes and with a power of ten for others
(`Layout.write`, `decimalText`).
-/

namespace ComplexExpr

/-- The choices of a notation for doubles. -/
structure Layout where
  /-- The least power of ten of a first digit that is written positionally. -/
  least : Int
  /-- The first power of ten that is written with an exponent again. -/
  most : Int
  /-- The least number of digits of an exponent. -/
  exponentWidth : Nat
  nan : String
  infinity : String
  negativeInfinity : String

namespace Layout

/-- Text for people: positional from 0.0001 to below 10 ^ 16. -/
def plain : Layout := ⟨-4, 16, 2, "nan", "inf", "-inf"⟩

/-- Text for data files: other words where there is no number. -/
def data : Layout :=
  { plain with nan := "NaN", infinity := "Infinity", negativeInfinity := "-Infinity" }

/-- The digits `ds` with the point after the first `point` of them. -/
def positional (ds : List Char) (point : Int) : List Char :=
  if point ≤ 0 then '0' :: '.' :: (List.replicate (-point).toNat '0' ++ ds)
  else
    let p := point.toNat
    let fraction := ds.drop p
    ds.take p ++ List.replicate (p - ds.length) '0' ++
      '.' :: (if fraction.isEmpty then ['0'] else fraction)

/-- The digits of a number, with zeros before them up to `width`. -/
def padded (width n : Nat) : List Char :=
  let ds := Nat.toDigits 10 n
  List.replicate (width - ds.length) '0' ++ ds

/-- The digits `ds` with a point after the first, times ten to the power `exponent`. -/
def scientific (l : Layout) (ds : List Char) (exponent : Int) : List Char :=
  ds.take 1 ++ (if ds.length ≤ 1 then [] else '.' :: ds.drop 1) ++
    'e' :: (if exponent < 0 then '-' else '+') :: padded l.exponentWidth exponent.natAbs

/-- The text of `n · 10 ^ k`. -/
def number (l : Layout) (n : Nat) (k : Int) : List Char :=
  let ds := Nat.toDigits 10 n
  let exponent := k + ds.length - 1
  if l.least ≤ exponent && exponent < l.most then positional ds (exponent + 1)
  else l.scientific ds exponent

/-- The text of a double by its parts. -/
def write (l : Layout) : Binary → String
  | .nan => l.nan
  | .infinite negative => if negative then l.negativeInfinity else l.infinity
  | .finite negative m e =>
    let unsigned :=
      if m = 0 then positional ['0'] 1
      else
        let (n, k) := Shortest.Target.decimal ⟨m, e⟩
        l.number n k
    String.ofList (if negative then '-' :: unsigned else unsigned)

end Layout

/-- The text of a double. -/
def decimalText (x : Float) : String := Layout.plain.write (Binary.ofFloat x)

end ComplexExpr
