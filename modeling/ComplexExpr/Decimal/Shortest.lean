import ComplexExpr.Decimal.Binary

/-!
# Shortest decimals

Of the decimals that read back as a given double, the one with the fewest
digits, and of those the nearest. All comparisons are of whole numbers: a
positive double `m · 2 ^ e` stands between its neighbours' midpoints `below`
and `above`, and a decimal grid of step `10 ^ k` has a point among those
midpoints iff one of the two grid points around the double is there.
-/

namespace ComplexExpr.Shortest

/-- A positive double `mantissa · 2 ^ exponent`, with the reals that read back as it. -/
structure Target where
  mantissa : Nat
  exponent : Int
deriving Repr

namespace Target

/-- The double itself, in units of `2 ^ (exponent - 2)`, as the bounds are too. -/
def centre (t : Target) : Nat := 4 * t.mantissa

/-- The middle between the double and the next lower one, which at a power of two is only half as
far away. -/
def below (t : Target) : Nat :=
  if t.mantissa = Nat.pow 2 52 ∧ -1074 < t.exponent then 4 * t.mantissa - 1 else 4 * t.mantissa - 2

/-- The middle between the double and the next higher one. -/
def above (t : Target) : Nat := 4 * t.mantissa + 2

/-- The bounds themselves read back as the double when its mantissa is even. -/
def closed (t : Target) : Bool := t.mantissa % 2 = 0

/-- The factor that units are multiplied by to be compared with steps of the grid `10 ^ k`: `u`
units are `n` steps iff `u * scaleUnits k = n * scaleSteps k`. -/
def scaleUnits (t : Target) (k : Int) : Nat :=
  Nat.pow 10 (-k).toNat * Nat.pow 2 (t.exponent - 2).toNat

/-- The factor that steps of the grid `10 ^ k` are multiplied by to be compared with units. -/
def scaleSteps (t : Target) (k : Int) : Nat :=
  Nat.pow 10 k.toNat * Nat.pow 2 (2 - t.exponent).toNat

/-- The grid point `n · 10 ^ k` reads back as the double. -/
def holds (t : Target) (k : Int) (n : Nat) : Bool :=
  let point := n * t.scaleSteps k
  let low := t.below * t.scaleUnits k
  let high := t.above * t.scaleUnits k
  if t.closed then low ≤ point && point ≤ high else low < point && point < high

/-- The grid point below the double. -/
def floor (t : Target) (k : Int) : Nat := t.centre * t.scaleUnits k / t.scaleSteps k

/-- The double lies nearer to the grid point above it than to the one below, or as near
and the one below is odd. -/
def roundsUp (t : Target) (k : Int) : Bool :=
  let double := 2 * (t.centre * t.scaleUnits k)
  let midpoint := (2 * t.floor k + 1) * t.scaleSteps k
  midpoint < double || (midpoint = double && t.floor k % 2 = 1)

/-- The point of the grid `10 ^ k` that stands for the double, if it has one. -/
def onGrid (t : Target) (k : Int) : Option Nat :=
  let n := t.floor k
  match t.holds k n, t.holds k (n + 1) with
  | true, true => some (if t.roundsUp k then n + 1 else n)
  | true, false => some n
  | false, true => some (n + 1)
  | false, false => none

/-- A point of the first grid from `10 ^ k` downwards that has one. -/
def search (t : Target) : Nat → Int → Nat × Int
  | 0, k => (t.floor k, k)
  | fuel + 1, k => match t.onGrid k with
    | some n => (n, k)
    | none => search t fuel (k - 1)

/-- A power of ten above the double: `log10 2` lies between 0.30102 and 0.30103. -/
def ceiling (t : Target) : Int :=
  (t.exponent + t.mantissa.log2 + 1) * 30103 / 100000 + 2

/-- The shortest decimal `(n, k)`, for `n · 10 ^ k`, that reads back as the double. Seventeen
digits always suffice, and the search opens at most three grids above the first digit. -/
def decimal (t : Target) : Nat × Int := t.search 24 t.ceiling

end Target

end ComplexExpr.Shortest
