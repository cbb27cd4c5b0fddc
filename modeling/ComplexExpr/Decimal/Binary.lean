/-!
# The parts of a double

`Binary.ofFloat` takes a double apart into a sign, a whole mantissa and a power
of two, so that its printing is a matter of exact whole numbers.
-/

namespace ComplexExpr

/-- A double by its parts: a finite one is `± mantissa · 2 ^ exponent`. -/
inductive Binary
  | nan
  | infinite (negative : Bool)
  | finite (negative : Bool) (mantissa : Nat) (exponent : Int)
deriving DecidableEq, Repr

namespace Binary

/-- The parts that 64 bits encode: a sign, eleven bits of exponent, 52 bits of mantissa. -/
def ofBits (bits : Nat) : Binary :=
  let negative : Bool := Nat.pow 2 63 ≤ bits
  let exponent : Nat := bits / Nat.pow 2 52 % Nat.pow 2 11
  let fraction : Nat := bits % Nat.pow 2 52
  if exponent = 2047 then
    if fraction = 0 then .infinite negative else .nan
  else if exponent = 0 then .finite negative fraction (-1074)
  else .finite negative (Nat.pow 2 52 + fraction) ((exponent : Int) - 1075)

def ofFloat (x : Float) : Binary := ofBits x.toBits.toNat

/-- The whole number that a double is, if it is one. -/
def toInt? : Binary → Option Int
  | .nan | .infinite _ => none
  | .finite negative m e =>
    let whole : Option Nat :=
      if 0 ≤ e then some (m * Nat.pow 2 e.toNat)
      else if m % Nat.pow 2 (-e).toNat = 0 then some (m / Nat.pow 2 (-e).toNat) else none
    whole.map fun n => if negative then -(n : Int) else n

/-- The least double that is not below a positive whole number: the nearest double, or the one
after it. -/
def leastDouble (n : Int) : Float :=
  let x := Float.ofInt n
  match (ofFloat x).toInt? with
  | some k => if k < n then Float.ofBits (x.toBits + 1) else x
  | none => x

end Binary

/-- The double `2 ^ k`, for `k` from -1074 to 1023. -/
def powerOfTwo (k : Int) : Float :=
  let bits : Nat :=
    if k < -1022 then Nat.pow 2 (k + 1074).toNat else (k + 1023).toNat * Nat.pow 2 52
  Float.ofBits bits.toUInt64

end ComplexExpr
