import ComplexExpr.Proofs.Value.Root

/-!
# Operations on doubles that may raise

Where an operation on doubles has no result, or none that is a finite double, it may raise something
of its own (`Raised`). The operations on values are written once more with these: `raisingPow`,
`raisingSqrt` and `raisingDiv` raise wherever one of their steps does. They come out the same
(`raisingPow_eq`, `raisingSqrt_eq`, `raisingDiv_eq`), since each step is guarded against just that,
or is taken where it does not raise.
-/

namespace ComplexExpr

/-- What is raised in the course of an evaluation: a failure of it, or what an operation on doubles
raises of its own. -/
inductive Raised
  | failure (cause : Cause)
  /-- A function has no value there. -/
  | domain
  /-- Finite numbers have a result that is too large. -/
  | overflow
  /-- A division, or a negative power, of zero. -/
  | zeroDivision
  /-- A power of a negative number is not a real one. -/
  | notReal
deriving DecidableEq, Repr

namespace Raising

/-- The square root; a negative number has none. -/
def sqrt (x : Float) : Except Raised Float := if x < 0.0 then .error .domain else .ok x.sqrt

/-- The cosine; an infinite angle has none. -/
def cos (x : Float) : Except Raised Float := if x.isInf then .error .domain else .ok x.cos

/-- The sine; an infinite angle has none. -/
def sin (x : Float) : Except Raised Float := if x.isInf then .error .domain else .ok x.sin

def div (x y : Float) : Except Raised Float :=
  if y == 0.0 then .error .zeroDivision else .ok (x / y)

/-- A power; zero has none to a negative exponent, and a negative number no real one to an exponent
that is not whole. -/
def pow (x n : Float) : Except Raised Float :=
  if x == 0.0 && n < 0.0 then .error .zeroDivision
  else if x < 0.0 && n.isFinite && (Binary.ofFloat n).toInt?.isNone then .error .notReal
  else if x.isFinite && n.isFinite && (x.pow n).isInf then .error .overflow
  else .ok (x.pow n)

variable {x y : Float}

theorem sqrt_eq (h : ¬x < 0.0) : sqrt x = .ok x.sqrt := if_neg h

theorem not_isInf_of_isFinite (h : x.isFinite) : ¬x.isInf := by
  obtain ⟨q, hq⟩ := Binary.exists_hasValue h
  rw [hq.isInf_eq]
  exact Bool.false_ne_true

theorem cos_eq (h : x.isFinite) : cos x = .ok x.cos := if_neg (not_isInf_of_isFinite h)

theorem sin_eq (h : x.isFinite) : sin x = .ok x.sin := if_neg (not_isInf_of_isFinite h)

theorem div_eq (h : ¬(y == 0.0) = true) (x : Float) : div x y = .ok (x / y) := if_neg h

end Raising

namespace Value

/-- A power of a modulus. Of what it may raise, an overflow is caught. -/
def raisingRealPower (x n : Float) : Except Raised Float :=
  if x == 0.0 && n < 0.0 then .ok Decimal.infinity
  else match Raising.pow x n with
    | .error .overflow => .ok Decimal.infinity
    | power => power

def raisingPow (z : Value) (n : Float) : Except Raised Value := do
  let length ← raisingRealPower z.modulus n
  let angle := Float.atan2 z.im z.re * n
  if angle.isFinite then
    let cos ← Raising.cos angle
    let sin ← Raising.sin angle
    return ⟨length * cos, length * sin⟩
  else return ⟨Decimal.nan, Decimal.nan⟩

def raisingSqrt (z : Value) : Except Raised Value := do
  let m := z.modulus
  let re ← Raising.sqrt (← Raising.div (m + z.re) 2.0)
  let im ← Raising.sqrt (← Raising.div (m - z.re) 2.0)
  return ⟨re, rootSign z.im * im⟩

def raisingDiv (z w : Value) : Except Raised Value := do
  let d := w.re * w.re + w.im * w.im
  if d == 0.0 then throw (.failure (.zeroModulus w.toText))
  let re ← Raising.div (z.re * w.re + z.im * w.im) d
  let im ← Raising.div (z.im * w.re - z.re * w.im) d
  return ⟨re, im⟩

variable {x : Float}

/-! ## Powers -/

/-- A power of what is not negative raises nothing but the overflow that is caught. -/
theorem raisingRealPower_eq (hx : ¬x < 0.0) (n : Float) :
    raisingRealPower x n = .ok (realPower x n) := by
  unfold raisingRealPower realPower
  by_cases hzero : (x == 0.0 && n < 0.0) = true
  · rw [if_pos hzero, if_pos hzero]
  · have hreal : ¬(x < 0.0 && n.isFinite && (Binary.ofFloat n).toInt?.isNone) = true := by
      rw [decide_eq_false hx, Bool.false_and, Bool.false_and]
      exact Bool.false_ne_true
    rw [if_neg hzero, if_neg hzero, Raising.pow, if_neg hzero, if_neg hreal]
    dsimp only
    by_cases hover : (x.isFinite && n.isFinite && (x.pow n).isInf) = true
    · rw [if_pos hover, if_pos hover]
    · rw [if_neg hover, if_neg hover]

/-- The power of a value comes out: no step of it raises anything that is not caught. -/
theorem raisingPow_eq (z : Value) (n : Float) : z.raisingPow n = .ok (z.pow n) := by
  unfold raisingPow pow
  rw [raisingRealPower_eq z.not_modulus_lt]
  show ite _ _ _ = _
  by_cases hfinite : (Float.atan2 z.im z.re * n).isFinite = true
  · rw [if_pos hfinite, if_pos hfinite, Raising.cos_eq hfinite, Raising.sin_eq hfinite]
    rfl
  · rw [if_neg hfinite, if_neg hfinite]
    rfl

/-! ## Roots and quotients -/

theorem raisingSqrt_eq (z : Value) : z.raisingSqrt = .ok z.sqrt := by
  have htwo : ¬((2.0 : Float) == 0.0) = true := by decide
  unfold raisingSqrt
  dsimp only
  rw [Raising.div_eq htwo, Raising.div_eq htwo]
  show (do
    let re ← Raising.sqrt ((z.modulus + z.re) / 2.0)
    let im ← Raising.sqrt ((z.modulus - z.re) / 2.0)
    return (⟨re, rootSign z.im * im⟩ : Value)) = _
  rw [Raising.sqrt_eq z.not_half_sum_lt, Raising.sqrt_eq z.not_half_difference_lt]
  rfl

theorem raisingDiv_eq (z w : Value) : z.raisingDiv w = (z.div w).mapError .failure := by
  unfold raisingDiv div
  by_cases hzero : (w.re * w.re + w.im * w.im == 0.0) = true
  · rw [if_pos hzero, if_pos hzero]
    rfl
  · rw [if_neg hzero, if_neg hzero, Raising.div_eq hzero, Raising.div_eq hzero]
    rfl

end Value

end ComplexExpr
