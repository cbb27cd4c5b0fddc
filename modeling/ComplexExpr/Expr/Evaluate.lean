import ComplexExpr.Builtin
import ComplexExpr.Expr.Basic
import ComplexExpr.Table
import ComplexExpr.Value.Literal

/-!
# Evaluation

The value of an expression under bindings of its variables to texts
(`Expr.evaluate`). Operands are evaluated from left to right, except in a
division: there the divisor comes first and is checked before the dividend is
looked at. A value or failure that is found before the frames run out stands.
-/

namespace ComplexExpr

/-- The text that each variable is bound to. -/
abbrev Bindings := Table String String

/-- The value that a variable is bound to. -/
def Bindings.value (b : Bindings) (name : String) : Except Cause Value :=
  match b.get? name with
  | none => .error (.unboundVariable name)
  | some text => (Value.ofText text).mapError .literal

/-- An operation on values; the exponent of a power has to be real. -/
def BinaryOp.apply : BinaryOp → Value → Value → Except Cause Value
  | add, z, w => .ok (z.add w)
  | sub, z, w => .ok (z.sub w)
  | mul, z, w => .ok (z.mul w)
  | div, z, w => z.div w
  | pow, z, w => if w.im == 0.0 then .ok (z.pow w.re) else .error (.complexExponent w.toText)

namespace Expr

/-- The failure of a division by an expression with the value zero. The divisor is written within
the frames that are left. -/
def zeroDivision (room : Nat) (divisor : Expr) : Cause :=
  if divisor.frames ≤ room then .zeroDivisor divisor.prefixForm else .tooDeep .evaluate

mutual

/-- The value of an expression, found within `room` frames: one for each level of the tree, and two
for a call. What reads the text of a variable or computes an operation on values is not counted. -/
def evaluateWithin (b : Bindings) : Nat → Expr → Except Cause Value
  | 0, _ => .error (.tooDeep .evaluate)
  | _ + 1, .literal z => .ok z
  | _ + 1, .var x => b.value x
  | room + 1, .negate e => return (← e.evaluateWithin b room).neg
  | room + 1, .binary .div l r => do
    let w ← r.evaluateWithin b room
    if w.isZero then throw (r.zeroDivision room)
    let z ← l.evaluateWithin b room
    z.div w
  | room + 1, .binary op l r => do
    let z ← l.evaluateWithin b room
    let w ← r.evaluateWithin b room
    op.apply z w
  | 1, .call .. => .error (.tooDeep .evaluate)
  | room + 2, .call f es => do Builtin.call f (← evaluateAll b room es)

def evaluateAll (b : Bindings) : Nat → List Expr → Except Cause (List Value)
  | _, [] => .ok []
  | room, e :: es => return (← e.evaluateWithin b room) :: (← evaluateAll b room es)

end

/-- The value of an expression. -/
def evaluate (e : Expr) (b : Bindings) : Except Cause Value := e.evaluateWithin b frameLimit

end Expr

end ComplexExpr
