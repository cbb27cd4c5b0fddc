import ComplexExpr.NameSet
import ComplexExpr.Value.Basic

/-!
# Expressions

An expression is a tree of literals, variables, negations, binary operations
and calls. Its size along a path is counted in two ways: in levels (`height`),
and in the frames that a recursion over it takes (`frames`), two for a call and
one for any other node. `prefixForm` writes an expression with each operator
before its operands; `vars` and `functions` are the names in it.
-/

namespace ComplexExpr

inductive BinaryOp
  | add
  | sub
  | mul
  | div
  | pow
deriving DecidableEq, Repr

/-- The sign of an operation. -/
def BinaryOp.symbol : BinaryOp → String
  | add => "+"
  | sub => "-"
  | mul => "*"
  | div => "/"
  | pow => "**"

inductive Expr
  | literal (value : Value)
  | var (name : String)
  | negate (operand : Expr)
  | binary (op : BinaryOp) (left right : Expr)
  /-- A call; the function's name stands as it was written. -/
  | call (name : String) (args : List Expr)

instance : Inhabited Expr := ⟨.var ""⟩

namespace Expr

/-- Induction with the hypothesis for every argument of a call. -/
theorem induct {motive : Expr → Prop} (literal : ∀ z, motive (.literal z))
    (var : ∀ x, motive (.var x)) (negate : ∀ e, motive e → motive (.negate e))
    (binary : ∀ op l r, motive l → motive r → motive (.binary op l r))
    (call : ∀ f es, (∀ e ∈ es, motive e) → motive (.call f es)) : ∀ e, motive e
  | .literal z => literal z
  | .var x => var x
  | .negate e => negate e (induct literal var negate binary call e)
  | .binary op l r =>
    binary op l r (induct literal var negate binary call l)
      (induct literal var negate binary call r)
  | .call f es => call f es fun e _ => induct literal var negate binary call e

mutual

/-- The number of levels of a tree. -/
def height : Expr → Nat
  | .literal _ | .var _ => 1
  | .negate e => e.height + 1
  | .binary _ l r => max l.height r.height + 1
  | .call _ es => heightAll es + 1

def heightAll : List Expr → Nat
  | [] => 0
  | e :: es => max e.height (heightAll es)

end

mutual

/-- The frames of a recursion over a tree: a call takes one for itself and one for its arguments. -/
def frames : Expr → Nat
  | .literal _ | .var _ => 1
  | .negate e => e.frames + 1
  | .binary _ l r => max l.frames r.frames + 1
  | .call _ es => framesAll es + 2

def framesAll : List Expr → Nat
  | [] => 0
  | e :: es => max e.frames (framesAll es)

end

mutual

/-- An expression with each operator before its operands. -/
def prefixForm : Expr → String
  | .literal z => z.toText
  | .var x => x
  | .negate e => "(- " ++ e.prefixForm ++ ")"
  | .binary op l r => "(" ++ op.symbol ++ " " ++ l.prefixForm ++ " " ++ r.prefixForm ++ ")"
  | .call f es => "(" ++ f ++ prefixArgs es ++ ")"

/-- Each argument after a blank. -/
def prefixArgs : List Expr → String
  | [] => ""
  | e :: es => " " ++ e.prefixForm ++ prefixArgs es

end

mutual

/-- The names of the variables. -/
def vars : Expr → NameSet
  | .literal _ => .empty
  | .var x => .singleton x
  | .negate e => e.vars
  | .binary _ l r => l.vars ∪ r.vars
  | .call _ es => varsAll es

def varsAll : List Expr → NameSet
  | [] => .empty
  | e :: es => e.vars ∪ varsAll es

end

mutual

/-- The names of the functions called. -/
def functions : Expr → NameSet
  | .literal _ | .var _ => .empty
  | .negate e => e.functions
  | .binary _ l r => l.functions ∪ r.functions
  | .call f es => (functionsAll es).insert f

def functionsAll : List Expr → NameSet
  | [] => .empty
  | e :: es => e.functions ∪ functionsAll es

end

/-- The prefix form of an expression, if `room` frames suffice to write it. -/
def renderWithin (room : Nat) (e : Expr) : Except Cause String :=
  if e.frames ≤ room then .ok e.prefixForm else .error (.tooDeep .render)

/-- The variables of an expression, if `room` frames suffice to collect them; a call takes one frame
here. -/
def freeVariablesWithin (room : Nat) (e : Expr) : Except Cause NameSet :=
  if e.height ≤ room then .ok e.vars else .error (.tooDeep .collect)

/-- An expression, once it is written out if it is traced. -/
def traceWithin (room : Nat) (traced : Bool) (e : Expr) : Except Cause Expr := do
  if traced then discard (e.renderWithin room)
  return e

/-- The frames that every recursion over an expression, and the parser's, may take. -/
def frameLimit : Nat := 985

/-- The prefix form of an expression that is not too deep. -/
def render (e : Expr) : Except Cause String := e.renderWithin frameLimit

/-- The variables of an expression that is not too deep. -/
def freeVariables (e : Expr) : Except Cause NameSet := e.freeVariablesWithin frameLimit

end Expr

end ComplexExpr
