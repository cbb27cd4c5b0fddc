import ComplexExpr.Expr.Basic
import ComplexExpr.Parsed
import ComplexExpr.Token.Lexer

/-!
# Parsing

Expressions of tokens, by the grammar

* sum: terms joined by `+` and `-`, grouped from the left;
* term: powers joined by `*` and `/`, grouped from the left;
* power: a primary, or a primary raised to a power with `**` or `^`;
* primary: a sum in parentheses, a number, a number before `i`, `i`, a name, a
  call of a name, or a signed primary.

Each of the four functions takes an expression off the front of the tokens and
returns the rest, which is shorter. It counts the frames that are left: going
into an operand takes one, and going on along a chain takes none. So the tree of
a long chain is deeper than the descent that reads it. When expressions are
traced, the tree is written out once all tokens are taken, and one that is too
deep for that fails there.
-/

namespace ComplexExpr

namespace Expr

/-- A parser of one level of the grammar. -/
abbrev Parser := (ts : List Token) → Except Cause (Parsed Token Expr ts.length)

def additive? : Token.Shape → Option BinaryOp
  | .sign .plus => some .add
  | .sign .minus => some .sub
  | _ => none

def multiplicative? : Token.Shape → Option BinaryOp
  | .times => some .mul
  | .over => some .div
  | _ => none

/-- The operands that follow `left` at the front of the tokens, joined to it from the left. -/
def chain (op? : Token.Shape → Option BinaryOp) (operand : Parser) (left : Expr) :
    (ts : List Token) → Except Cause (Parsed Token Expr (ts.length + 1))
  | [] => .ok ⟨left, [], by simp⟩
  | t :: ts =>
    match op? (Token.shape t) with
    | none => .ok ⟨left, t :: ts, by simp⟩
    | some op => do
      let right ← operand ts
      have := right.rest_lt
      let all ← chain op? operand (.binary op left right.result) right.rest
      return all.widen (by simp only [List.length_cons]; omega)
termination_by ts => ts.length

/-- A level of the grammar that joins operands from the left. -/
def joined (op? : Token.Shape → Option BinaryOp) (operand : Parser) : Parser := fun ts => do
  let first ← operand ts
  have := first.rest_lt
  let all ← chain op? operand first.result first.rest
  return all.widen (by omega)

/-- The arguments at the front of the tokens, one at least, with commas between them. -/
def arguments (operand : Parser) (ts : List Token) :
    Except Cause (Parsed Token (List Expr) ts.length) := do
  let first ← operand ts
  match hr : first.rest with
  | [] => return first.map ([·])
  | t :: rest =>
    if Token.shape t = .comma then
      have hlt := first.rest_lt
      have : rest.length < ts.length := by rw [hr, List.length_cons] at hlt; omega
      let others ← arguments operand rest
      return (others.map (first.result :: ·)).widen (by omega)
    else return first.map ([·])
termination_by ts.length

/-- The tokens after the closing parenthesis that has to be next. -/
def closing (missing : Cause) : (ts : List Token) → Except Cause (Parsed Token Unit ts.length)
  | [] => .error missing
  | t :: ts => if Token.shape t = .closing then .ok ⟨(), ts, by simp⟩ else .error missing

/-- A group, of which the opening parenthesis has been taken. -/
def group (sum : Parser) : Parser := fun ts => do
  let inner ← sum ts
  have := inner.rest_lt
  let close ← closing .unclosedGroup inner.rest
  return ⟨inner.result, close.rest, by have := close.rest_lt; omega⟩

/-- The arguments of a call, of which the opening parenthesis has been taken. -/
def callArguments (sum : Parser) (name : String) (ts : List Token) :
    Except Cause (Parsed Token (List Expr) ts.length) :=
  match closing (.unclosedCall name) ts with
  | .ok close => .ok (close.map fun _ => [])
  | .error _ => do
    let args ← arguments sum ts
    have := args.rest_lt
    let close ← closing (.unclosedCall name) args.rest
    return ⟨args.result, close.rest, by have := close.rest_lt; omega⟩

/-- What follows a name: the arguments of a call, if a parenthesis opens, and else nothing. -/
def callOrName (sum : Parser) (name : String) :
    (ts : List Token) → Except Cause (Parsed Token Expr (ts.length + 1))
  | [] => .ok ⟨.var name, [], by simp⟩
  | t :: ts =>
    if Token.shape t = .opening then do
      let args ← callArguments sum name ts
      return (args.map (.call name)).widen (by simp only [List.length_cons]; omega)
    else .ok ⟨.var name, t :: ts, by simp⟩

/-- A number, imaginary if `i` follows it. -/
def numeral (n : Numeral) : (ts : List Token) → Parsed Token Expr (ts.length + 1)
  | [] => ⟨.literal ⟨n.toFloat, 0.0⟩, [], by simp⟩
  | t :: ts =>
    if Token.shape t = .unit then
      ⟨.literal ⟨0.0, n.toFloat⟩, ts, by simp only [List.length_cons]; omega⟩
    else ⟨.literal ⟨n.toFloat, 0.0⟩, t :: ts, by simp⟩

mutual

/-- Takes a sum, with `room` frames left. -/
def sum : Nat → Parser
  | 0 => fun _ => .error (.tooDeep .parse)
  | room + 1 => joined additive? (term room)

/-- Takes a term, with `room` frames left. -/
def term : Nat → Parser
  | 0 => fun _ => .error (.tooDeep .parse)
  | room + 1 => joined multiplicative? (power room)

/-- Takes a power, with `room` frames left. -/
def power : Nat → Parser
  | 0 => fun _ => .error (.tooDeep .parse)
  | room + 1 => fun ts => do
    let base ← primary room ts
    match hr : base.rest with
    | [] => return base
    | t :: rest =>
      if Token.shape t = .power then
        let exponent ← power room rest
        return ⟨.binary .pow base.result exponent.result, exponent.rest, by
          have := base.rest_lt; have := exponent.rest_lt; rw [hr, List.length_cons] at *; omega⟩
      else return base

/-- Takes a primary, with `room` frames left. -/
def primary : Nat → Parser
  | 0 => fun _ => .error (.tooDeep .parse)
  | room + 1 => fun ts =>
    match ts with
    | [] => .error (.invalidPrimary none)
    | t :: ts =>
      match Token.shape t with
      | .opening => return (← group (sum room) ts).widen (by simp)
      | .number n => return numeral n ts
      | .unit => return ⟨.literal ⟨0.0, 1.0⟩, ts, by simp⟩
      | .name => callOrName (sum room) t ts
      | .sign .plus => return (← primary room ts).widen (by simp)
      | .sign .minus => return ((← primary room ts).map .negate).widen (by simp)
      | _ => .error (.invalidPrimary (some t))

end

/-- The expression that a list of tokens is, read and, if it is traced, written out within `room`
frames. -/
def parseWithin (room : Nat) (traced : Bool) (ts : List Token) : Except Cause Expr := do
  let p ← sum room ts
  match p.rest with
  | [] => p.result.traceWithin room traced
  | rest => throw (.trailingTokens rest)

/-- The expression that a text is, read and, if it is traced, written out within `room` frames. -/
def ofTextWithin (room : Nat) (traced : Bool) (text : String) : Except Cause Expr := do
  parseWithin room traced (← Token.tokenize text)

/-- The expression that a list of tokens is, when nothing is traced. -/
def parse (ts : List Token) : Except Cause Expr := parseWithin frameLimit false ts

/-- The expression that a text is, when nothing is traced. -/
def ofText (text : String) : Except Cause Expr := ofTextWithin frameLimit false text

end Expr

end ComplexExpr
