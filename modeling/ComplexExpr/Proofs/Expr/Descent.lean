import ComplexExpr.Decimal.Typed
import ComplexExpr.Expr.Basic
import ComplexExpr.Token.Cursor
import ComplexExpr.Value.Literal

/-!
# Recursive descent over a cursor

The grammar of expressions, read with a cursor that may move past the end of
the tokens, with tokens that are expected and may not be there, with texts that
may not convert to numbers, and with loops that may go on for ever. A reader
gives what it has read and moves the cursor, or it throws (`Thrown`). It is
guarded by nothing but what it has seen at the cursor just before.

Loops are watched for `limit` rounds, and cut off if they are not over by then.
-/

namespace ComplexExpr

/-- The operation that a token is the sign of. -/
def BinaryOp.ofSymbol? (t : Token) : Option BinaryOp :=
  [add, sub, mul, div, pow].find? fun op => op.symbol == t

namespace Descent

open Token (Cursor)

/-- What is thrown while reading: a failure, or what comes of using a token as what it is not. -/
inductive Thrown
  | failure (cause : Cause)
  /-- There is no token to be used as a text. -/
  | noText
  /-- The text is no number. -/
  | notNumber
  /-- The token is no sign of an operation. -/
  | notOperator
  /-- A loop is not over after the rounds for which it is watched. -/
  | cutOff

/-- Reads something at a cursor and moves the cursor. -/
abbrev Reader (α : Type) := StateT Cursor (Except Thrown) α

/-! ## Tokens -/

def peek : Reader (Option Token) := fun c => .ok (c.peek?, c)

def advance : Reader (Option Token) := fun c => .ok c.advance

def expect (t : Token) : Reader Unit := fun c =>
  match c.expect t with
  | .ok r => .ok ((), r.2)
  | .error e => .error (.failure e)

/-- A token that has been taken, as a text. -/
def text : Option Token → Reader Token
  | some t => return t
  | none => throw .noText

/-- The operation of the sign that has been taken. -/
def operator (token : Option Token) : Except Thrown BinaryOp :=
  match token.bind BinaryOp.ofSymbol? with
  | some op => .ok op
  | none => .error .notOperator

/-- The closing parenthesis that has to be next. -/
def close (missing : Cause) : Reader Unit := do
  if (← peek) = some ")" then expect ")" else throw (.failure missing)

/-! ## Loops -/

/-- Goes round as long as one of the marks is next: takes the mark and an operand, and joins the
operand to what there is. The number of rounds that have been begun comes with the outcome. -/
def rounds (marks : List Token) (op : Option Token → Except Thrown BinaryOp)
    (operand : Reader Expr) : Nat → Expr → Cursor → Nat × Except Thrown (Expr × Cursor)
  | 0, _, _ => (0, .error .cutOff)
  | limit + 1, left, c =>
    if c.peek?.any (· ∈ marks) then
      match op c.advance.1 with
      | .error e => (1, .error e)
      | .ok b => match operand c.advance.2 with
        | .error e => (1, .error e)
        | .ok (right, c) =>
          let (n, outcome) := rounds marks op operand limit (.binary b left right) c
          (n + 1, outcome)
    else (0, .ok (left, c))

/-- The arguments that are left, with commas between them, after those there are. -/
def arguments (sum : Reader Expr) : Nat → List Expr → Reader (List Expr)
  | 0, _ => throw .cutOff
  | limit + 1, args => do
    let arg ← sum
    if (← peek) = some "," then
      expect ","
      arguments sum limit (args ++ [arg])
    else return args ++ [arg]

/-! ## Primaries -/

def group (sum : Reader Expr) : Reader Expr := do
  expect "("
  let inner ← sum
  close .unclosedGroup
  return inner

/-- A number, imaginary if `i` follows it. -/
def numeral : Reader Expr := do
  let number ← text (← advance)
  if (← peek) = some "i" then
    expect "i"
    match Value.ofText (number ++ "i") with
    | .ok z => return .literal z
    | .error fault => throw (.failure (.literal fault))
  else
    match Typed.readFloat? number with
    | some x => return .literal ⟨x, 0.0⟩
    | none => throw .notNumber

def unit : Reader Expr := do
  expect "i"
  return .literal ⟨0.0, 1.0⟩

/-- The arguments of a call, of which the opening parenthesis has been taken. -/
def callArguments (limit : Nat) (sum : Reader Expr) (name : Token) : Reader (List Expr) := do
  let args ← if (← peek) = some ")" then pure [] else arguments sum limit []
  close (.unclosedCall name)
  return args

/-- A name, with the arguments of a call if a parenthesis opens. -/
def callOrName (limit : Nat) (sum : Reader Expr) : Reader Expr := do
  let name ← text (← advance)
  if (← peek) = some "(" then
    expect "("
    let args ← callArguments limit sum name
    return .call name args
  else return .var name

def signed (primary : Reader Expr) : Reader Expr := do
  let sign ← advance
  let operand ← primary
  if sign = some "-" then return .negate operand else return operand

/-! ## Levels -/

section

variable (limit : Nat)

/-- The rounds of a power's loop. -/
def powerRounds (power : Reader Expr) (base : Expr) (c : Cursor) :
    Nat × Except Thrown (Expr × Cursor) :=
  rounds ["**", "^"] (fun _ => .ok .pow) power limit base c

mutual

/-- Reads a sum, with `room` frames left. -/
def sum : Nat → Reader Expr
  | 0 => throw (.failure (.tooDeep .parse))
  | room + 1 => do
    let first ← term room
    fun c => (rounds ["+", "-"] operator (term room) limit first c).2

/-- Reads a term, with `room` frames left. -/
def term : Nat → Reader Expr
  | 0 => throw (.failure (.tooDeep .parse))
  | room + 1 => do
    let first ← power room
    fun c => (rounds ["*", "/"] operator (power room) limit first c).2

/-- Reads a power, with `room` frames left. -/
def power : Nat → Reader Expr
  | 0 => throw (.failure (.tooDeep .parse))
  | room + 1 => do
    let base ← primary room
    fun c => (powerRounds limit (power room) base c).2

/-- Reads a primary, with `room` frames left. -/
def primary : Nat → Reader Expr
  | 0 => throw (.failure (.tooDeep .parse))
  | room + 1 => do
    let token ← peek
    if token = some "(" then group (sum room)
    else if token.any fun t => (Numeral.readPlain? t.toList).isSome then numeral
    else if token = some "i" then unit
    else if token.any fun t => Token.isName t.toList then callOrName limit (sum room)
    else if token = some "+" ∨ token = some "-" then signed (primary room)
    else throw (.failure (.invalidPrimary token))

end

/-- The expression that all the tokens from the cursor on are, read and, if it is traced, written
out within `room` frames. -/
def whole (room : Nat) (traced : Bool) : Reader Expr := do
  let tree ← sum limit room
  let c ← get
  if c.remaining = [] then
    match tree.traceWithin room traced with
    | .ok tree => return tree
    | .error cause => throw (.failure cause)
  else throw (.failure (.trailingTokens c.remaining))

/-- The expression that a list of tokens is. -/
def parse (room : Nat) (traced : Bool) (ts : List Token) : Except Thrown Expr :=
  (whole limit room traced).run' ⟨ts, 0⟩

end

end Descent

end ComplexExpr
