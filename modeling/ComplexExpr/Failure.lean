/-!
# Failures

What can go wrong (`Cause`), with the wording of each case in one place, and
what is told about it (`Report`): a kind, a four-digit code, a message and the
offending fragment of the input. Kinds form a tree of families
(`Kind.parent?`); the first digit of a code is its category.
-/

namespace ComplexExpr

/-- Why a text is no complex number. -/
inductive LiteralFault
  /-- The text, given as it stands, holds nothing but blanks. -/
  | empty (text : String)
  /-- The text, given without its blanks, has none of the shapes of a number. -/
  | malformed (literal : String)
deriving DecidableEq, Repr

/-- The recursions over expressions that have a depth limit. -/
inductive Stage
  | parse
  | render
  | collect
  | evaluate
deriving DecidableEq, Repr

/-- Why an operation failed. -/
inductive Cause
  /-- No token starts here; the next characters are given. -/
  | invalidToken (rest : String)
  | unclosedGroup
  | unclosedCall (name : String)
  | unexpectedToken (expected : String) (found : Option String)
  /-- No operand starts here; the end of the tokens is `none`. -/
  | invalidPrimary (found : Option String)
  /-- A complete expression is followed by more tokens. -/
  | trailingTokens (tokens : List String)
  | tooDeep (stage : Stage)
  | literal (fault : LiteralFault)
  | unboundVariable (name : String)
  /-- The divisor, given in its written form, has the value zero. -/
  | zeroDivisor (divisor : String)
  /-- The divisor, given by its value, has a squared modulus of zero. -/
  | zeroModulus (divisor : String)
  | complexExponent (exponent : String)
  | arity (name : String) (count : Nat)
  | unknownFunction (name : String)
  | rejectedBinding (name : String) (fault : LiteralFault)
  | malformedBinding (pair : String)
  | cancelled (name : String)
  | unknownSetting (key : String)
  | invalidSetting (key raw : String)
  | tooFewTrials (key : String)
  | notPositive (key : String)
  | unsaved (path reason : String)
  /-- An expression was given as something that is not text. -/
  | notText (type : String)
deriving DecidableEq, Repr

/-- The kinds of failure: one for all, the families, and their members. -/
inductive Kind
  | general
  | token | parsing | literal | calculation | configuration
  | invalidToken
  | unclosedParenthesis | unexpectedToken | invalidPrimary | trailingTokens | tooDeep
  | emptyLiteral | invalidLiteral
  | unboundVariable | divisionByZero | complexExponent | arity | unknownFunction | invalidBinding
deriving DecidableEq, Repr

namespace Kind

/-- The family that a kind belongs to. -/
def parent? : Kind → Option Kind
  | general => none
  | token | parsing | literal | calculation | configuration => some general
  | invalidToken => some token
  | unclosedParenthesis | unexpectedToken | invalidPrimary | trailingTokens
  | tooDeep => some parsing
  | emptyLiteral | invalidLiteral => some literal
  | unboundVariable | divisionByZero | complexExponent | arity | unknownFunction
  | invalidBinding => some calculation

/-- The families above a kind, nearest first. -/
def ancestors (k : Kind) : List Kind :=
  match k.parent? with
  | none => []
  | some p => match p.parent? with
    | none => [p]
    | some q => [p, q]

/-- The code of a kind; a family without a code of its own has the general one. -/
def code : Kind → String
  | general | token | parsing | literal | calculation => "9999"
  | configuration => "5001"
  | invalidToken => "3001"
  | unclosedParenthesis => "3009"
  | unexpectedToken => "3011"
  | invalidPrimary => "3012"
  | trailingTokens => "3013"
  | tooDeep => "3014"
  | emptyLiteral => "3100"
  | invalidLiteral => "3101"
  | unboundVariable => "3002"
  | divisionByZero => "3003"
  | complexExponent => "3007"
  | arity => "3218"
  | unknownFunction => "2004"
  | invalidBinding => "3102"

end Kind

namespace LiteralFault

def kind : LiteralFault → Kind
  | empty _ => .emptyLiteral
  | malformed _ => .invalidLiteral

def message : LiteralFault → String
  | empty _ => "Empty string for complex number."
  | malformed literal => "Invalid complex number: " ++ literal

def fragment : LiteralFault → String
  | empty text => text
  | malformed literal => literal

end LiteralFault

def Stage.name : Stage → String
  | parse => "parse"
  | render => "render"
  | collect => "collect variables"
  | evaluate => "evaluate"

/-- A token as a message names it. -/
def foundToken (found : Option String) : String := found.getD "end of input"

namespace Cause

def kind : Cause → Kind
  | invalidToken _ => .invalidToken
  | unclosedGroup | unclosedCall _ => .unclosedParenthesis
  | unexpectedToken .. => .unexpectedToken
  | invalidPrimary _ => .invalidPrimary
  | trailingTokens _ => .trailingTokens
  | tooDeep _ => .tooDeep
  | literal fault => fault.kind
  | unboundVariable _ => .unboundVariable
  | zeroDivisor _ | zeroModulus _ => .divisionByZero
  | complexExponent _ => .complexExponent
  | arity .. => .arity
  | unknownFunction _ => .unknownFunction
  | rejectedBinding .. | malformedBinding _ | cancelled _ => .invalidBinding
  | unknownSetting _ | invalidSetting .. | tooFewTrials _ | notPositive _
  | unsaved .. => .configuration
  | notText _ => .general

/-- A call that is not closed has a code apart from that of a group. -/
def code : Cause → String
  | unclosedCall _ => "3217"
  | c => c.kind.code

def message : Cause → String
  | invalidToken rest => "Invalid token near: " ++ rest
  | unclosedGroup => "Missing closing parenthesis ')'"
  | unclosedCall name => "Missing closing parenthesis after function '" ++ name ++ "'"
  | unexpectedToken expected found =>
    "Expected '" ++ expected ++ "' but found '" ++ foundToken found ++ "'"
  | invalidPrimary found => "Invalid primary: " ++ foundToken found
  | trailingTokens tokens => "Unconsumed tokens: " ++ " ".intercalate tokens
  | tooDeep stage => "Expression nested too deeply to " ++ stage.name ++ "."
  | literal fault => fault.message
  | unboundVariable name => "Variable '" ++ name ++ "' has no value."
  | zeroDivisor _ => "Division by zero during evaluation."
  | zeroModulus _ => "Division by zero (complex zero)."
  | complexExponent _ => "Only real exponents are supported."
  | arity name count => name ++ "() takes exactly 1 argument (" ++ toString count ++ " given)"
  | unknownFunction name => "Unknown function: " ++ name
  | rejectedBinding name fault => "Invalid value for variable " ++ name ++ ": " ++ fault.message
  | malformedBinding pair => "Expected NAME=VALUE, got '" ++ pair ++ "'"
  | cancelled _ => "Execution cancelled by the user."
  | unknownSetting key => "Unknown setting: " ++ key
  | invalidSetting key raw => "Invalid value for " ++ key ++ ": " ++ raw
  | tooFewTrials _ => "At least one trial is needed."
  | notPositive key => key ++ " must be positive."
  | unsaved _ reason => "Settings could not be saved: " ++ reason
  | notText type => "Unexpected crash: expected string or bytes-like object, got '" ++ type ++ "'"

/-- The part of the input that a failure is about. -/
def fragment : Cause → String
  | invalidToken rest => rest
  | unclosedGroup => "("
  | unclosedCall name => name
  | unexpectedToken expected found => "'" ++ expected ++ "' / '" ++ foundToken found ++ "'"
  | invalidPrimary found => foundToken found
  | trailingTokens tokens => " ".intercalate tokens
  | tooDeep stage => stage.name
  | literal fault => fault.fragment
  | unboundVariable name => name
  | zeroDivisor divisor | zeroModulus divisor => divisor
  | complexExponent exponent => exponent
  | arity name _ => name
  | unknownFunction name => name
  | rejectedBinding name _ => name
  | malformedBinding pair => pair
  | cancelled name => name
  | unknownSetting key | invalidSetting key _ | tooFewTrials key | notPositive key => key
  | unsaved path _ => path
  | notText type => "expected string or bytes-like object, got '" ++ type ++ "'"

end Cause

/-- A failure, with the expression that it is about once that is known. -/
structure Failure where
  cause : Cause
  equation : Option String := none
deriving DecidableEq, Repr

/-- What is told about a failure. -/
structure Report where
  kind : Kind
  code : String
  message : String
  fragment : Option String
  equation : Option String
deriving DecidableEq, Repr

def Failure.report (f : Failure) : Report :=
  ⟨f.cause.kind, f.cause.code, f.cause.message, some f.cause.fragment, f.equation⟩

namespace Report

/-- The heading of a code. One that ends in a colon and a blank calls for the fragment. -/
def heading? : String → Option String
  | "2004" => some "Unknown function: "
  | "3001" => some "Invalid token near: "
  | "3002" => some "No value given for variable: "
  | "3003" => some "Division by Zero"
  | "3007" => some "Complex exponent not supported."
  | "3009" => some "Missing ')'. "
  | "3011" => some "Unexpected Token: "
  | "3012" => some "Invalid primary: "
  | "3013" => some "Unconsumed tokens: "
  | "3014" => some "Expression nested too deeply."
  | "3100" => some "Empty complex number."
  | "3101" => some "Invalid complex number: "
  | "3102" => some "Invalid value for variable: "
  | "3217" => some "Missing ')' after function"
  | "3218" => some "Wrong number of arguments for function: "
  | "5001" => some "Invalid setting: "
  | "9999" => some "Unexpected Error: "
  | _ => none

/-- The category that the first digit of a code stands for. -/
def category? (code : String) : Option String :=
  match code.toList with
  | '2' :: _ => some "Function Error"
  | '3' :: _ => some "Calculator Error"
  | '5' :: _ => some "Configuration Error"
  | '9' :: _ => some "Runtime Error"
  | _ => none

/-- The one line that a user is shown. -/
def describe (r : Report) : String :=
  let heading := (heading? r.code).getD "Unknown error"
  let tail := if heading.toList.reverse.take 2 = [' ', ':'] then r.fragment.getD "" else ""
  "Error " ++ r.code ++ ": " ++ heading ++ tail

end Report

end ComplexExpr
