import ComplexExpr.Value.Basic

/-!
# Builtin functions

The functions that expressions may call, each of one argument. They are found
by name in any mixture of ASCII capitals and small letters; no other letter
has one of theirs as its small form.
-/

namespace ComplexExpr

inductive Builtin
  | conjugate
  | squareRoot
deriving DecidableEq, Repr

namespace Builtin

/-- The function of a name in small letters. -/
def ofName? : String → Option Builtin
  | "conj" | "conjugate" => some .conjugate
  | "sqrt" | "raiz" => some .squareRoot
  | _ => none

/-- The function of a name as it is written. -/
def find? (name : String) : Option Builtin := ofName? (String.ofList (name.toList.map Char.toLower))

def apply : Builtin → Value → Value
  | conjugate, z => z.conj
  | squareRoot, z => z.sqrt

/-- The function of a name applied to its arguments. A name that is unknown is found out before a
wrong number of arguments. -/
def call (name : String) (args : List Value) : Except Cause Value :=
  match find? name with
  | none => .error (.unknownFunction name)
  | some f => match args with
    | [z] => .ok (f.apply z)
    | _ => .error (.arity name args.length)

end Builtin

end ComplexExpr
