import ComplexExpr.Command.Interaction
import ComplexExpr.Expr.Evaluate
import ComplexExpr.Text.Blank

/-!
# Variables on the command line

The bindings that are given as `NAME=VALUE` (`Bindings.ofPairs`), and those
that are asked for because they are not given (`Bindings.askMissing`).
-/

namespace ComplexExpr.Bindings

/-- The name and the value of a pair; the first equals sign divides them. -/
def splitPair (pair : String) : Except Cause (String × String) :=
  let cs := pair.toList
  let name := Text.trim (cs.takeWhile (· != '='))
  match cs.dropWhile (· != '=') with
  | '=' :: value =>
    if name = [] then .error (.malformedBinding pair)
    else .ok (String.ofList name, String.ofList (Text.trim value))
  | _ => .error (.malformedBinding pair)

/-- The bindings of a list of pairs: of several for one name the last counts. -/
def ofPairs (pairs : List String) : Except Cause Bindings := do
  return Table.ofList (← pairs.mapM splitPair)

/-- The question for the value of a variable. -/
def question (name : String) : String :=
  "Value for variable '" ++ name ++ "' (e.g. 3+4i, -2, 5i): "

/-- The bindings with those added that are asked for: one for each name that has none. -/
def askMissing : List String → Bindings → Interaction (Except Cause Bindings)
  | [], b => .done (.ok b)
  | name :: names, b =>
    if b.contains name then askMissing names b
    else .ask (question name) fun answer =>
      match answer with
      | none => .done (.error (.cancelled name))
      | some text => askMissing names (b.set name (Text.strip text))

end ComplexExpr.Bindings
