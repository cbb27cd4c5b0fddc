import ComplexExpr.Command.Arguments
import ComplexExpr.Given

/-!
# Commands

The four commands, and how a row of arguments is read as one of them
(`Invocation.read`): options for all commands come first, then the name of the
command, then what belongs to it.
-/

namespace ComplexExpr

inductive Command
  /-- Shows the prefix form of an expression. -/
  | parse (text : String)
  /-- Shows the value of an expression, and may ask for the variables that are not given. A pair
  of a variable and its value may be missing. -/
  | run (text : String) (vars : List (Option String)) (asking : Bool)
  /-- Compares two expressions. The second is missing where a second `--` stands for it. -/
  | compare (text₁ : String) (text₂ : Option String) (trials seed : Given Int)
  /-- Shows all settings, shows one, or gives one a new value. -/
  | settings (key value : Option String)

namespace Command

/-- The options that every command has. -/
def helpOptions : List (String × Role) := [("-h", .help), ("--help", .help)]

/-- The form of the command of a name. -/
def form? : String → Option Form
  | "parse" => some ⟨helpOptions, [.required]⟩
  | "run" => some ⟨helpOptions ++ [("--var", .text), ("--no-prompt", .flag)], [.required]⟩
  | "compare" =>
    some ⟨helpOptions ++ [("--trials", .integer), ("--seed", .integer)], [.required, .required]⟩
  | "settings" => some ⟨helpOptions, [.optional, .optional]⟩
  | _ => none

/-- The last whole number given for an option. -/
def lastInt (r : Reading) (spelling : String) : Given Int :=
  match (r.values spelling).getLast? with
  | none => .omitted
  | some text => match text.bind Typed.readInt? with
    | none => .blank
    | some n => .value n

/-- The command of a name with what has been read for it. -/
def ofReading? (name : String) (r : Reading) : Option Command :=
  match name, r.operands with
  | "parse", [some text] => some (.parse text)
  | "run", [some text] => some (.run text (r.values "--var") (r.values "--no-prompt").isEmpty)
  | "compare", [some text₁, text₂] =>
    some (.compare text₁ text₂ (lastInt r "--trials") (lastInt r "--seed"))
  | "settings", [key, value] => some (.settings key value)
  | _, _ => none

end Command

/-- A command, and whether it is to be traced. -/
structure Invocation where
  debug : Bool
  command : Command

namespace Invocation

open Command

/-- The options before the name of the command. -/
def globalForm : Form := ⟨helpOptions ++ [("--debug", .flag)], []⟩

/-- The command of a name with its arguments, after the options before it. -/
def ofCommand (global : Reading) (name : String) (args : List String) : Except Halt Invocation :=
  match form? name with
  | none => .error .misuse
  | some form => do
    let r ← form.read args
    match global.clean && r.clean, ofReading? name r with
    | true, some command => return ⟨!(global.values "--debug").isEmpty, command⟩
    | _, _ => throw .misuse

/-- The rest of the arguments, up to the name of the command and from there. -/
def readFrom (global : Reading) : List Marked → Except Halt Invocation
  | (.option none, _) :: ts => readFrom { global with clean := false } ts
  | (.option (some found), _) :: ts => do
    let (global, _) ← global.takeOption found none
    readFrom global ts
  | (.operand, name) :: ts => ofCommand global name (ts.map Prod.snd)
  | _ => .error .misuse

/-- The command that a row of arguments calls for. -/
def read (args : List String) : Except Halt Invocation := do
  readFrom { slots := [] } (← globalForm.markAll args)

end Invocation

end ComplexExpr
