import ComplexExpr.Command.Execute
import ComplexExpr.RequiredFiles

/-!
# The command line

Checks that the required files are there, reads the arguments and the settings
file, carries out the command, asking on the terminal, and writes what it prints
and what it makes of the settings.
-/

namespace ComplexExpr

/-- The file that holds the settings. -/
def settingsFile : String := "config.json"

def usage : String :=
  "usage: complex-calc [--debug] parse EXPR | run EXPR [--var NAME=VALUE]... [--no-prompt] | " ++
    "compare EXPR1 EXPR2 [--trials N] [--seed N] | settings [KEY [VALUE]]"

/-- Asks the questions of an interaction on the terminal. -/
def converse {α : Type} (output input : IO.FS.Stream) : Interaction α → IO α
  | .done a => pure a
  | .ask question next => do
    output.putStr question
    output.flush
    let line ← input.getLine
    converse output input
      (next (if line.isEmpty then none else some (String.ofList (line.toList.filter (· != '\n')))))

/-- A seed that is not the same each time. -/
def freshSeed : IO Int := do
  return (← IO.getRandomBytes 16).foldl (fun n b => n * 256 + b.toNat) 0

/-- The text of the settings file, if it can be read. -/
def readSettings : IO (Option String) := do
  try
    return some (← IO.FS.readFile settingsFile)
  catch _ =>
    return none

def canBeOpened (path : String) : IO Bool := do
  try
    discard (IO.FS.Handle.mk path .read)
    return true
  catch _ =>
    return false

/-- The required files that are there. -/
def presentFiles : IO (List String) :=
  (RequiredFiles.all.map fun (directory, name) => directory ++ name).filterM canBeOpened

/-- Carries out a command and gives its status. -/
def perform (i : Invocation) : IO UInt32 := do
  let output ← IO.getStdout
  let text ← readSettings
  let source := Twister.ofSeed (← freshSeed)
  let outcome ← converse output (← IO.getStdin) (i.execute (.file text) source)
  for line in outcome.lines do
    output.putStrLn line
  if let .file (some saved) := outcome.place then
    if text ≠ some saved then
      IO.FS.writeFile settingsFile saved
  match outcome.ending with
  | .status code => return code.toUInt32
  | .defect _ =>
    IO.eprintln ("complex-calc: the values in " ++ settingsFile ++ " cannot be used")
    return 1

end ComplexExpr

def main (args : List String) : IO UInt32 := do
  match ComplexExpr.RequiredFiles.lines (← ComplexExpr.presentFiles) with
  | [] => match ComplexExpr.Invocation.read args with
    | .ok i => ComplexExpr.perform i
    | .error .help =>
      IO.println ComplexExpr.usage
      return 0
    | .error .misuse =>
      IO.eprintln ComplexExpr.usage
      return 2
  | lines =>
    for line in lines do
      IO.println line
    return 1
