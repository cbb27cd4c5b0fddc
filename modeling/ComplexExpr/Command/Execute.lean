import ComplexExpr.Calculator
import ComplexExpr.Command.Basic
import ComplexExpr.Command.Variables
import ComplexExpr.Random.Twister
import ComplexExpr.Settings.Place

/-!
# Carrying out commands

What a command prints, which questions it asks, and what becomes of the
settings (`Invocation.execute`). A failure is reported on the output and gives
the status one.
-/

namespace ComplexExpr

open Calculator (Fault plain)

/-- What a command has done: the lines printed, how it ended, and where the settings are now. -/
structure Effect where
  lines : List String
  result : Except Fault Unit
  place : Settings.Place

namespace Effect

/-- The lines of a command that leaves the settings alone. -/
def printed (place : Settings.Place) (r : Except Fault (List String)) : Effect :=
  match r with
  | .ok lines => ⟨lines, .ok (), place⟩
  | .error f => ⟨[], .error f, place⟩

/-- A line printed before all else. -/
def after (line : String) (e : Effect) : Effect := { e with lines := line :: e.lines }

end Effect

/-- The line that shows a setting. -/
def settingLine (key value : String) : String := key ++ " = " ++ value

/-- A number of trials as it was given. -/
def TrialCount.display : TrialCount → String
  | number n => toString n
  | truth b => if b then "True" else "False"

/-- The lines that show the outcome of a comparison. -/
def Verdict.lines : Verdict → List String
  | equivalent trials discarded =>
    "Equivalent (tested numerically)" ::
      (if discarded = 0 then []
      else
        ["Note: " ++ toString discarded ++ " of " ++ trials.display ++
          " trials could not be evaluated"])
  | different bindings value₁ value₂ _ _ =>
    ["Not equivalent, counterexample: " ++
        ", ".intercalate (bindings.entries.map fun (name, value) => name ++ "=" ++ value),
      "expr1 = " ++ value₁ ++ ", expr2 = " ++ value₂]

namespace Command

variable {σ : Type} [Source σ]

def executeParse (traced : Bool) (place : Settings.Place) (text : String) : Effect :=
  .printed place do return [← (Calculator.calculate traced text).mapError .failure]

/-- The variables of an expression. -/
def variablesOf (traced : Bool) (text : String) : Except Fault NameSet := do
  let e ← (Calculator.about text (Calculator.parse traced text)).mapError .failure
  plain e.freeVariables

/-- The bindings of a list of pairs. A pair that is missing is a defect, unless one before it is
malformed. -/
def givenBindings (pairs : List (Option String)) : Except Fault Bindings := do
  let b ← plain (Bindings.ofPairs ((pairs.takeWhile Option.isSome).filterMap id))
  if pairs.all Option.isSome then return b else throw (.defect .noText)

/-- The bindings that an expression is evaluated under: those given, and if `asking` those asked
for. -/
def bindingsFor (traced : Bool) (text : String) (vars : List (Option String)) (asking : Bool) :
    Interaction (Except Fault Bindings) :=
  match givenBindings vars with
  | .error f => .done (.error f)
  | .ok b =>
    if asking then
      match variablesOf traced text with
      | .error f => .done (.error f)
      | .ok names => return plain (← Bindings.askMissing names.names b)
    else .done (.ok b)

def executeRun (traced : Bool) (place : Settings.Place) (text : String)
    (vars : List (Option String)) (asking : Bool) : Interaction Effect := do
  let b ← bindingsFor traced text vars asking
  return .printed place do
    let z ← (Calculator.run traced text (← b)).mapError .failure
    return ["= " ++ z.toText]

/-- The failure of an expression that is missing: an empty list stands in its place. -/
def missingText : Failure := ⟨.notText "list", some "[]"⟩

def executeCompare (traced : Bool) (place : Settings.Place) (text₁ : String)
    (text₂ : Option String) (trials : Given Int) (source : σ) : Effect :=
  match Calculator.calculate traced text₁, text₂ with
  | .error f, _ => .printed place (.error (.failure f))
  | .ok form₁, none =>
    .after ("(expr1) " ++ form₁) (.printed place (.error (.failure missingText)))
  | .ok form₁, some text₂ => .after ("(expr1) " ++ form₁) <|
    match Calculator.calculate traced text₂ with
    | .error f => .printed place (.error (.failure f))
    | .ok form₂ => .after ("(expr2) " ++ form₂) <|
      .printed place do
        return (← Calculator.compare traced place.load text₁ text₂ trials source).lines

/-- What is shown for a key, if it has a value; `all` stands for all settings together. -/
def shownSetting (s : Settings) (key : String) : Option String :=
  if key = "all" then some s.display
  else match s.value key with
    | .null => none
    | v => some v.display

def executeSettings (place : Settings.Place) (key value : Option String) : Effect :=
  match place.load with
  | .error d => .printed place (.error (.defect d))
  | .ok s =>
    match key, value with
    | none, _ =>
      .printed place (.ok (s.entries.map fun (k, v) => settingLine k.toJson.display v.display))
    | some key, none =>
      match shownSetting s key with
      | none => .printed place (plain (.error (.unknownSetting key)))
      | some v => .printed place (.ok [settingLine key v])
    | some key, some raw =>
      match place.change s key raw with
      | .error c => .printed place (plain (.error c))
      | .ok (s, place) => .printed place (.ok [settingLine key (s.value key).display])

/-- What a command does. A comparison without a seed draws from `source`; one with a seed whose
value is missing cannot draw at all. -/
def execute (traced : Bool) (place : Settings.Place) (source : Twister) :
    Command → Interaction Effect
  | parse text => .done (executeParse traced place text)
  | run text vars asking => executeRun traced place text vars asking
  | compare text₁ text₂ trials seed => .done <| match seed with
    | .omitted => executeCompare traced place text₁ text₂ trials source
    | .value n => executeCompare traced place text₁ text₂ trials (Twister.ofSeed n)
    | .blank => .printed place (.error (.defect .wrongType))
  | settings key value => .done (executeSettings place key value)

end Command

/-- How a command ends. -/
inductive Ending
  | status (code : Nat)
  | defect (d : Defect)

/-- All that is seen of a command. -/
structure Outcome where
  ending : Ending
  lines : List String
  place : Settings.Place

/-- The lines that report a failure. -/
def Failure.lines (f : Failure) : List String :=
  [f.report.describe, "Details: " ++ f.cause.message] ++
    (f.equation.map fun text => "Equation: " ++ text).toList

/-- A failure is reported after what has been printed. -/
def Effect.outcome (e : Effect) : Outcome :=
  match e.result with
  | .ok () => ⟨.status 0, e.lines, e.place⟩
  | .error (.failure f) => ⟨.status 1, e.lines ++ f.lines, e.place⟩
  | .error (.defect d) => ⟨.defect d, e.lines, e.place⟩

namespace Invocation

/-- Expressions are traced if the arguments or the settings say so. -/
def isTraced (i : Invocation) (place : Settings.Place) : Except Defect Bool :=
  if i.debug then .ok true else do return Settings.isTrue ((← place.load).value "debug")

/-- Carries out a command. -/
def execute (i : Invocation) (place : Settings.Place) (source : Twister) : Interaction Outcome :=
  match i.isTraced place with
  | .error d => .done ⟨.defect d, [], place⟩
  | .ok traced => return (← i.command.execute traced place source).outcome

end Invocation

end ComplexExpr
