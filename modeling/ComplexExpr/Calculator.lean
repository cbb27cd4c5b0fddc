import ComplexExpr.Expr.Equivalence
import ComplexExpr.Expr.Parser
import ComplexExpr.Given
import ComplexExpr.Settings.Basic

/-!
# The calculator

What is done with expressions given as text: the prefix form (`calculate`), the
value under bindings (`run`) and the comparison of two (`compare`). A failure
carries the text that it is about.
-/

namespace ComplexExpr.Calculator

/-- The expression that a text is. -/
def parse (traced : Bool) (text : String) : Except Cause Expr :=
  Expr.ofTextWithin Expr.frameLimit traced text

/-- A failure that is about a text. -/
def about {α : Type} (text : String) (r : Except Cause α) : Except Failure α :=
  r.mapError fun c => ⟨c, some text⟩

/-- The prefix form of an expression. -/
def calculate (traced : Bool) (text : String) : Except Failure String :=
  about text do (← parse traced text).render

/-- The first bound text that is no literal, with the name bound to it. -/
def firstRejected : List (String × String) → Except Cause Unit
  | [] => .ok ()
  | (name, text) :: rest =>
    match Value.ofText text with
    | .error fault => .error (.rejectedBinding name fault)
    | .ok _ => firstRejected rest

/-- The value of an expression. All bindings are checked before it is evaluated, also those of
names that do not occur in it. -/
def run (traced : Bool) (text : String) (b : Bindings) : Except Failure Value :=
  about text do
    let e ← parse traced text
    firstRejected b.entries
    e.evaluate b

/-- Why a comparison has no verdict. -/
inductive Fault
  | failure (f : Failure)
  | defect (d : Defect)

/-- A failure that is about no text in particular. -/
def plain {α : Type} (r : Except Cause α) : Except Fault α :=
  r.mapError fun c => .failure ⟨c, none⟩

/-- A comparison without a usable epsilon: a defect as soon as a trial has two values to compare. -/
def withoutEpsilon (d : Defect) : Verdict → Except Fault Verdict
  | .different .. => .error (.defect d)
  | v => .ok v

variable {σ : Type} [Source σ]

/-- The number of trials that is asked for, or else that of the settings. -/
def trialCount (s : Settings) : Given Int → Except Defect TrialCount
  | .value n => .ok (.number n)
  | .blank => .error .wrongType
  | .omitted => match s.value "equivalence_trials" with
    | .int n => .ok (.number n)
    | .bool b => .ok (.truth b)
    | _ => .error .wrongType

/-- Compares two expressions with parameters from the settings. A parameter that is of no use is
a defect only when it is needed. -/
def compareWith (s : Settings) (trials : Given Int) (e₁ e₂ : Expr) (source : σ) :
    Except Fault Verdict := do
  let names := (← plain e₁.freeVariables) ∪ (← plain e₂.freeVariables)
  let count ← (trialCount s trials).mapError .defect
  let range ← match Settings.toRange (s.value "sample_range") with
    | .ok r => pure r
    | .error d => if 0 < count.toInt ∧ names.names ≠ [] then throw (.defect d) else pure 0.0
  match Settings.toBound (s.value "equivalence_epsilon") with
  | .ok epsilon => plain (Expr.compare ⟨count, range, epsilon⟩ e₁ e₂ source)
  | .error d => plain (Expr.compare ⟨count, range, 0.0⟩ e₁ e₂ source) >>= withoutEpsilon d

/-- Compares two expressions. -/
def compare (traced : Bool) (settings : Except Defect Settings) (text₁ text₂ : String)
    (trials : Given Int) (source : σ) : Except Fault Verdict := do
  let s ← settings.mapError .defect
  let e₁ ← (about text₁ (parse traced text₁)).mapError .failure
  let e₂ ← (about text₂ (parse traced text₂)).mapError .failure
  compareWith s trials e₁ e₂ source

end ComplexExpr.Calculator
