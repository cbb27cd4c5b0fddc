import ComplexExpr.Expr.Evaluate
import ComplexExpr.Random.Source

/-!
# Numeric equivalence

Two expressions are compared on random values of their variables
(`Expr.compare`). A trial in which either has no value is discarded; the first
trial in which the values differ ends the comparison with a counterexample.
This is evidence and no proof: expressions that never have a value together
count as equivalent.
-/

namespace ComplexExpr

/-- A number of trials. A truth value counts as one or zero. -/
inductive TrialCount
  | number (n : Int)
  | truth (b : Bool)
deriving DecidableEq, Repr

def TrialCount.toInt : TrialCount → Int
  | number n => n
  | truth b => if b then 1 else 0

/-- How often, how widely and how closely to compare. -/
structure Trials where
  count : TrialCount := .number 8
  /-- The largest part of a sampled value. -/
  range : Float := 5.0
  /-- Parts that differ by this much are different. -/
  epsilon : Float := 1e-6

/-- The outcome of a comparison. -/
inductive Verdict
  | equivalent (trials : TrialCount) (discarded : Nat)
  | different (bindings : Bindings) (value1 value2 : String) (trials discarded : Nat)

namespace Sample

variable {σ : Type} [Source σ]

/-- A random value: the real part is drawn first. -/
def value (range : Float) (s : σ) : Value × σ :=
  let (re, s) := Source.uniform (-range) range s
  let (im, s) := Source.uniform (-range) range s
  (⟨re, im⟩, s)

/-- A random value for each name, one after the other, as text. -/
def entries (range : Float) : List String → σ → List (String × String) × σ
  | [], s => ([], s)
  | x :: xs, s =>
    let (z, s) := value range s
    let (es, s) := entries range xs s
    ((x, z.toText) :: es, s)

theorem map_fst_entries (range : Float) (xs : List String) (s : σ) :
    (entries range xs s).1.map Prod.fst = xs := by
  induction xs generalizing s with
  | nil => rfl
  | cons x xs ih => simp only [entries, List.map_cons, ih]

/-- A random value for each name of a set, in the set's order. -/
def bindings (names : NameSet) (range : Float) (s : σ) : Bindings × σ :=
  let es := entries range names.names s
  (⟨es.1, by
    rw [map_fst_entries]
    exact names.nodup.imp fun h => beq_false_of_ne h⟩, es.2)

end Sample

namespace Expr

/-- The values of two expressions under the same bindings, if both have one. -/
def values? (e₁ e₂ : Expr) (b : Bindings) : Option (Value × Value) :=
  match e₁.evaluate b with
  | .error _ => none
  | .ok z => match e₂.evaluate b with
    | .error _ => none
    | .ok w => some (z, w)

variable {σ : Type} [Source σ]

/-- The trials that are left, after `done` trials of which some have been discarded. -/
def compareFrom (p : Trials) (e₁ e₂ : Expr) (names : NameSet) :
    (left done discarded : Nat) → σ → Verdict
  | 0, _, discarded, _ => .equivalent p.count discarded
  | left + 1, done, discarded, s =>
    let (b, s) := Sample.bindings names p.range s
    match values? e₁ e₂ b with
    | none => compareFrom p e₁ e₂ names left (done + 1) (discarded + 1) s
    | some (z, w) =>
      if z.approxEq w p.epsilon then compareFrom p e₁ e₂ names left (done + 1) discarded s
      else .different b z.toText w.toText (done + 1) discarded

/-- Compares two expressions on random values of the variables of both. -/
def compare (p : Trials) (e₁ e₂ : Expr) (s : σ) : Except Cause Verdict := do
  let names := (← e₁.freeVariables) ∪ (← e₂.freeVariables)
  return compareFrom p e₁ e₂ names p.count.toInt.toNat 0 0 s

end Expr

end ComplexExpr
