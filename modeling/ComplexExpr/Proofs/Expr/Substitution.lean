import ComplexExpr.Proofs.Expr.Divisors
import ComplexExpr.Proofs.Table

/-!
# Values written in for variables

Whether a variable is bound to a text, or the text's value is written in for it, makes
no difference to what comes of an expression: the same value, or the same failure
(`evaluateWithin_substitute`). Only a division by an expression that is zero shows that
expression as it is written then. An expression has the same levels and takes the same
frames with the value in it (`height_substitute`, `frames_substitute`), and the other
variables are left (`vars_substitute`). Main statement:

* `evaluate_substitute`: all this for an expression as a whole.
-/

namespace ComplexExpr

/-- The set without a name. -/
def NameSet.erase (s : NameSet) (x : String) : NameSet :=
  ⟨s.names.filter (· != x), s.increasing.filter _⟩

theorem NameSet.mem_erase {s : NameSet} {x y : String} : y ∈ s.erase x ↔ y ∈ s ∧ y ≠ x := by
  show y ∈ s.names.filter (· != x) ↔ y ∈ s.names ∧ y ≠ x
  rw [List.mem_filter, bne_iff_ne]

theorem Bindings.value_set (b : Bindings) (x text y : String) :
    Bindings.value (b.set x text) y =
      if y = x then (Value.ofText text).mapError .literal else b.value y := by
  unfold Bindings.value
  rw [Table.get?_set]
  by_cases h : y = x
  · rw [if_pos (beq_iff_eq.2 h), if_pos h]
  · rw [if_neg fun hxy => h (beq_iff_eq.1 hxy), if_neg h]

namespace Expr

mutual

/-- An expression with a value written in for a variable. -/
def substitute (x : String) (z : Value) : Expr → Expr
  | .literal w => .literal w
  | .var y => if y = x then .literal z else .var y
  | .negate e => .negate (e.substitute x z)
  | .binary op l r => .binary op (l.substitute x z) (r.substitute x z)
  | .call f es => .call f (substituteAll x z es)

def substituteAll (x : String) (z : Value) : List Expr → List Expr
  | [] => []
  | e :: es => e.substitute x z :: substituteAll x z es

end

variable {x text : String} {z : Value} {root : Expr} {b b' : Bindings} {room : Nat}

/-! ## What stays, and the variables -/

/-- A measure that is the largest of the elements' stays if theirs stay. -/
theorem measure_substituteAll (measure : Expr → ℕ) (measureAll : List Expr → ℕ)
    (hcons : ∀ e es, measureAll (e :: es) = max (measure e) (measureAll es)) {es : List Expr}
    (h : ∀ e ∈ es, measure (e.substitute x z) = measure e) :
    measureAll (substituteAll x z es) = measureAll es := by
  induction es with
  | nil => rw [substituteAll]
  | cons e es ih =>
    obtain ⟨he, hes⟩ := List.forall_mem_cons.1 h
    rw [substituteAll, hcons, hcons, he, ih hes]

theorem height_substitute (e : Expr) : (e.substitute x z).height = e.height := by
  induction e using induct with
  | literal w => rfl
  | var y => rw [substitute]; split <;> rfl
  | negate e ih => rw [substitute, height, height, ih]
  | binary op l r ihl ihr => rw [substitute, height, height, ihl, ihr]
  | call f es ih =>
    have hargs := measure_substituteAll height heightAll (fun e es => by rw [heightAll]) ih
    rw [substitute, height, height, hargs]

theorem frames_substitute (e : Expr) : (e.substitute x z).frames = e.frames := by
  induction e using induct with
  | literal w => rfl
  | var y => rw [substitute]; split <;> rfl
  | negate e ih => rw [substitute, frames, frames, ih]
  | binary op l r ihl ihr => rw [substitute, frames, frames, ihl, ihr]
  | call f es ih =>
    have hargs := measure_substituteAll frames framesAll (fun e es => by rw [framesAll]) ih
    rw [substitute, frames, frames, hargs]

theorem vars_substitute (e : Expr) : (e.substitute x z).vars = e.vars.erase x := by
  refine NameSet.ext fun y => ?_
  rw [NameSet.mem_erase]
  induction e using induct with
  | literal w => simp [substitute, vars]
  | var w =>
    rw [substitute]
    split
    next h => simp [vars, h]
    next h => simp only [vars, NameSet.mem_singleton]; grind
  | negate e ih => rw [substitute, vars, vars, ih]
  | binary op l r ihl ihr =>
    rw [substitute, vars, vars, NameSet.mem_union, NameSet.mem_union, ihl, ihr, or_and_right]
  | call f es ih =>
    have hargs : y ∈ varsAll (substituteAll x z es) ↔ y ∈ varsAll es ∧ y ≠ x := by
      induction es with
      | nil => simp [substituteAll, varsAll]
      | cons e es ihes =>
        obtain ⟨he, hes⟩ := List.forall_mem_cons.1 ih
        rw [substituteAll, varsAll, varsAll, NameSet.mem_union, NameSet.mem_union, he, ihes hes,
          or_and_right]
    rw [substitute, vars, vars, hargs]

theorem freeVariables_substitute (e : Expr) :
    (e.substitute x z).freeVariablesWithin room =
      (e.freeVariablesWithin room).map (·.erase x) := by
  unfold freeVariablesWithin
  rw [height_substitute, vars_substitute]
  split <;> rfl

/-! ## Evaluation -/

/-- The failures with a variable bound, and with its value written in: they are the same, or a
division of the expression shows its divisor as it is written. -/
inductive Rewritten (root : Expr) (x : String) (z : Value) : Cause → Cause → Prop
  | same (c : Cause) : Rewritten root x z c c
  | divisor {l r : Expr} (h : root.Contains (.binary .div l r)) :
    Rewritten root x z (.zeroDivisor r.prefixForm) (.zeroDivisor (r.substitute x z).prefixForm)

theorem Rewritten.zeroDivision {l r : Expr} (h : root.Contains (.binary .div l r)) (room : Nat) :
    Rewritten root x z (r.zeroDivision room) ((r.substitute x z).zeroDivision room) := by
  unfold Expr.zeroDivision
  rw [frames_substitute]
  split
  · exact .divisor h
  · exact .same _

theorem evaluateAll_substitute {R : Cause → Cause → Prop} {es : List Expr}
    (h : ∀ e ∈ es,
      SameUpTo R (e.evaluateWithin b room) ((e.substitute x z).evaluateWithin b' room)) :
    SameUpTo R (evaluateAll b room es) (evaluateAll b' room (substituteAll x z es)) := by
  induction es with
  | nil =>
    rw [substituteAll, evaluateAll, evaluateAll]
    exact .ok []
  | cons e es ih =>
    obtain ⟨he, hes⟩ := List.forall_mem_cons.1 h
    rw [substituteAll, evaluateAll_cons, evaluateAll_cons]
    exact he.bind fun w => (ih hes).bind fun ws => .ok (w :: ws)

/-- Within the same frames, the same comes of every part of an expression. -/
theorem evaluateWithin_substitute (hz : Value.ofText text = .ok z) {e : Expr}
    (he : root.Contains e) (room : Nat) :
    SameUpTo (Rewritten root x z) (e.evaluateWithin (b.set x text) room)
      ((e.substitute x z).evaluateWithin b room) := by
  induction e, room using induct_within with
  | zero e =>
    rw [evaluateWithin_zero, evaluateWithin_zero]
    exact .error (.same _)
  | literal w room =>
    rw [substitute, evaluateWithin_literal, evaluateWithin_literal]
    exact .ok w
  | var y room =>
    rw [substitute, evaluateWithin, Bindings.value_set]
    split
    · rw [hz, evaluateWithin_literal]
      exact .ok z
    · rw [evaluateWithin]
      exact .refl .same _
  | negate e room ih =>
    rw [substitute, evaluateWithin_negate, evaluateWithin_negate]
    exact (ih he.operand).map Value.neg
  | div l r room ihl ihr =>
    rw [substitute, evaluateWithin_div, evaluateWithin_div]
    refine (ihr he.right).bind fun w => ?_
    -- the divisor is checked before the dividend is looked at
    split
    · exact .error (.zeroDivision he room)
    · exact (ihl he.left).bind fun v => .refl .same _
  | binary op l r room hop ihl ihr =>
    rw [substitute, evaluateWithin_binary hop, evaluateWithin_binary hop]
    exact (ihl he.left).bind fun v => (ihr he.right).bind fun w => .refl .same _
  | call_one f es =>
    rw [substitute, evaluateWithin_call_one, evaluateWithin_call_one]
    exact .error (.same _)
  | call f es room ih =>
    rw [substitute, evaluateWithin_call, evaluateWithin_call]
    have hargs := evaluateAll_substitute fun e hmem => ih e hmem (he.argument hmem)
    exact hargs.bind fun zs => .refl .same _

/-- If a text denotes a value, an expression in which a variable is bound to the text has the same
value as the expression with the value written in for the variable, or it fails with the same kind,
code and message, and with the same fragment, or with that of a division by zero, which is the
divisor as it is written. Its variables with the value written in are the others, and they can be
collected iff all of them can. The limit of the program is `frameLimit`. -/
theorem evaluate_substitute (hz : Value.ofText text = .ok z) (x : String) (e : Expr)
    (b : Bindings) (room : ℕ) :
    (∀ v, e.evaluateWithin (b.set x text) room = .ok v ↔
      (e.substitute x z).evaluateWithin b room = .ok v) ∧
    (∀ c, e.evaluateWithin (b.set x text) room = .error c →
      ∃ c', (e.substitute x z).evaluateWithin b room = .error c' ∧
        c'.kind = c.kind ∧ c'.code = c.code ∧ c'.message = c.message ∧
        (c'.fragment = c.fragment ∨ c.kind = .divisionByZero ∧
          ∃ l r, e.Contains (.binary .div l r) ∧
            c.fragment = r.prefixForm ∧ c'.fragment = (r.substitute x z).prefixForm)) ∧
    (e.substitute x z).freeVariablesWithin room =
      (e.freeVariablesWithin room).map (·.erase x) := by
  have hsame : SameUpTo (Rewritten e x z) (e.evaluateWithin (b.set x text) room)
      ((e.substitute x z).evaluateWithin b room) :=
    evaluateWithin_substitute hz .self room
  refine ⟨hsame.ok_iff, fun c hc => ?_, freeVariables_substitute e⟩
  obtain ⟨c', hc', hrewritten⟩ := hsame.exists_error hc
  refine ⟨c', hc', ?_⟩
  cases hrewritten with
  | same => exact ⟨rfl, rfl, rfl, .inl rfl⟩
  | @divisor l r h => exact ⟨rfl, rfl, rfl, .inr ⟨rfl, l, r, h, rfl, rfl⟩⟩

/-- With zero for the second variable, bound or written in, there is no quotient. -/
theorem quotient_substitute :
    Value.ofText "0" = .ok ⟨0.0, 0.0⟩ ∧
      quotient.evaluate (Table.set (.ofList [("x", "i")]) "y" "0") =
        .error (.zeroDivisor "(conj y)") ∧
      (∃ c, (quotient.substitute "y" ⟨0.0, 0.0⟩).evaluate (.ofList [("x", "i")]) = .error c ∧
        c.kind = .divisionByZero ∧ c.message = "Division by zero during evaluation.") ∧
      (quotient.substitute "y" ⟨0.0, 0.0⟩).freeVariables = .ok (.ofList ["x"]) := by
  have hz : Value.ofText "0" = .ok ⟨0.0, 0.0⟩ := rfl
  have hc : quotient.evaluate (Table.set (.ofList [("x", "i")]) "y" "0") =
      .error (.zeroDivisor "(conj y)") := rfl
  obtain ⟨-, herror, hvars⟩ :=
    evaluate_substitute hz "y" quotient (.ofList [("x", "i")]) frameLimit
  obtain ⟨c, hc', hkind, -, hmessage, -⟩ := herror _ hc
  exact ⟨hz, hc, ⟨c, hc', hkind, hmessage⟩, hvars.trans rfl⟩

end Expr

end ComplexExpr
