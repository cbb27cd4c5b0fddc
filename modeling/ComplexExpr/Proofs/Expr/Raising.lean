import ComplexExpr.Proofs.Expr.Dependence
import ComplexExpr.Proofs.Value.Raising

/-!
# Evaluation raises nothing but failures

Evaluation over the operations on doubles that may raise (`Expr.raisingEvaluate`) takes the same
steps as evaluation does, and raises whatever one of them raises. None does: every expression has,
under every bindings, the value or the failure that evaluation gives, and nothing else is raised on
the way (`Expr.raises_failures_only`).
-/

namespace ComplexExpr

def BinaryOp.raisingApply : BinaryOp → Value → Value → Except Raised Value
  | add, z, w => .ok (z.add w)
  | sub, z, w => .ok (z.sub w)
  | mul, z, w => .ok (z.mul w)
  | div, z, w => z.raisingDiv w
  | pow, z, w =>
    if w.im == 0.0 then z.raisingPow w.re else .error (.failure (.complexExponent w.toText))

namespace Builtin

def raisingApply : Builtin → Value → Except Raised Value
  | conjugate, z => .ok z.conj
  | squareRoot, z => z.raisingSqrt

def raisingCall (name : String) (args : List Value) : Except Raised Value :=
  match find? name with
  | none => .error (.failure (.unknownFunction name))
  | some f => match args with
    | [z] => f.raisingApply z
    | _ => .error (.failure (.arity name args.length))

end Builtin

namespace Expr

mutual

/-- The value of an expression, found within `room` frames, or what is raised on the way. -/
def raisingWithin (b : Bindings) : Nat → Expr → Except Raised Value
  | 0, _ => .error (.failure (.tooDeep .evaluate))
  | _ + 1, .literal z => .ok z
  | _ + 1, .var x => (b.value x).mapError .failure
  | room + 1, .negate e => return (← e.raisingWithin b room).neg
  | room + 1, .binary .div l r => do
    let w ← r.raisingWithin b room
    if w.isZero then throw (.failure (r.zeroDivision room))
    let z ← l.raisingWithin b room
    z.raisingDiv w
  | room + 1, .binary op l r => do
    let z ← l.raisingWithin b room
    let w ← r.raisingWithin b room
    op.raisingApply z w
  | 1, .call .. => .error (.failure (.tooDeep .evaluate))
  | room + 2, .call f es => do Builtin.raisingCall f (← raisingAll b room es)

def raisingAll (b : Bindings) : Nat → List Expr → Except Raised (List Value)
  | _, [] => .ok []
  | room, e :: es => return (← e.raisingWithin b room) :: (← raisingAll b room es)

end

/-- The value of an expression, or what is raised on the way. -/
def raisingEvaluate (e : Expr) (b : Bindings) : Except Raised Value := e.raisingWithin b frameLimit

end Expr

/-! ## Operations -/

theorem mapError_bind {ε ε' α β : Type} (x : Except ε α) (f : α → Except ε β) (g : ε → ε') :
    (x >>= f).mapError g = x.mapError g >>= fun a => (f a).mapError g := by
  cases x <;> rfl

theorem BinaryOp.raisingApply_eq (op : BinaryOp) (z w : Value) :
    op.raisingApply z w = (op.apply z w).mapError .failure := by
  cases op with
  | add | sub | mul => rfl
  | div => exact z.raisingDiv_eq w
  | pow =>
    show (if w.im == 0.0 then z.raisingPow w.re else _) =
      (if w.im == 0.0 then Except.ok (z.pow w.re) else _).mapError .failure
    by_cases hreal : (w.im == 0.0) = true
    · rw [if_pos hreal, if_pos hreal]
      exact z.raisingPow_eq w.re
    · rw [if_neg hreal, if_neg hreal]
      rfl

theorem Builtin.raisingCall_eq (name : String) (zs : List Value) :
    raisingCall name zs = (call name zs).mapError .failure := by
  unfold raisingCall call
  cases find? name with
  | none => rfl
  | some f =>
    rcases zs with _ | ⟨z, _ | ⟨w, zs⟩⟩
    · rfl
    · cases f with
      | conjugate => rfl
      | squareRoot => exact z.raisingSqrt_eq
    · rfl

namespace Expr

variable {b : Bindings} {room : Nat}

/-! ## Expressions -/

theorem raisingAll_eq {es : List Expr}
    (h : ∀ e ∈ es, e.raisingWithin b room = (e.evaluateWithin b room).mapError .failure) :
    raisingAll b room es = (evaluateAll b room es).mapError .failure := by
  induction es with
  | nil =>
    rw [raisingAll, evaluateAll]
    rfl
  | cons e es ih =>
    obtain ⟨he, hes⟩ := List.forall_mem_cons.1 h
    rw [raisingAll, evaluateAll_cons, he, ih hes, mapError_bind]
    congr 1
    funext z
    rw [mapError_bind]
    rfl

/-- Within the same frames, evaluation comes out the same: what is raised is a failure. -/
theorem raisingWithin_eq (e : Expr) (b : Bindings) (room : Nat) :
    e.raisingWithin b room = (e.evaluateWithin b room).mapError .failure := by
  induction e, room using induct_within with
  | zero e =>
    rw [raisingWithin, evaluateWithin_zero]
    rfl
  | literal z room =>
    rw [raisingWithin, evaluateWithin_literal]
    rfl
  | var x room => rw [raisingWithin, evaluateWithin]
  | negate e room ih =>
    rw [raisingWithin, evaluateWithin_negate, ih]
    cases e.evaluateWithin b room <;> rfl
  | div l r room ihl ihr =>
    rw [raisingWithin, evaluateWithin_div, ihr, ihl, mapError_bind]
    congr 1
    funext w
    by_cases hw : w.isZero = true
    · rw [if_pos hw, if_pos hw]
      rfl
    · rw [if_neg hw, if_neg hw]
      show (l.evaluateWithin b room).mapError .failure >>= (fun z => z.raisingDiv w) =
        (l.evaluateWithin b room >>= fun z => z.div w).mapError .failure
      rw [mapError_bind]
      congr 1
      funext z
      exact z.raisingDiv_eq w
  | binary op l r room hop ihl ihr =>
    rw [raisingWithin, evaluateWithin_binary hop, ihl, ihr, mapError_bind]
    · congr 1
      funext z
      rw [mapError_bind]
      congr 1
      funext w
      exact op.raisingApply_eq z w
    · exact hop
  | call_one f es =>
    rw [raisingWithin, evaluateWithin_call_one]
    rfl
  | call f es room ih =>
    rw [raisingWithin, evaluateWithin_call, raisingAll_eq ih, mapError_bind]
    congr 1
    funext zs
    exact Builtin.raisingCall_eq f zs

/-- Powers and square roots raise nothing, whatever the parts and the exponent are, and the
evaluation of an expression gives a value or raises a failure, the same that `evaluate` gives. -/
theorem raises_failures_only :
    (∀ (z : Value) (n : Float), z.raisingPow n = .ok (z.pow n)) ∧
    (∀ z : Value, z.raisingSqrt = .ok z.sqrt) ∧
    ∀ (e : Expr) (b : Bindings),
      (∃ z, e.raisingEvaluate b = .ok z ∧ e.evaluate b = .ok z) ∨
      ∃ c, e.raisingEvaluate b = .error (.failure c) ∧ e.evaluate b = .error c := by
  refine ⟨Value.raisingPow_eq, Value.raisingSqrt_eq, fun e b => ?_⟩
  have heq : e.raisingEvaluate b = (e.evaluate b).mapError .failure :=
    raisingWithin_eq e b frameLimit
  rw [heq]
  cases e.evaluate b with
  | ok z => exact .inl ⟨z, rfl, rfl⟩
  | error c => exact .inr ⟨c, rfl, rfl⟩

end Expr

end ComplexExpr
