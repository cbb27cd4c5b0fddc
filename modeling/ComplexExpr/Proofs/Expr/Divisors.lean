import ComplexExpr.Proofs.Binary.Vanishing
import ComplexExpr.Proofs.Expr.Dependence
import ComplexExpr.Proofs.Expr.Trials

/-!
# Divisors that vanish

A division fails if its divisor is zero, and also if the squares of the divisor's parts
vanish in doubles: there is a largest magnitude of which they do (`Value.div_eq_error_iff`).
Each division by zero is that of a division in the expression, whose divisor has such a
value (`exists_division`). Main statement:

* `divisor_vanishes`: the divisors that an expression is divided by when it fails with a
  division by zero, and the divisors that values have no quotient by.
-/

namespace ComplexExpr

namespace Value

variable {z w : Value} {c : Cause}

/-- The square of either part is zero in doubles. -/
def Vanishes (w : Value) : Prop :=
  w.re.abs ≤ Binary.vanishingBound ∧ w.im.abs ≤ Binary.vanishingBound

instance : Decidable w.Vanishes := inferInstanceAs (Decidable (_ ∧ _))

/-- There is no quotient exactly by what vanishes. -/
theorem div_eq_error_iff : z.div w = .error c ↔ w.Vanishes ∧ c = .zeroModulus w.toText := by
  rw [Vanishes, ← Binary.beq_zero_add_mul_self_iff]
  unfold div
  dsimp only
  split
  next h => exact ⟨fun hc => ⟨h, (Except.error.inj hc).symm⟩, fun hc => congrArg _ hc.2.symm⟩
  next h => exact ⟨nofun, fun hc => absurd hc.1 h⟩

theorem vanishes_of_isZero (h : w.isZero = true) : w.Vanishes := by
  have hpart {x : Float} (hx : (x == 0.0) = true) : x.abs ≤ Binary.vanishingBound := by
    obtain ⟨s, hs⟩ := Binary.beq_zero_iff.1 hx
    exact ((Binary.HasParts.zero hs).abs.le_iff Binary.hasParts_vanishingBound (by decide)).2
      (.inl (by decide))
  obtain ⟨hre, him⟩ := Bool.and_eq_true_iff.1 h
  exact ⟨hpart hre, hpart him⟩

end Value

theorem Bindings.kind_of_value {b : Bindings} {x : String} {c : Cause} (h : b.value x = .error c) :
    c.kind ∈ bindingFaults := by
  unfold Bindings.value at h
  cases hx : b.get? x with
  | none =>
    rw [hx] at h
    cases h
    exact of_decide_eq_true rfl
  | some text =>
    rw [hx] at h
    obtain ⟨fault, -, rfl⟩ := error_of_mapError h
    cases fault <;> exact of_decide_eq_true rfl

theorem Bindings.kind_ne_of_value {b : Bindings} {x : String} {c : Cause} {k : Kind}
    (h : b.value x = .error c) (hk : k ∉ bindingFaults) : c.kind ≠ k :=
  fun hc => hk (hc ▸ kind_of_value h)

namespace Expr

/-- The second expression is the first or stands in it. -/
inductive Contains (root : Expr) : Expr → Prop
  | self : Contains root root
  | operand {e : Expr} (h : Contains root (.negate e)) : Contains root e
  | left {op : BinaryOp} {l r : Expr} (h : Contains root (.binary op l r)) : Contains root l
  | right {op : BinaryOp} {l r : Expr} (h : Contains root (.binary op l r)) : Contains root r
  | argument {f : String} {es : List Expr} {e : Expr} (h : Contains root (.call f es))
    (he : e ∈ es) : Contains root e

variable {b : Bindings} {room room' : Nat} {c : Cause}

/-! ## Values within more frames -/

theorem evaluateAll_mono {es : List Expr} {zs : List Value}
    (hes : ∀ e ∈ es, ∀ z, e.evaluateWithin b room = .ok z → e.evaluateWithin b room' = .ok z)
    (h : evaluateAll b room es = .ok zs) : evaluateAll b room' es = .ok zs := by
  induction es generalizing zs with
  | nil =>
    rw [evaluateAll] at h ⊢
    exact h
  | cons e es ih =>
    obtain ⟨he, hes⟩ := List.forall_mem_cons.1 hes
    rw [evaluateAll_cons] at h ⊢
    obtain ⟨z, hz, h⟩ := ok_of_bind h
    obtain ⟨zs', hzs, h⟩ := ok_of_bind h
    rw [he z hz, ih hes hzs]
    exact h

theorem exists_succ_of_ok {e : Expr} {z : Value} (h : e.evaluateWithin b room = .ok z) :
    ∃ n, room = n + 1 := by
  cases room with
  | zero => rw [evaluateWithin_zero] at h; cases h
  | succ n => exact ⟨n, rfl⟩

/-- A value that is found within some frames is found within one more. -/
theorem evaluateWithin_succ {e : Expr} {z : Value} (h : e.evaluateWithin b room = .ok z) :
    e.evaluateWithin b (room + 1) = .ok z := by
  induction e using Expr.induct generalizing room z with
  | literal w =>
    obtain ⟨n, rfl⟩ := exists_succ_of_ok h
    rwa [evaluateWithin_literal] at h ⊢
  | var x =>
    obtain ⟨n, rfl⟩ := exists_succ_of_ok h
    rwa [evaluateWithin] at h ⊢
  | negate e ih =>
    obtain ⟨n, rfl⟩ := exists_succ_of_ok h
    rw [evaluateWithin_negate] at h ⊢
    obtain ⟨w, hw, rfl⟩ := ok_of_map h
    rw [ih hw]
    rfl
  | binary op l r ihl ihr =>
    obtain ⟨n, rfl⟩ := exists_succ_of_ok h
    obtain ⟨z, w, hz, hw, hop⟩ := binary_eq_ok_iff.1 h
    exact binary_eq_ok_iff.2 ⟨z, w, ihl hz, ihr hw, hop⟩
  | call f es ih =>
    obtain ⟨n, zs, rfl, hzs, h⟩ := call_eq_ok_iff.1 h
    exact call_eq_ok_iff.2 ⟨n + 1, zs, rfl, evaluateAll_mono (fun e he z => ih e he) hzs, h⟩

/-- A value that is found stands however many frames there are more. -/
theorem evaluateWithin_mono {e : Expr} {z : Value} (hroom : room ≤ room')
    (h : e.evaluateWithin b room = .ok z) : e.evaluateWithin b room' = .ok z := by
  induction hroom with
  | refl => exact h
  | step _ ih => exact evaluateWithin_succ ih

/-! ## Failures of divisions -/

/-- An operation on values that fails with a division by zero is a division. -/
theorem div_of_apply {op : BinaryOp} {z w : Value} (h : op.apply z w = .error c)
    (hc : c.kind = .divisionByZero) : op = .div := by
  obtain ⟨hop, -⟩ | ⟨-, rfl⟩ := BinaryOp.cause_of_apply h
  · exact hop
  · cases hc

theorem cause_of_zeroDivision {e : Expr} (hc : (e.zeroDivision room).kind = .divisionByZero) :
    e.zeroDivision room = .zeroDivisor e.prefixForm := by
  unfold zeroDivision at hc ⊢
  split at hc
  next h => exact if_pos h
  next => cases hc

theorem exists_succ_of_division {e : Expr} (h : e.evaluateWithin b room = .error c)
    (hc : c.kind = .divisionByZero) : ∃ n, room = n + 1 := by
  cases room with
  | zero => rw [evaluateWithin_zero] at h; cases h; cases hc
  | succ n => exact ⟨n, rfl⟩

/-- A division by zero is that of a division in the expression, by a value that is zero or that
vanishes. -/
theorem exists_division {root e : Expr} (he : root.Contains e) (hroom : room ≤ frameLimit)
    (h : e.evaluateWithin b room = .error c) (hc : c.kind = .divisionByZero) :
    ∃ l r w, root.Contains (.binary .div l r) ∧ r.evaluate b = .ok w ∧ w.Vanishes ∧
      c = if w.isZero then .zeroDivisor r.prefixForm else .zeroModulus w.toText := by
  induction e using Expr.induct generalizing room with
  | literal z =>
    obtain ⟨n, rfl⟩ := exists_succ_of_division h hc
    rw [evaluateWithin_literal] at h
    cases h
  | var x =>
    obtain ⟨n, rfl⟩ := exists_succ_of_division h hc
    rw [evaluateWithin] at h
    exact absurd hc (Bindings.kind_ne_of_value h (by decide))
  | negate e ih =>
    obtain ⟨n, rfl⟩ := exists_succ_of_division h hc
    rw [evaluateWithin_negate] at h
    exact ih he.operand (Nat.le_of_succ_le hroom) (error_of_map h)
  | binary op l r ihl ihr =>
    obtain ⟨n, rfl⟩ := exists_succ_of_division h hc
    have hroom := Nat.le_of_succ_le hroom
    obtain hl | hr | ⟨rfl, w, hw, hzero, rfl⟩ | ⟨z, w, hw, hzero, h⟩ := error_of_binary h
    · exact ihl he.left hroom hl
    · exact ihr he.right hroom hr
    · refine ⟨l, r, w, he, evaluateWithin_mono hroom hw, Value.vanishes_of_isZero hzero, ?_⟩
      rw [if_pos hzero, cause_of_zeroDivision hc]
    · obtain rfl := div_of_apply h hc
      obtain ⟨hvanishes, rfl⟩ := Value.div_eq_error_iff.1 h
      refine ⟨l, r, w, he, evaluateWithin_mono hroom hw, hvanishes, ?_⟩
      rw [hzero rfl]
      rfl
  | call f es ih =>
    obtain rfl | ⟨n, rfl, e, hmem, h⟩ | ⟨zs, h⟩ := error_of_call h
    · cases hc
    · exact ih e hmem (he.argument hmem) (by omega) h
    · exact absurd hc (Builtin.kind_ne_of_call h (by decide))

/-- If an expression fails with a division by zero, it contains a division whose divisor has a value
with both parts at most `1.5717277847026285e-162` in magnitude, so that their squares vanish in
doubles. The failure shows the divisor as an expression if both parts are zero, and its value if
they are not. Values have no quotient by exactly such divisors. -/
theorem divisor_vanishes :
    (∀ (e : Expr) (b : Bindings) c, e.evaluate b = .error c → c.kind = .divisionByZero →
      ∃ l r w, e.Contains (.binary .div l r) ∧ r.evaluate b = .ok w ∧ w.Vanishes ∧
        c = if w.isZero then .zeroDivisor r.prefixForm else .zeroModulus w.toText) ∧
    ∀ (z w : Value) c, z.div w = .error c ↔ w.Vanishes ∧ c = .zeroModulus w.toText :=
  ⟨fun _ _ _ => exists_division .self le_rfl, fun _ _ _ => Value.div_eq_error_iff⟩

theorem evaluate_reciprocal {w : Value} (hx : b.value "x" = .ok w) (hw : w.isZero = false) :
    reciprocal.evaluate b = Value.div ⟨1.0, 0.0⟩ w := by
  show (binary .div (literal ⟨1.0, 0.0⟩) (var "x")).evaluateWithin b (984 + 1) = _
  have hvar : (var "x").evaluateWithin b 984 = .ok w := by rwa [evaluateWithin]
  rw [evaluateWithin_div, hvar]
  show (if w.isZero = true then _ else _) = _
  rw [hw]
  rfl

theorem evaluate_reciprocal_small :
    reciprocal.evaluate (.ofList [("x", "1e-200")]) = .error (.zeroModulus "1e-200") := by
  have hzero : Value.isZero ⟨1e-200, 0.0⟩ = false := by decide +kernel
  have hvanishes : Value.Vanishes ⟨1e-200, 0.0⟩ := by decide +kernel
  have htext : Value.toText ⟨1e-200, 0.0⟩ = "1e-200" := by decide +kernel
  rw [evaluate_reciprocal (w := ⟨1e-200, 0.0⟩) rfl hzero]
  exact Value.div_eq_error_iff.2 ⟨hvanishes, congrArg Cause.zeroModulus htext.symm⟩

/-- The reciprocal of a small number is a division by zero, whose divisor vanishes. -/
theorem reciprocal_divisor_vanishes :
    reciprocal.evaluate (.ofList [("x", "1e-200")]) = .error (.zeroModulus "1e-200") ∧
      Cause.kind (.zeroModulus "1e-200") = .divisionByZero ∧
      ∃ l r w, reciprocal.Contains (.binary .div l r) ∧
        r.evaluate (.ofList [("x", "1e-200")]) = .ok w ∧ w.Vanishes := by
  obtain ⟨l, r, w, h, hr, hw, -⟩ := divisor_vanishes.1 _ _ _ evaluate_reciprocal_small rfl
  exact ⟨evaluate_reciprocal_small, rfl, l, r, w, h, hr, hw⟩

theorem contains_reciprocal {e : Expr} (h : reciprocal.Contains e) :
    e = reciprocal ∨ e = .literal ⟨1.0, 0.0⟩ ∨ e = .var "x" := by
  induction h with
  | self => exact .inl rfl
  | operand _ ih | argument _ _ ih =>
    obtain h | h | h := ih <;> cases h
  | left _ ih =>
    obtain h | h | h := ih <;> cases h
    exact .inr (.inl rfl)
  | right _ ih =>
    obtain h | h | h := ih <;> cases h
    exact .inr (.inr rfl)

/-- The reciprocal of a small number is a division by zero, but its one divisor is not zero. -/
theorem reciprocal_divisor_not_zero :
    (∃ c, reciprocal.evaluate (.ofList [("x", "1e-200")]) = .error c ∧
      c.kind = .divisionByZero) ∧
    (∀ l r w, reciprocal.Contains (.binary .div l r) →
      r.evaluate (.ofList [("x", "1e-200")]) = .ok w → w.isZero = false) ∧
    ∃ c, Value.div ⟨1.0, 0.0⟩ ⟨1e-200, 0.0⟩ = .error c ∧ Value.isZero ⟨1e-200, 0.0⟩ = false := by
  have hx : (var "x").evaluate (.ofList [("x", "1e-200")]) = .ok ⟨1e-200, 0.0⟩ := rfl
  have hzero : Value.isZero ⟨1e-200, 0.0⟩ = false := by decide +kernel
  refine ⟨⟨_, evaluate_reciprocal_small, rfl⟩, fun l r w h hr => ?_, _,
    Value.div_eq_error_iff.2 ⟨by decide +kernel, rfl⟩, hzero⟩
  obtain h | h | h := contains_reciprocal h <;> cases h
  rw [← Except.ok.inj (hx.symm.trans hr)]
  exact hzero

end Expr

end ComplexExpr
