import ComplexExpr.Expr.Evaluate
import ComplexExpr.Proofs.Expr.Frames
import ComplexExpr.Proofs.Results

/-!
# What evaluation depends on

The variables of an expression are what its value depends on. Evaluation looks
at no other name (`evaluateWithin_congr`), it gives a value only if it has found
one for each of them (`accepts_of_evaluateWithin`), and a failure that is about a
variable is that of one of them (`cause_of_evaluateWithin`), so that there is none
once each has a value (`kind_mem_of_evaluateWithin`, `kind_of_evaluateWithin`).
Main statement:

* `evaluate_dependence`: the three for expressions whose variables can be
  collected.
-/

namespace ComplexExpr

/-- A name is bound to a text that denotes a value. -/
def Bindings.Accepts (b : Bindings) (name : String) : Prop :=
  ∃ text z, b.get? name = some text ∧ Value.ofText text = .ok z

/-- The kinds of failures that are about a variable's text. -/
def bindingFaults : List Kind := [.unboundVariable, .emptyLiteral, .invalidLiteral]

/-- The kinds of failures that are about no variable. -/
def evaluationFaults : List Kind :=
  [.divisionByZero, .complexExponent, .arity, .unknownFunction, .tooDeep]

theorem not_mem_bindingFaults : ∀ k ∈ evaluationFaults, k ∉ bindingFaults := by decide

theorem Bindings.value_congr {b b' : Bindings} {x : String} (h : b.get? x = b'.get? x) :
    b.value x = b'.value x := by
  rw [Bindings.value, Bindings.value, h]

theorem Bindings.accepts_iff {b : Bindings} {x : String} :
    b.Accepts x ↔ ∃ z, b.value x = .ok z := by
  unfold Bindings.Accepts Bindings.value
  cases b.get? x with
  | none => exact ⟨nofun, nofun⟩
  | some text =>
    refine ⟨fun ⟨t, z, ht, hz⟩ => ⟨z, ?_⟩, fun ⟨z, hz⟩ => ⟨text, z, rfl, ?_⟩⟩
    · cases ht
      dsimp only
      rw [hz]
      rfl
    · cases h : Value.ofText text with
      | error fault => dsimp only at hz; rw [h] at hz; cases hz
      | ok w => dsimp only at hz; rw [h] at hz; cases hz; rfl

/-! ## Operations -/

/-- An operation fails on a divisor or on an exponent. -/
theorem BinaryOp.cause_of_apply {op : BinaryOp} {z w : Value} {c : Cause}
    (h : op.apply z w = .error c) :
    (op = .div ∧ c = .zeroModulus w.toText) ∨ (op = .pow ∧ c = .complexExponent w.toText) := by
  cases op with
  | add | sub | mul => cases h
  | div =>
    simp only [apply, Value.div] at h
    split at h <;> cases h
    exact .inl ⟨rfl, rfl⟩
  | pow =>
    simp only [apply] at h
    split at h <;> cases h
    exact .inr ⟨rfl, rfl⟩

theorem BinaryOp.kind_of_apply {op : BinaryOp} {z w : Value} {c : Cause}
    (h : op.apply z w = .error c) : c.kind ∈ evaluationFaults := by
  obtain ⟨-, rfl⟩ | ⟨-, rfl⟩ := cause_of_apply h
  · exact of_decide_eq_true rfl
  · exact of_decide_eq_true rfl

/-- A call fails because of its name, or because of the number of its arguments. -/
theorem Builtin.cause_of_call {name : String} {zs : List Value} {c : Cause}
    (h : Builtin.call name zs = .error c) :
    c = .unknownFunction name ∨ c = .arity name zs.length := by
  unfold Builtin.call at h
  split at h
  · cases h
    exact .inl rfl
  · split at h <;> cases h
    exact .inr rfl

theorem Builtin.kind_of_call {name : String} {zs : List Value} {c : Cause}
    (h : Builtin.call name zs = .error c) : c.kind ∈ evaluationFaults := by
  obtain rfl | rfl := cause_of_call h
  · exact of_decide_eq_true rfl
  · exact of_decide_eq_true rfl

theorem Builtin.kind_ne_of_call {name : String} {zs : List Value} {c : Cause} {k : Kind}
    (h : Builtin.call name zs = .error c) (hk : k ∉ [Kind.unknownFunction, .arity]) :
    c.kind ≠ k := by
  rintro rfl
  obtain rfl | rfl := cause_of_call h
  · exact hk List.mem_cons_self
  · exact hk (List.mem_cons_of_mem _ List.mem_cons_self)

namespace Expr

theorem kind_zeroDivision (room : Nat) (e : Expr) :
    (e.zeroDivision room).kind ∈ evaluationFaults := by
  unfold zeroDivision
  split <;> exact of_decide_eq_true rfl

theorem forall_mem_vars_binary {p : String → Prop} {op : BinaryOp} {l r : Expr} :
    (∀ x ∈ (binary op l r).vars, p x) ↔ (∀ x ∈ l.vars, p x) ∧ ∀ x ∈ r.vars, p x := by
  simp only [vars, NameSet.mem_union, or_imp, forall_and]

theorem mem_varsAll {x : String} {es : List Expr} : x ∈ varsAll es ↔ ∃ e ∈ es, x ∈ e.vars := by
  induction es with
  | nil => simp [varsAll]
  | cons e es ih => simp [varsAll, ih]

/-! ## One step of evaluation -/

variable {b b' : Bindings} {room : Nat} {c : Cause}

theorem evaluateWithin_zero (b : Bindings) (e : Expr) :
    e.evaluateWithin b 0 = .error (.tooDeep .evaluate) := by
  unfold evaluateWithin
  rfl

theorem evaluateWithin_literal (z : Value) : (literal z).evaluateWithin b (room + 1) = .ok z := by
  rw [evaluateWithin]

theorem evaluateWithin_negate (e : Expr) :
    (negate e).evaluateWithin b (room + 1) = (e.evaluateWithin b room).map Value.neg := by
  rw [evaluateWithin]
  cases e.evaluateWithin b room <;> rfl

theorem evaluateWithin_div (l r : Expr) :
    (binary .div l r).evaluateWithin b (room + 1) = (do
      let w ← r.evaluateWithin b room
      if w.isZero then throw (r.zeroDivision room)
      let z ← l.evaluateWithin b room
      BinaryOp.div.apply z w) := by
  rw [evaluateWithin]
  rfl

theorem evaluateWithin_binary {op : BinaryOp} (hop : op ≠ .div) (l r : Expr) :
    (binary op l r).evaluateWithin b (room + 1) = (do
      let z ← l.evaluateWithin b room
      let w ← r.evaluateWithin b room
      op.apply z w) := by
  rw [evaluateWithin]
  exact hop

theorem evaluateWithin_call (f : String) (es : List Expr) :
    (call f es).evaluateWithin b (room + 2) = evaluateAll b room es >>= Builtin.call f := by
  rw [evaluateWithin]

theorem evaluateWithin_call_one (f : String) (es : List Expr) :
    (call f es).evaluateWithin b 1 = .error (.tooDeep .evaluate) := by
  rw [evaluateWithin]

/-- An operation has the value that comes of those of its operands; a divisor's is not zero. -/
theorem binary_eq_ok_iff {op : BinaryOp} {l r : Expr} {v : Value} :
    (binary op l r).evaluateWithin b (room + 1) = .ok v ↔
      ∃ z w, l.evaluateWithin b room = .ok z ∧ r.evaluateWithin b room = .ok w ∧
        (op = .div → w.isZero = false) ∧ op.apply z w = .ok v := by
  by_cases hop : op = .div
  · subst hop
    rw [evaluateWithin_div]
    constructor
    · intro h
      obtain ⟨w, hw, h⟩ := ok_of_bind h
      cases hzero : w.isZero with
      | true => rw [hzero] at h; cases h
      | false =>
        rw [hzero] at h
        obtain ⟨z, hz, h⟩ := ok_of_bind h
        exact ⟨z, w, hz, hw, fun _ => hzero, h⟩
    · rintro ⟨z, w, hz, hw, hzero, h⟩
      rw [hw, hz]
      show (if w.isZero = true then _ else _) = _
      rw [hzero rfl]
      exact h
  · rw [evaluateWithin_binary hop]
    constructor
    · intro h
      obtain ⟨z, hz, h⟩ := ok_of_bind h
      obtain ⟨w, hw, h⟩ := ok_of_bind h
      exact ⟨z, w, hz, hw, fun h => absurd h hop, h⟩
    · rintro ⟨z, w, hz, hw, -, h⟩
      rw [hz, hw]
      exact h

/-- An operation fails with an operand, because its divisor is zero, or on the values of its
operands. -/
theorem error_of_binary {op : BinaryOp} {l r : Expr}
    (h : (binary op l r).evaluateWithin b (room + 1) = .error c) :
    l.evaluateWithin b room = .error c ∨ r.evaluateWithin b room = .error c ∨
      (op = .div ∧ ∃ w, r.evaluateWithin b room = .ok w ∧ w.isZero = true ∧
        c = r.zeroDivision room) ∨
      ∃ z w, r.evaluateWithin b room = .ok w ∧ (op = .div → w.isZero = false) ∧
        op.apply z w = .error c := by
  by_cases hop : op = .div
  · subst hop
    rw [evaluateWithin_div] at h
    obtain hr | ⟨w, hw, h⟩ := error_of_bind h
    · exact .inr (.inl hr)
    · cases hzero : w.isZero with
      | true =>
        rw [hzero] at h
        cases h
        exact .inr (.inr (.inl ⟨rfl, w, hw, hzero, rfl⟩))
      | false =>
        rw [hzero] at h
        obtain hl | ⟨z, -, h⟩ := error_of_bind h
        · exact .inl hl
        · exact .inr (.inr (.inr ⟨z, w, hw, fun _ => hzero, h⟩))
  · rw [evaluateWithin_binary hop] at h
    obtain hl | ⟨z, -, h⟩ := error_of_bind h
    · exact .inl hl
    · obtain hr | ⟨w, hw, h⟩ := error_of_bind h
      · exact .inr (.inl hr)
      · exact .inr (.inr (.inr ⟨z, w, hw, fun h => absurd h hop, h⟩))

/-- An operation fails with an operand, or because of the values of its operands. -/
theorem cause_of_error {op : BinaryOp} {l r : Expr}
    (h : (binary op l r).evaluateWithin b (room + 1) = .error c) :
    l.evaluateWithin b room = .error c ∨ r.evaluateWithin b room = .error c ∨
      c.kind ∈ evaluationFaults := by
  obtain hl | hr | ⟨-, w, -, -, rfl⟩ | ⟨z, w, -, -, h⟩ := error_of_binary h
  · exact .inl hl
  · exact .inr (.inl hr)
  · exact .inr (.inr (kind_zeroDivision room r))
  · exact .inr (.inr (BinaryOp.kind_of_apply h))

/-! ## Arguments -/

theorem evaluateAll_cons (e : Expr) (es : List Expr) :
    evaluateAll b room (e :: es) = (do
      let z ← e.evaluateWithin b room
      let zs ← evaluateAll b room es
      return z :: zs) := by
  rw [evaluateAll]

theorem evaluateAll_congr {es : List Expr}
    (h : ∀ e ∈ es, e.evaluateWithin b room = e.evaluateWithin b' room) :
    evaluateAll b room es = evaluateAll b' room es := by
  induction es with
  | nil => rw [evaluateAll, evaluateAll]
  | cons e es ih =>
    rw [List.forall_mem_cons] at h
    rw [evaluateAll_cons, evaluateAll_cons, h.1, ih h.2]

theorem ok_of_evaluateAll {es : List Expr} {zs : List Value}
    (h : evaluateAll b room es = .ok zs) : ∀ e ∈ es, ∃ z, e.evaluateWithin b room = .ok z := by
  induction es generalizing zs with
  | nil => exact nofun
  | cons e es ih =>
    rw [evaluateAll_cons] at h
    obtain ⟨z, hz, h⟩ := ok_of_bind h
    obtain ⟨zs', hzs, -⟩ := ok_of_bind h
    exact List.forall_mem_cons.2 ⟨⟨z, hz⟩, ih hzs⟩

theorem error_of_evaluateAll {es : List Expr} (h : evaluateAll b room es = .error c) :
    ∃ e ∈ es, e.evaluateWithin b room = .error c := by
  induction es with
  | nil => rw [evaluateAll] at h; cases h
  | cons e es ih =>
    rw [evaluateAll_cons] at h
    obtain he | ⟨z, -, h⟩ := error_of_bind h
    · exact ⟨e, List.mem_cons_self, he⟩
    · obtain hes | ⟨zs, -, h⟩ := error_of_bind h
      · obtain ⟨e', he', hc⟩ := ih hes
        exact ⟨e', List.mem_cons_of_mem e he', hc⟩
      · cases h

/-- A call has the value that comes of those of its arguments, which are found within two frames
less. -/
theorem call_eq_ok_iff {f : String} {es : List Expr} {v : Value} :
    (call f es).evaluateWithin b room = .ok v ↔
      ∃ n zs, room = n + 2 ∧ evaluateAll b n es = .ok zs ∧ Builtin.call f zs = .ok v := by
  constructor
  · intro h
    match room with
    | 0 => rw [evaluateWithin_zero] at h; cases h
    | 1 => rw [evaluateWithin_call_one] at h; cases h
    | n + 2 =>
      rw [evaluateWithin_call] at h
      obtain ⟨zs, hzs, h⟩ := ok_of_bind h
      exact ⟨n, zs, rfl, hzs, h⟩
  · rintro ⟨n, zs, rfl, hzs, h⟩
    rw [evaluateWithin_call, hzs]
    exact h

/-- A call fails for want of frames, with an argument, or on the values of its arguments. -/
theorem error_of_call {f : String} {es : List Expr}
    (h : (call f es).evaluateWithin b room = .error c) :
    c = .tooDeep .evaluate ∨
      (∃ n, room = n + 2 ∧ ∃ e ∈ es, e.evaluateWithin b n = .error c) ∨
      ∃ zs, Builtin.call f zs = .error c := by
  match room with
  | 0 =>
    rw [evaluateWithin_zero] at h
    exact .inl (Except.error.inj h).symm
  | 1 =>
    rw [evaluateWithin_call_one] at h
    exact .inl (Except.error.inj h).symm
  | n + 2 =>
    rw [evaluateWithin_call] at h
    obtain hes | ⟨zs, -, h⟩ := error_of_bind h
    · exact .inr (.inl ⟨n, rfl, error_of_evaluateAll hes⟩)
    · exact .inr (.inr ⟨zs, h⟩)

/-! ## Whole expressions -/

/-- Induction on an expression and the frames it is evaluated within, by the steps of evaluation. -/
@[elab_as_elim]
theorem induct_within {motive : Expr → Nat → Prop} (zero : ∀ e, motive e 0)
    (literal : ∀ z room, motive (.literal z) (room + 1))
    (var : ∀ x room, motive (.var x) (room + 1))
    (negate : ∀ e room, motive e room → motive (.negate e) (room + 1))
    (div : ∀ l r room, motive l room → motive r room → motive (.binary .div l r) (room + 1))
    (binary : ∀ op l r room, op ≠ .div → motive l room → motive r room →
      motive (.binary op l r) (room + 1))
    (call_one : ∀ f es, motive (.call f es) 1)
    (call : ∀ f es room, (∀ e ∈ es, motive e room) → motive (.call f es) (room + 2)) :
    ∀ e room, motive e room := by
  intro e
  induction e using induct with
  | literal z => exact Nat.rec (zero _) fun room _ => literal z room
  | var x => exact Nat.rec (zero _) fun room _ => var x room
  | negate e ih => exact Nat.rec (zero _) fun room _ => negate e room (ih room)
  | binary op l r ihl ihr =>
    refine Nat.rec (zero _) fun room _ => ?_
    by_cases hop : op = .div
    · exact hop ▸ div l r room (ihl room) (ihr room)
    · exact binary op l r room hop (ihl room) (ihr room)
  | call f es ih =>
    intro room
    match room with
    | 0 => exact zero _
    | 1 => exact call_one f es
    | room + 2 => exact call f es room fun e he => ih e he room

/-- Evaluation looks at the variables only. -/
theorem evaluateWithin_congr {e : Expr} (h : ∀ x ∈ e.vars, b.value x = b'.value x) (room : Nat) :
    e.evaluateWithin b room = e.evaluateWithin b' room := by
  induction e, room using induct_within with
  | zero e => rw [evaluateWithin_zero, evaluateWithin_zero]
  | literal z room => rw [evaluateWithin_literal, evaluateWithin_literal]
  | var x room => simpa only [evaluateWithin] using h x (NameSet.mem_singleton.2 rfl)
  | negate e room ih => rw [evaluateWithin_negate, evaluateWithin_negate, ih h]
  | div l r room ihl ihr =>
    obtain ⟨hl, hr⟩ := forall_mem_vars_binary.1 h
    rw [evaluateWithin_div, evaluateWithin_div, ihl hl, ihr hr]
  | binary op l r room hop ihl ihr =>
    obtain ⟨hl, hr⟩ := forall_mem_vars_binary.1 h
    rw [evaluateWithin_binary hop, evaluateWithin_binary hop, ihl hl, ihr hr]
  | call_one f es => rw [evaluateWithin_call_one, evaluateWithin_call_one]
  | call f es room ih =>
    have hes : ∀ e ∈ es, e.evaluateWithin b room = e.evaluateWithin b' room :=
      fun e he => ih e he fun x hx => h x (mem_varsAll.2 ⟨e, he, hx⟩)
    rw [evaluateWithin_call, evaluateWithin_call, evaluateAll_congr hes]

/-- An expression with a value has found one for each of its variables. -/
theorem accepts_of_evaluateWithin {e : Expr} {z : Value} (h : e.evaluateWithin b room = .ok z) :
    ∀ x ∈ e.vars, b.Accepts x := by
  induction e using Expr.induct generalizing room z with
  | literal z => exact fun x hx => absurd hx NameSet.not_mem_empty
  | var x =>
    cases room with
    | zero => rw [evaluateWithin_zero] at h; cases h
    | succ room =>
      rw [evaluateWithin] at h
      intro y hy
      rw [NameSet.mem_singleton.1 hy]
      exact Bindings.accepts_iff.2 ⟨z, h⟩
  | negate e ih =>
    cases room with
    | zero => rw [evaluateWithin_zero] at h; cases h
    | succ room =>
      rw [evaluateWithin_negate] at h
      obtain ⟨w, hw, -⟩ := ok_of_map h
      exact ih hw
  | binary op l r ihl ihr =>
    cases room with
    | zero => rw [evaluateWithin_zero] at h; cases h
    | succ room =>
      obtain ⟨v, w, hv, hw, -⟩ := binary_eq_ok_iff.1 h
      exact forall_mem_vars_binary.2 ⟨ihl hv, ihr hw⟩
  | call f es ih =>
    obtain ⟨n, zs, rfl, hzs, -⟩ := call_eq_ok_iff.1 h
    intro x hx
    obtain ⟨e, he, hx⟩ := mem_varsAll.1 hx
    obtain ⟨w, hw⟩ := ok_of_evaluateAll hzs e he
    exact ih e he hw x hx

theorem kind_of_evaluateWithin_zero {e : Expr} (h : e.evaluateWithin b 0 = .error c) :
    c.kind ∈ evaluationFaults := by
  rw [evaluateWithin_zero] at h
  cases h
  exact of_decide_eq_true rfl

/-- A failure is of one of the kinds that are about no variable, or it is that of a variable. -/
theorem cause_of_evaluateWithin {e : Expr} (h : e.evaluateWithin b room = .error c) :
    c.kind ∈ evaluationFaults ∨ ∃ x ∈ e.vars, b.value x = .error c := by
  induction e using Expr.induct generalizing room with
  | literal z =>
    cases room with
    | zero => exact .inl (kind_of_evaluateWithin_zero h)
    | succ room => rw [evaluateWithin_literal] at h; cases h
  | var x =>
    cases room with
    | zero => exact .inl (kind_of_evaluateWithin_zero h)
    | succ room =>
      rw [evaluateWithin] at h
      exact .inr ⟨x, NameSet.mem_singleton.2 rfl, h⟩
  | negate e ih =>
    cases room with
    | zero => exact .inl (kind_of_evaluateWithin_zero h)
    | succ room =>
      rw [evaluateWithin_negate] at h
      exact ih (error_of_map h)
  | binary op l r ihl ihr =>
    cases room with
    | zero => exact .inl (kind_of_evaluateWithin_zero h)
    | succ room =>
      obtain hl | hr | hc := cause_of_error h
      · exact (ihl hl).imp_right fun ⟨x, hx, hc⟩ => ⟨x, NameSet.mem_union.2 (.inl hx), hc⟩
      · exact (ihr hr).imp_right fun ⟨x, hx, hc⟩ => ⟨x, NameSet.mem_union.2 (.inr hx), hc⟩
      · exact .inl hc
  | call f es ih =>
    obtain rfl | ⟨n, -, e, he, hc⟩ | ⟨zs, h⟩ := error_of_call h
    · exact .inl (of_decide_eq_true rfl)
    · exact (ih e he hc).imp_right fun ⟨x, hx, hc⟩ => ⟨x, mem_varsAll.2 ⟨e, he, hx⟩, hc⟩
    · exact .inl (Builtin.kind_of_call h)

/-- If each variable has a value, a failure is of one of the kinds that are about no variable. -/
theorem kind_mem_of_evaluateWithin {e : Expr} (hb : ∀ x ∈ e.vars, b.Accepts x)
    (h : e.evaluateWithin b room = .error c) : c.kind ∈ evaluationFaults := by
  obtain hc | ⟨x, hx, hvalue⟩ := cause_of_evaluateWithin h
  · exact hc
  · obtain ⟨z, hz⟩ := Bindings.accepts_iff.1 (hb x hx)
    rw [hz] at hvalue
    cases hvalue

/-- If each variable has a value, no failure is about a variable's text. -/
theorem kind_of_evaluateWithin {e : Expr} (hb : ∀ x ∈ e.vars, b.Accepts x)
    (h : e.evaluateWithin b room = .error c) : c.kind ∉ bindingFaults :=
  not_mem_bindingFaults _ (kind_mem_of_evaluateWithin hb h)

/-- The names that are collected from an expression are what evaluation depends on: bindings that
agree on them give the same result, a value is found only if each of them is bound to a text that
denotes a value, and if each is, no failure is about a variable's text. The limit of the program is
`frameLimit`. -/
theorem evaluate_dependence {e : Expr} {names : NameSet}
    (h : e.freeVariablesWithin room = .ok names) :
    (∀ b b' : Bindings, (∀ x ∈ names, b.get? x = b'.get? x) →
      e.evaluateWithin b room = e.evaluateWithin b' room) ∧
    (∀ (b : Bindings) z, e.evaluateWithin b room = .ok z → ∀ x ∈ names, b.Accepts x) ∧
    ∀ (b : Bindings) c, (∀ x ∈ names, b.Accepts x) → e.evaluateWithin b room = .error c →
      c.kind ∉ bindingFaults := by
  rw [← vars_of_freeVariables h]
  exact ⟨fun b b' hb => evaluateWithin_congr (fun x hx => Bindings.value_congr (hb x hx)) room,
    fun b z => accepts_of_evaluateWithin, fun b c => kind_of_evaluateWithin⟩

/-- A quotient of two variables, the second inside a call. -/
def quotient : Expr := .binary .div (.var "x") (.call "conj" [.var "y"])

/-- A third name makes no difference to it, whatever its text. -/
theorem quotient_dependence :
    quotient.freeVariables = .ok (.ofList ["x", "y"]) ∧
      quotient.evaluate (.ofList [("x", "i"), ("y", "-i"), ("z", "?")]) =
        quotient.evaluate (.ofList [("y", "-i"), ("x", "i")]) ∧
      ∀ c, quotient.evaluate (.ofList [("y", "-i"), ("x", "i")]) = .error c →
        c.kind ∉ bindingFaults := by
  have hnames : quotient.freeVariables = .ok (.ofList ["x", "y"]) := rfl
  obtain ⟨hagree, -, hkind⟩ := evaluate_dependence hnames
  refine ⟨hnames, hagree _ _ fun x hx => ?_, fun c => hkind _ c fun x hx => ?_⟩
  · obtain rfl | rfl := by simpa using hx
    · rfl
    · rfl
  · obtain rfl | rfl := by simpa using hx
    · exact ⟨"i", ⟨0.0, 1.0⟩, rfl, rfl⟩
    · exact ⟨"-i", ⟨0.0, -1.0⟩, rfl, rfl⟩

end Expr

end ComplexExpr
