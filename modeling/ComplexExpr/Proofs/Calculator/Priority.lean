import ComplexExpr.Calculator
import ComplexExpr.Proofs.Expr.Dependence
import ComplexExpr.Proofs.Table

/-!
# Which failure of an evaluation comes first

A text is evaluated in three steps, and the first that fails decides: the text
is parsed, the bound texts are checked in their order (`firstRejected_cases`),
and the expression is evaluated. Each variable that is looked up then has been
checked before, so that evaluation meets no malformed text
(`not_literal_of_evaluate`). Main statement:

* `run_priority`: the failure of each step, and what it takes to come to the
  next one.
-/

namespace ComplexExpr

/-- The text denotes a value. -/
def Value.Accepted (text : String) : Prop := ∃ z, Value.ofText text = .ok z

/-! ## Variables that are bound -/

section

variable {b : Bindings} {x text : String} {c : Cause}

/-- A variable that is bound fails only with its text. -/
theorem Bindings.error_of_value (h : b.get? x = some text) (hc : b.value x = .error c) :
    ∃ fault, Value.ofText text = .error fault ∧ c = .literal fault := by
  unfold Bindings.value at hc
  rw [h] at hc
  obtain ⟨fault, hfault, rfl⟩ := error_of_mapError hc
  exact ⟨fault, hfault, rfl⟩

/-- If all bound texts denote values, a variable fails only if it is not bound. -/
theorem Bindings.unbound_of_value (hb : ∀ entry ∈ b.entries, Value.Accepted entry.2)
    (hc : b.value x = .error c) : c = .unboundVariable x := by
  cases hx : b.get? x with
  | none =>
    unfold Bindings.value at hc
    rw [hx] at hc
    cases hc
    rfl
  | some text =>
    obtain ⟨fault, hfault, -⟩ := Bindings.error_of_value hx hc
    obtain ⟨z, hz⟩ := hb _ (Table.mem_of_lookup hx)
    rw [hz] at hfault
    cases hfault

/-- If all bound texts denote values, evaluation fails with none of them. -/
theorem Expr.not_literal_of_evaluate {e : Expr}
    (hb : ∀ entry ∈ b.entries, Value.Accepted entry.2) (h : e.evaluate b = .error c) :
    c.kind ≠ .emptyLiteral ∧ c.kind ≠ .invalidLiteral := by
  obtain hkind | ⟨x, -, hvalue⟩ := Expr.cause_of_evaluateWithin h
  · have hdistinct : ∀ k ∈ evaluationFaults, k ≠ .emptyLiteral ∧ k ≠ .invalidLiteral := by decide
    exact hdistinct _ hkind
  · rw [Bindings.unbound_of_value hb hvalue]
    exact ⟨nofun, nofun⟩

end

namespace Calculator

variable {traced : Bool} {text : String} {b : Bindings} {e : Expr} {c : Cause}

/-! ## The check of the bindings -/

/-- All bound texts denote values, or there is a first one that does not, and it decides. -/
theorem firstRejected_cases (es : List (String × String)) :
    ((∀ entry ∈ es, Value.Accepted entry.2) ∧ firstRejected es = .ok ()) ∨
      ∃ before name value after fault, es = before ++ (name, value) :: after ∧
        (∀ entry ∈ before, Value.Accepted entry.2) ∧ Value.ofText value = .error fault ∧
        firstRejected es = .error (.rejectedBinding name fault) := by
  induction es with
  | nil => exact .inl ⟨List.forall_mem_nil _, rfl⟩
  | cons entry es ih =>
    obtain ⟨name, value⟩ := entry
    cases hvalue : Value.ofText value with
    | error fault =>
      refine .inr ⟨[], name, value, es, fault, rfl, List.forall_mem_nil _, hvalue, ?_⟩
      rw [firstRejected, hvalue]
    | ok z =>
      have hnext : firstRejected ((name, value) :: es) = firstRejected es := by
        rw [firstRejected, hvalue]
      have haccepted : Value.Accepted value := ⟨z, hvalue⟩
      rw [hnext]
      obtain ⟨hall, hok⟩ | ⟨before, name', value', after, fault, rfl, hbefore, hfault, herror⟩ := ih
      · exact .inl ⟨List.forall_mem_cons.2 ⟨haccepted, hall⟩, hok⟩
      · exact .inr ⟨(name, value) :: before, name', value', after, fault, rfl,
          List.forall_mem_cons.2 ⟨haccepted, hbefore⟩, hfault, herror⟩

/-! ## The three steps -/

theorem equation_of_about {α : Type} {r : Except Cause α} {f : Failure}
    (h : about text r = .error f) : f.equation = some text := by
  obtain ⟨c, -, rfl⟩ := error_of_mapError h
  rfl

theorem run_of_parse_error (h : parse traced text = .error c) :
    run traced text b = .error ⟨c, some text⟩ := by
  unfold run
  rw [h]
  rfl

theorem run_of_rejected (h : parse traced text = .ok e) (hc : firstRejected b.entries = .error c) :
    run traced text b = .error ⟨c, some text⟩ := by
  unfold run
  rw [h]
  show about text (firstRejected b.entries >>= fun _ => e.evaluate b) = _
  rw [hc]
  rfl

theorem run_of_checked (h : parse traced text = .ok e) (hok : firstRejected b.entries = .ok ()) :
    run traced text b = about text (e.evaluate b) := by
  unfold run
  rw [h]
  show about text (firstRejected b.entries >>= fun _ => e.evaluate b) = _
  rw [hok]
  rfl

/-- If a text is not parsed, that is the failure, whatever is bound. If it is parsed and a bound
text denotes no value, whether its name is used or not, the first such binding is the failure. If
all bound texts denote values, the outcome is that of evaluation alone, and no failure is about the
text of a variable. Every failure carries the text. -/
theorem run_priority (traced : Bool) (text : String) (b : Bindings) :
    (∀ c, parse traced text = .error c → run traced text b = .error ⟨c, some text⟩) ∧
    (∀ e, parse traced text = .ok e →
      ((∃ entry ∈ b.entries, ¬Value.Accepted entry.2) →
        ∃ before name value after fault c, b.entries = before ++ (name, value) :: after ∧
          (∀ entry ∈ before, Value.Accepted entry.2) ∧ Value.ofText value = .error fault ∧
          run traced text b = .error ⟨c, some text⟩ ∧ c.kind = .invalidBinding ∧
          c.fragment = name ∧ c.message = "Invalid value for variable " ++ name ++ ": " ++
            fault.message) ∧
      ((∀ entry ∈ b.entries, Value.Accepted entry.2) →
        run traced text b = about text (e.evaluate b) ∧
        ∀ c, e.evaluate b = .error c → c.kind ≠ .emptyLiteral ∧ c.kind ≠ .invalidLiteral)) ∧
    ∀ f, run traced text b = .error f → f.equation = some text := by
  refine ⟨fun c hc => run_of_parse_error hc, fun e he => ?_, fun f => equation_of_about⟩
  obtain ⟨hall, hok⟩ | ⟨before, name, value, after, fault, hentries, hbefore, hfault, herror⟩ :=
    firstRejected_cases b.entries
  · refine ⟨fun ⟨entry, hentry, hnot⟩ => absurd (hall entry hentry) hnot, fun hb => ?_⟩
    exact ⟨run_of_checked he hok, fun c => Expr.not_literal_of_evaluate hb⟩
  · refine ⟨fun _ => ?_, fun hb => ?_⟩
    · exact ⟨before, name, value, after, fault, .rejectedBinding name fault, hentries, hbefore,
        hfault, run_of_rejected he herror, rfl, rfl, rfl⟩
    · have hmem : (name, value) ∈ b.entries := by
        rw [hentries]
        exact List.mem_append_right before List.mem_cons_self
      obtain ⟨z, hz⟩ := hb _ hmem
      rw [hz] at hfault
      cases hfault

/-- A name that does not occur is bound to a text that denotes no value, and one that occurs is not
bound at all: the first is the failure. -/
theorem run_priority_unused_name :
    ∃ e c, parse false "x+y" = .ok e ∧
      run false "x+y" (.ofList [("x", "2i"), ("z", "1_0")]) = .error ⟨c, some "x+y"⟩ ∧
      c.kind = .invalidBinding ∧ c.fragment = "z" := by
  have hparse : ∃ e, parse false "x+y" = .ok e :=
    exists_ok_of_isSome (by decide +kernel)
  have hnot : ¬Value.Accepted "1_0" := fun ⟨z, hz⟩ => by cases hz
  obtain ⟨e, he⟩ := hparse
  obtain ⟨before, name, value, after, fault, c, hentries, -, hfault, hrun, hkind, hname, -⟩ :=
    ((run_priority false "x+y" (.ofList [("x", "2i"), ("z", "1_0")])).2.1 e he).1
      ⟨("z", "1_0"), List.mem_cons_of_mem _ List.mem_cons_self, hnot⟩
  have hmem : (name, value) ∈ [("x", "2i"), ("z", "1_0")] := by
    rw [show [("x", "2i"), ("z", "1_0")] = _ from hentries]
    exact List.mem_append_right before List.mem_cons_self
  refine ⟨e, c, he, hrun, hkind, hname.trans ?_⟩
  rcases List.mem_cons.1 hmem with hx | hz
  · cases hx
    cases hfault
  · cases List.mem_singleton.1 hz
    rfl

end Calculator

end ComplexExpr
