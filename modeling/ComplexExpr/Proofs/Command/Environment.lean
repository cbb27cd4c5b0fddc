import ComplexExpr.Command.Execute
import ComplexExpr.Proofs.Calculator.Priority
import ComplexExpr.Proofs.Command.Pairs

/-!
# The environment of an evaluation

The command that evaluates an expression takes the bindings that it is given
and asks for those that are missing (`Bindings.missing`), one question for each
and in their order (`answer_askMissing`). An answer is handed to the name that
it was asked for (`get?_asked`). Main statement:

* `executeRun_environment`: which questions are asked, which failure ends them,
  and what each name is bound to when the expression is evaluated.
-/

namespace ComplexExpr

/-! ## Answers -/

universe u

/-- What only changes the result asks nothing. -/
theorem Interaction.answer_bind_pure {α β : Type u} (i : Interaction α) (g : α → β)
    (answers : List String) :
    (i >>= fun a => pure (g a)).answer answers = (g (i.answer answers).1, (i.answer answers).2) := by
  induction i generalizing answers with
  | done a => rfl
  | ask q k ih =>
    have hnext := ih answers.head? answers.tail
    show (((k answers.head? >>= fun a => pure (g a)).answer answers.tail).1,
      q :: ((k answers.head? >>= fun a => pure (g a)).answer answers.tail).2) = _
    rw [hnext]
    rfl

namespace Bindings

variable {b : Bindings} {x v : String} {names xs answers : List String}

/-- The names that have no binding yet. -/
def missing (names : List String) (b : Bindings) : List String :=
  names.filter fun x => !b.contains x

/-- The bindings with an answer for each name that has none yet. -/
def answered (names answers : List String) (b : Bindings) : Bindings :=
  b.update ((missing names b).zip (answers.map Text.strip))

theorem mem_missing : x ∈ missing names b ↔ x ∈ names ∧ b.get? x = none := by
  rw [missing, List.mem_filter, Table.contains, Bool.not_eq_true', Option.isSome_eq_false_iff,
    Option.isNone_iff_eq_none]

theorem missing_cons_given (h : b.contains x = true) : missing (x :: xs) b = missing xs b :=
  List.filter_cons_of_neg (by rw [h]; decide)

theorem missing_cons_new (h : b.contains x = false) : missing (x :: xs) b = x :: missing xs b :=
  List.filter_cons_of_pos (by rw [h]; rfl)

/-- A binding for one name makes no difference to others. -/
theorem missing_set (h : x ∉ xs) : missing xs (b.set x v) = missing xs b := by
  refine List.filter_congr fun y hy => ?_
  have hne : (y == x) = false := beq_false_of_ne fun heq => h (heq ▸ hy)
  rw [Table.contains_set, hne]
  rfl

theorem answered_cons_given (h : b.contains x = true) :
    answered (x :: xs) answers b = answered xs answers b := by
  rw [answered, missing_cons_given h, answered]

theorem answered_cons_new (h : b.contains x = false) (hx : x ∉ xs) (a : String) :
    answered (x :: xs) (a :: answers) b = answered xs answers (b.set x (Text.strip a)) := by
  rw [answered, missing_cons_new h, answered, missing_set hx]
  rfl

/-! ## Questions -/

theorem answer_given (h : b.contains x = true) (answers : List String) :
    (askMissing (x :: xs) b).answer answers = (askMissing xs b).answer answers := by
  rw [askMissing, if_pos h]

theorem answer_nil (h : b.contains x = false) :
    (askMissing (x :: xs) b).answer [] = (.error (.cancelled x), [question x]) := by
  rw [askMissing, if_neg (by rw [h]; decide)]
  rfl

theorem answer_cons (h : b.contains x = false) (a : String) (answers : List String) :
    (askMissing (x :: xs) b).answer (a :: answers) =
      (((askMissing xs (b.set x (Text.strip a))).answer answers).1,
        question x :: ((askMissing xs (b.set x (Text.strip a))).answer answers).2) := by
  rw [askMissing, if_neg (by rw [h]; decide)]
  rfl

/-- Each name that is missing is asked for, and is bound to its answer; if the answers run out, the
first name without one is the failure. -/
theorem answer_askMissing (hnames : names.Nodup) (b : Bindings) (answers : List String) :
    (∀ x, (missing names b)[answers.length]? = some x →
      (askMissing names b).answer answers =
        (.error (.cancelled x), ((missing names b).take (answers.length + 1)).map question)) ∧
    ((missing names b).length ≤ answers.length →
      (askMissing names b).answer answers =
        (.ok (answered names answers b), (missing names b).map question)) := by
  induction names generalizing b answers with
  | nil => exact ⟨nofun, fun _ => rfl⟩
  | cons x xs ih =>
    obtain ⟨hx, hxs⟩ := List.nodup_cons.1 hnames
    cases hgiven : b.contains x with
    | true =>
      rw [missing_cons_given hgiven, answer_given hgiven, answered_cons_given hgiven]
      exact ih hxs b answers
    | false =>
      rw [missing_cons_new hgiven]
      cases answers with
      | nil =>
        refine ⟨fun y hy => ?_, nofun⟩
        cases hy
        exact answer_nil hgiven
      | cons a answers =>
        obtain ⟨hcancelled, hall⟩ := ih hxs (b.set x (Text.strip a)) answers
        rw [missing_set hx] at hcancelled hall
        rw [answer_cons hgiven]
        refine ⟨fun y hy => ?_, fun hlength => ?_⟩
        · rw [hcancelled y hy]
          rfl
        · rw [hall (Nat.le_of_succ_le_succ hlength), answered_cons_new hgiven hx]
          rfl

/-! ## What is bound -/

theorem distinct_asked (hnames : names.Nodup) (h : (missing names b).length ≤ answers.length) :
    Table.Distinct ((missing names b).zip (answers.map Text.strip)) := by
  have hkeys : ((missing names b).zip (answers.map Text.strip)).map Prod.fst = missing names b :=
    List.map_fst_zip (by rwa [List.length_map])
  rw [Table.Distinct, hkeys]
  exact (hnames.filter _).imp fun h => beq_false_of_ne h

/-- A name that was asked for is bound to the answer in the same place. -/
theorem get?_asked (hnames : names.Nodup) (h : (missing names b).length ≤ answers.length) {i : ℕ}
    {a : String} (hx : (missing names b)[i]? = some x) (ha : answers[i]? = some a) :
    (answered names answers b).get? x = some (Text.strip a) := by
  have hentry : (x, Text.strip a) ∈ (missing names b).zip (answers.map Text.strip) :=
    List.mem_of_getElem? (i := i) (List.getElem?_zip_eq_some.2 ⟨hx, by rw [List.getElem?_map, ha]; rfl⟩)
  rw [answered, Table.get?_update (distinct_asked hnames h),
    Table.lookup_of_mem (distinct_asked hnames h) hentry]
  rfl

/-- Any other name is bound to what it was bound to. -/
theorem get?_not_asked (hnames : names.Nodup) (h : (missing names b).length ≤ answers.length)
    (hx : x ∉ missing names b) :
    (answered names answers b).get? x = b.get? x := by
  have hnone : ((missing names b).zip (answers.map Text.strip)).lookup x = none :=
    Table.lookup_eq_none fun e he => beq_false_of_ne fun heq => hx (heq ▸ (List.of_mem_zip he).1)
  rw [answered, Table.get?_update (distinct_asked hnames h), hnone]
  rfl

end Bindings

/-! ## The command -/

namespace Command

open Bindings (Gives LastGives Malformed answered askMissing missing question)
open Calculator (Fault plain)

variable {traced asking : Bool} {text : String} {place : Settings.Place} {e : Expr}
  {names : NameSet} {pairs answers : List String} {vars : List (Option String)} {b : Bindings}
  {c : Cause}

/-- What is printed of an evaluation, or why there is none. -/
def valueShown (traced : Bool) (place : Settings.Place) (text : String) (b : Bindings) : Effect :=
  .printed place do
    let z ← (Calculator.run traced text b).mapError Fault.failure
    return ["= " ++ z.toText]

/-- The pairs before the first one that is missing are read, and then it is seen whether one is. -/
theorem givenBindings_append (pairs : List String) {rest : List (Option String)}
    (h : rest.takeWhile Option.isSome = []) :
    givenBindings (pairs.map some ++ rest) = (do
      let b ← plain (Bindings.ofPairs pairs)
      if rest.all Option.isSome then return b else throw (.defect .noText)) := by
  have hall : ∀ p ∈ pairs.map some, Option.isSome p := List.forall_mem_map.2 fun _ _ => rfl
  have htake : (pairs.map some ++ rest).takeWhile Option.isSome = pairs.map some := by
    rw [List.takeWhile_append_of_pos hall, h, List.append_nil]
  have hpairs : (pairs.map some).filterMap id = pairs := by
    rw [List.filterMap_map]
    exact List.filterMap_some
  unfold givenBindings
  rw [htake, hpairs, List.all_append, List.all_eq_true.2 hall, Bool.true_and]

theorem givenBindings_some (pairs : List String) :
    givenBindings (pairs.map some) = plain (Bindings.ofPairs pairs) := by
  rw [← List.append_nil (pairs.map some), givenBindings_append pairs rfl]
  exact bind_pure _

theorem variablesOf_of_parse (h : Calculator.parse traced text = .ok e)
    (hnames : e.freeVariables = .ok names) : variablesOf traced text = .ok names := by
  unfold variablesOf
  rw [h]
  show plain e.freeVariables = _
  rw [hnames]
  rfl

/-- Evaluation comes after the last question. -/
theorem answer_executeRun (traced : Bool) (place : Settings.Place) (text : String)
    (vars : List (Option String)) (asking : Bool) (answers : List String) :
    (executeRun traced place text vars asking).answer answers =
      let (b, questions) := (bindingsFor traced text vars asking).answer answers
      (.printed place do
        let z ← (Calculator.run traced text (← b)).mapError Fault.failure
        return ["= " ++ z.toText], questions) :=
  Interaction.answer_bind_pure _ _ answers

theorem answer_refused (h : givenBindings vars = .error f) :
    (executeRun traced place text vars asking).answer answers = (⟨[], .error f, place⟩, []) := by
  rw [answer_executeRun, bindingsFor, h]
  rfl

/-- The questions are those for the bindings that are missing. -/
theorem answer_asking (hparse : Calculator.parse traced text = .ok e)
    (hnames : e.freeVariables = .ok names) (hb : givenBindings vars = .ok b) :
    (bindingsFor traced text vars true).answer answers =
      (plain ((askMissing names.names b).answer answers).1,
        ((askMissing names.names b).answer answers).2) := by
  rw [bindingsFor, hb]
  dsimp only
  rw [if_pos rfl, variablesOf_of_parse hparse hnames]
  exact Interaction.answer_bind_pure _ _ answers

/-- Once each variable is bound, evaluation meets none that is not. -/
theorem bound_of_run {f : Failure} (hparse : Calculator.parse traced text = .ok e)
    (hb : ∀ x ∈ e.vars, ∃ v, b.get? x = some v) (h : Calculator.run traced text b = .error f) :
    f.cause.kind ≠ .unboundVariable := by
  obtain ⟨-, hok⟩ | ⟨-, name, -, -, fault, -, -, -, herror⟩ :=
    Calculator.firstRejected_cases b.entries
  · rw [Calculator.run_of_checked hparse hok] at h
    obtain ⟨c, hc, rfl⟩ := error_of_mapError h
    obtain hkind | ⟨x, hx, hvalue⟩ := Expr.cause_of_evaluateWithin hc
    · exact fun hunbound => not_mem_bindingFaults _ hkind (hunbound ▸ List.mem_cons_self)
    · obtain ⟨v, hv⟩ := hb x hx
      obtain ⟨fault, -, rfl⟩ := Bindings.error_of_value hv hvalue
      cases fault <;> exact nofun
  · rw [Calculator.run_of_rejected hparse herror] at h
    cases h
    exact nofun

/-- The first pair that is malformed is the failure, and nothing is asked. If there is none, one
question is asked for each variable that no pair gives a value to, in the order of their names, and
no other. If the answers run out, the first name without one is the failure. If they do not, each
name is bound to the value that the last pair gives it, or to its answer without the blanks around
it, and evaluation meets no variable that is not bound. -/
theorem executeRun_environment (place : Settings.Place)
    (hparse : Calculator.parse traced text = .ok e) (hnames : e.freeVariables = .ok names)
    (pairs answers : List String) :
    (∀ before pair after, pairs = before ++ pair :: after → (∀ p ∈ before, ¬Malformed p) →
      Malformed pair →
      (executeRun traced place text (pairs.map some) true).answer answers =
        (⟨[], .error (.failure ⟨.malformedBinding pair, none⟩), place⟩, [])) ∧
    ((∀ p ∈ pairs, ¬Malformed p) → ∃ asked : List String, asked.Pairwise (· < ·) ∧
      (∀ x, x ∈ asked ↔ x ∈ names ∧ ∀ p ∈ pairs, ∀ v, ¬Gives p x v) ∧
      (∀ x, asked[answers.length]? = some x →
        (executeRun traced place text (pairs.map some) true).answer answers =
          (⟨[], .error (.failure ⟨.cancelled x, none⟩), place⟩,
            (asked.take (answers.length + 1)).map question)) ∧
      (asked.length ≤ answers.length → ∃ b : Bindings,
        (executeRun traced place text (pairs.map some) true).answer answers =
          (valueShown traced place text b, asked.map question) ∧
        (∀ x v, LastGives pairs x v → b.get? x = some v) ∧
        (∀ (i : ℕ) x a, asked[i]? = some x → answers[i]? = some a →
          b.get? x = some (Text.strip a)) ∧
        (∀ x, x ∉ asked → (∀ p ∈ pairs, ∀ v, ¬Gives p x v) → b.get? x = none) ∧
        ∀ f, Calculator.run traced text b = .error f → f.cause.kind ≠ .unboundVariable)) := by
  refine ⟨fun before pair after heq hbefore hpair => ?_, fun hpairs => ?_⟩
  · refine answer_refused ?_
    rw [givenBindings_some, heq, Bindings.ofPairs_malformed hbefore hpair]
    rfl
  · obtain ⟨b, hb, hget⟩ := Bindings.exists_ofPairs hpairs
    have hgiven : givenBindings (pairs.map some) = .ok b := by
      rw [givenBindings_some, hb]
      rfl
    obtain ⟨hcancelled, hasked⟩ := Bindings.answer_askMissing names.nodup b answers
    have hnone (x : String) : b.get? x = none ↔ ∀ p ∈ pairs, ∀ v, ¬Gives p x v := by
      rw [← Bindings.not_lastGives_iff, Option.eq_none_iff_forall_ne_some]
      simp only [ne_eq, hget]
    have hmissing (x : String) : x ∈ missing names.names b ↔
        x ∈ names ∧ ∀ p ∈ pairs, ∀ v, ¬Gives p x v := by
      rw [Bindings.mem_missing, hnone]
      rfl
    refine ⟨missing names.names b, names.increasing.filter _, hmissing, fun x hx => ?_,
      fun hlength => ⟨.answered names.names answers b, ?_, fun x v hv => ?_, fun i x a => ?_,
        fun x hx hv => ?_, fun f => bound_of_run hparse fun x hx => ?_⟩⟩
    · rw [answer_executeRun, answer_asking hparse hnames hgiven, hcancelled x hx]
      rfl
    · rw [answer_executeRun, answer_asking hparse hnames hgiven, hasked hlength]
      rfl
    · have hbound : b.get? x = some v := (hget x v).2 hv
      rw [Bindings.get?_not_asked names.nodup hlength fun hx => ?_, hbound]
      rw [(Bindings.mem_missing.1 hx).2] at hbound
      cases hbound
    · exact Bindings.get?_asked names.nodup hlength
    · rw [Bindings.get?_not_asked names.nodup hlength hx, (hnone x).2 hv]
    · rw [Expr.vars_of_freeVariables hnames] at hx
      by_cases hasked : x ∈ missing names.names b
      · obtain ⟨i, hi⟩ := List.getElem?_of_mem hasked
        have hlt : i < answers.length :=
          (List.getElem?_eq_some_iff.1 hi).1.trans_le hlength
        exact ⟨_, Bindings.get?_asked names.nodup hlength hi (List.getElem?_eq_getElem hlt)⟩
      · rw [Bindings.get?_not_asked names.nodup hlength hasked]
        rw [Bindings.mem_missing, not_and] at hasked
        exact Option.ne_none_iff_exists'.1 (hasked hx)

/-- One variable is given twice, and the other is asked for. -/
theorem executeRun_environment_given_twice :
    ∃ e names b, Calculator.parse false "y/x" = .ok e ∧ e.freeVariables = .ok names ∧
      (executeRun false (.file none) "y/x" (["y=1", " y = 2=i "].map some) true).answer [" 3"] =
        (valueShown false (.file none) "y/x" b, [question "x"]) ∧
      b.get? "y" = some "2=i" ∧ b.get? "x" = some "3" := by
  have hnames : ((Calculator.parse false "y/x").bind Expr.freeVariables).toOption.map
      NameSet.names = some ["x", "y"] := by decide +kernel
  have hfirst : Gives "y=1" "y" "1" := ⟨['y'], ['1'], rfl, by decide, ⟨'y', by decide⟩, rfl, rfl⟩
  have hsecond : Gives " y = 2=i " "y" "2=i" :=
    ⟨[' ', 'y', ' '], " 2=i ".toList, rfl, by decide, ⟨'y', by decide⟩, rfl, rfl⟩
  have hpairs {P : String → Prop} (h₁ : P "y=1") (h₂ : P " y = 2=i ") :
      ∀ p ∈ ["y=1", " y = 2=i "], P p :=
    List.forall_mem_cons.2 ⟨h₁, List.forall_mem_singleton.2 h₂⟩
  cases hparse : Calculator.parse false "y/x" with
  | error c => rw [hparse] at hnames; cases hnames
  | ok e =>
    rw [hparse] at hnames
    change e.freeVariables.toOption.map _ = _ at hnames
    cases hfree : e.freeVariables with
    | error c => rw [hfree] at hnames; cases hnames
    | ok names =>
      rw [hfree] at hnames
      obtain ⟨asked, hincreasing, hmem, -, hanswered⟩ :=
        (executeRun_environment (.file none) hparse hfree ["y=1", " y = 2=i "] [" 3"]).2
          (hpairs hfirst.not_malformed hsecond.not_malformed)
      have hasked : asked = ["x"] := by
        refine NameSet.eq_of_pairwise_lt hincreasing (List.pairwise_singleton _ _) fun z => ?_
        rw [hmem, NameSet.mem_def, show names.names = ["x", "y"] from Option.some.inj hnames]
        constructor
        · rintro ⟨hz, hnone⟩
          rcases List.mem_cons.1 hz with rfl | hz
          · exact List.mem_cons_self
          · rw [List.mem_singleton.1 hz] at hnone
            exact absurd hfirst (hnone _ List.mem_cons_self _)
        · intro hz
          rw [List.mem_singleton.1 hz]
          have hne : "x" ≠ "y" := by decide
          exact ⟨List.mem_cons_self, hpairs (fun v h => hne (h.unique hfirst).1)
            fun v h => hne (h.unique hsecond).1⟩
      subst hasked
      obtain ⟨b, heffect, hlast, hvalues, -⟩ := hanswered (Nat.le_refl 1)
      have hx := hvalues 0 "x" " 3" rfl rfl
      rw [show Text.strip " 3" = "3" by decide +kernel] at hx
      refine ⟨e, names, b, rfl, hfree, heffect, hlast _ _ ?_, hx⟩
      exact ⟨["y=1"], _, [], rfl, hsecond, List.forall_mem_nil _⟩

end Command

end ComplexExpr
