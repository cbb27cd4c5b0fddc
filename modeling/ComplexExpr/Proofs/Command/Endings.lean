import ComplexExpr.Proofs.Calculator.Faults
import ComplexExpr.Proofs.Command.Environment
import ComplexExpr.Proofs.Command.Options
import ComplexExpr.Proofs.Settings.Loading

/-!
# How commands end

A command ends in a defect, or its failure is reported (`Reported`), or it has
no failure. With a well-typed settings file a defect comes from a value that is
missing among the arguments, and only where it is needed (`Lacking`): each step
of a command that can fail is a failure otherwise (`defective_execute_iff`).
Main statements:

* `execute_ends`: which commands end in a defect, how all others end, and which
  of them leave the settings file as it was;
* `execute_blank`: arguments that are read, and the defects in which their
  commands end.
-/

namespace ComplexExpr

/-! ## Reports -/

/-- Every code of a failure has a heading. -/
theorem Cause.exists_heading (c : Cause) : ∃ heading, Report.heading? c.code = some heading := by
  cases c with
  | literal fault => cases fault <;> exact ⟨_, rfl⟩
  | _ => exact ⟨_, rfl⟩

/-- After what has been printed the lines report a failure: its code with the heading of that code,
its message, and the text that it carries, if it carries one. -/
def Reported (f : Failure) (printed lines : List String) : Prop :=
  ∃ heading tail, Report.heading? f.cause.code = some heading ∧
    lines = printed ++ ("Error " ++ f.cause.code ++ ": " ++ heading ++ tail) ::
      ("Details: " ++ f.cause.message) :: (f.equation.map fun text => "Equation: " ++ text).toList

theorem Report.exists_describe {r : Report} {heading : String}
    (h : Report.heading? r.code = some heading) :
    ∃ tail, r.describe = "Error " ++ r.code ++ ": " ++ heading ++ tail := by
  unfold describe
  rw [h]
  exact ⟨_, rfl⟩

theorem reported_append_lines (f : Failure) (printed : List String) :
    Reported f printed (printed ++ f.lines) := by
  obtain ⟨heading, hheading⟩ := f.cause.exists_heading
  obtain ⟨tail, htail⟩ := Report.exists_describe (r := f.report) hheading
  refine ⟨heading, tail, hheading, ?_⟩
  rw [Failure.lines, htail]
  rfl

/-! ## Defects -/

namespace Calculator

variable {α β : Type}

/-- A result that is a defect. -/
def Defective (r : Except Fault α) : Prop := ∃ d, r = .error (.defect d)

theorem defective_bind {r : Except Fault α} {f : α → Except Fault β} :
    Defective (r >>= f) ↔ Defective r ∨ ∃ a, r = .ok a ∧ Defective (f a) := by
  constructor
  · rintro ⟨d, h⟩
    obtain h | ⟨a, ha, h⟩ := error_of_bind h
    · exact .inl ⟨d, h⟩
    · exact .inr ⟨a, ha, d, h⟩
  · rintro (⟨d, rfl⟩ | ⟨a, rfl, h⟩)
    · exact ⟨d, rfl⟩
    · exact h

theorem not_defective_ok (a : α) : ¬Defective (.ok a) := nofun

theorem defective_error {f : Fault} : Defective (.error f : Except Fault α) ↔ ∃ d, f = .defect d :=
  ⟨fun ⟨d, h⟩ => ⟨d, Except.error.inj h⟩, fun ⟨d, h⟩ => ⟨d, congrArg Except.error h⟩⟩

theorem not_defective_plain (r : Except Cause α) : ¬Defective (plain r) := fun ⟨d, h⟩ => by
  obtain ⟨c, -, hc⟩ := error_of_mapError h
  cases hc

theorem not_defective_failure (r : Except Failure α) : ¬Defective (r.mapError .failure) :=
  fun ⟨d, h⟩ => by
    obtain ⟨f, -, hf⟩ := error_of_mapError h
    cases hf

/-- What is done with a result that is no defect. -/
theorem defective_bind_pure {r : Except Fault α} {f : α → β} :
    Defective (r >>= fun a => pure (f a)) ↔ Defective r := by
  rw [defective_bind]
  exact or_iff_left fun ⟨a, _, h⟩ => not_defective_ok (f a) h

variable {σ : Type} [Source σ] {traced : Bool} {text text₁ text₂ form₁ form₂ : String}
  {s : Settings} {trials : Given Int} {source : σ}

/-- Tracing makes no difference to the prefix form. -/
theorem calculate_traced (traced : Bool) (text : String) :
    calculate traced text = calculate false text := by
  unfold calculate parse
  rw [Expr.ofTextWithin_eq_bind]
  cases Expr.ofTextWithin Expr.frameLimit false text with
  | error c => rfl
  | ok e =>
    show about text (e.traceWithin Expr.frameLimit traced >>= Expr.render) = about text e.render
    rw [Expr.traceWithin_eq]
    split
    next hdeep => exact (congrArg (about text) (if_neg (Nat.not_le.2 hdeep.2))).symm
    next => rfl

/-- An expression with a prefix form is parsed, and its variables can be collected. -/
theorem of_calculate {form : String} (h : calculate traced text = .ok form) :
    ∃ e, parse traced text = .ok e ∧ e.freeVariables = .ok e.vars := by
  obtain ⟨e, he, hform⟩ := ok_of_bind (mapError_eq_ok.1 h)
  exact ⟨e, he, Expr.freeVariables_of_render hform⟩

open Settings (HasTypes)

/-- With settings of the right types two expressions with prefix forms are compared, unless the
number of trials is missing. -/
theorem defective_compare_iff (hs : HasTypes s)
    (h₁ : calculate traced text₁ = .ok form₁) (h₂ : calculate traced text₂ = .ok form₂) :
    Defective (compare traced (.ok s) text₁ text₂ trials source) ↔ trials = .blank := by
  obtain ⟨e₁, hparse₁, hfree₁⟩ := of_calculate h₁
  obtain ⟨e₂, hparse₂, hfree₂⟩ := of_calculate h₂
  rw [compare_of_parse hparse₁ hparse₂]
  have hcompared (hcount : ∃ count, trialCount s trials = .ok count) :
      ¬Defective (compareWith s trials e₁ e₂ source) := by
    obtain ⟨count, hcount⟩ := hcount
    obtain ⟨-, ⟨ε, hε⟩, x, hx⟩ := hs.values
    have hrange : sampleRange s count (e₁.vars ∪ e₂.vars) = .ok x := by
      rw [sampleRange, hx]
      rfl
    have hbound : Settings.toBound (s.value "equivalence_epsilon") = .ok ε := by
      rw [hε]
      rfl
    obtain ⟨v, hv⟩ : ∃ v, compareWith s trials e₁ e₂ source = .ok v :=
      exists_compareWith_iff.2 ⟨_, _, count, x, hfree₁, hfree₂, hcount, hrange, .inl ⟨ε, hbound⟩⟩
    rw [hv]
    exact not_defective_ok v
  cases trials with
  | blank =>
    rw [compareWith_of_freeVariables hfree₁ hfree₂]
    exact iff_of_true ⟨.wrongType, rfl⟩ rfl
  | value n => exact iff_of_false (hcompared ⟨.number n, rfl⟩) nofun
  | omitted =>
    refine iff_of_false (hcompared ?_) nofun
    obtain ⟨⟨n, hn⟩, -⟩ := hs.values
    exact ⟨.number n, by rw [trialCount, hn]⟩

end Calculator

/-! ## Commands -/

namespace Command

open Bindings (Malformed)
open Calculator (Fault Defective calculate plain)
open Settings (HasTypes)

variable {traced asking : Bool} {text : String} {place : Settings.Place} {s : Settings}
  {vars : List (Option String)} {pairs answers : List String}

/-- A value is missing that the command comes to need: a pair, if none before it is malformed; the
seed; or the number of trials, if both expressions have a prefix form. -/
def Lacking : Command → Prop
  | .run _ vars _ => ∃ (pairs : List String) (rest : List (Option String)),
      vars = pairs.map some ++ none :: rest ∧ ∀ p ∈ pairs, ¬Malformed p
  | .compare text₁ text₂ trials seed => seed = .blank ∨ trials = .blank ∧
      ∃ text form₁ form₂, text₂ = some text ∧ calculate false text₁ = .ok form₁ ∧
        calculate false text = .ok form₂
  | .parse _ | .settings .. => False

theorem Lacking.blank {c : Command} (h : Lacking c) : c.Blank := by
  cases c with
  | run text vars asking =>
    obtain ⟨pairs, rest, rfl, -⟩ := h
    exact List.mem_append_right _ List.mem_cons_self
  | compare text₁ text₂ trials seed => exact h.symm.imp_left And.left
  | parse | settings => exact h

/-- The pairs before the first one that is missing, if one is. -/
theorem missing_cases (vars : List (Option String)) :
    (∃ pairs : List String, vars = pairs.map some) ∨
      ∃ (pairs : List String) (rest : List (Option String)),
        vars = pairs.map some ++ none :: rest := by
  induction vars with
  | nil => exact .inl ⟨[], rfl⟩
  | cons v vars ih =>
    cases v with
    | none => exact .inr ⟨[], vars, rfl⟩
    | some pair =>
      obtain ⟨pairs, rfl⟩ | ⟨pairs, rest, rfl⟩ := ih
      · exact .inl ⟨pair :: pairs, rfl⟩
      · exact .inr ⟨pair :: pairs, rest, rfl⟩

theorem defective_givenBindings_iff :
    Defective (givenBindings vars) ↔ ∃ (pairs : List String) (rest : List (Option String)),
      vars = pairs.map some ++ none :: rest ∧ ∀ p ∈ pairs, ¬Malformed p := by
  constructor
  · intro h
    obtain ⟨pairs, rfl⟩ | ⟨pairs, rest, rfl⟩ := missing_cases vars
    · rw [givenBindings_some] at h
      exact absurd h (Calculator.not_defective_plain _)
    · refine ⟨pairs, rest, rfl, Bindings.exists_ofPairs_iff.1 ?_⟩
      rw [givenBindings_append pairs rfl, Calculator.defective_bind] at h
      obtain ⟨b, hb, -⟩ := h.resolve_left (Calculator.not_defective_plain _)
      exact ⟨b, mapError_eq_ok.1 hb⟩
  · rintro ⟨pairs, rest, rfl, hpairs⟩
    obtain ⟨b, hb⟩ := Bindings.exists_ofPairs_iff.2 hpairs
    rw [givenBindings_append pairs rfl, hb]
    exact ⟨.noText, rfl⟩

/-- Asking for bindings adds no defect. -/
theorem defective_bindingsFor_iff (traced : Bool) (text : String) (vars : List (Option String))
    (asking : Bool) (answers : List String) :
    Defective ((bindingsFor traced text vars asking).answer answers).1 ↔
      Defective (givenBindings vars) := by
  unfold bindingsFor
  cases hgiven : givenBindings vars with
  | error f => exact Iff.rfl
  | ok b =>
    cases asking with
    | false => exact Iff.rfl
    | true =>
      dsimp only
      rw [if_pos rfl]
      refine iff_of_false ?_ (Calculator.not_defective_ok b)
      cases hnames : variablesOf traced text with
      | error f =>
        have hvariables : ¬Defective (variablesOf traced text) := by
          unfold variablesOf
          rw [Calculator.defective_bind, not_or]
          exact ⟨Calculator.not_defective_failure _, fun ⟨e, _, h⟩ => Calculator.not_defective_plain _ h⟩
        rw [hnames, Calculator.defective_error] at hvariables
        exact mt Calculator.defective_error.1 hvariables
      | ok names =>
        dsimp only
        rw [Interaction.answer_bind_pure]
        exact Calculator.not_defective_plain _

/-! ## Effects -/

theorem defective_printed {r : Except Fault (List String)} :
    Defective (Effect.printed place r).result ↔ Defective r := by
  cases r with
  | error f => exact Calculator.defective_error.trans Calculator.defective_error.symm
  | ok lines => exact iff_of_false (Calculator.not_defective_ok ()) (Calculator.not_defective_ok lines)

theorem place_printed (r : Except Fault (List String)) : (Effect.printed place r).place = place := by
  cases r <;> rfl

theorem not_defective_executeParse : ¬Defective (executeParse traced place text).result := by
  unfold executeParse
  rw [defective_printed, Calculator.defective_bind_pure]
  exact Calculator.not_defective_failure _

theorem defective_executeRun_iff :
    Defective ((executeRun traced place text vars asking).answer answers).1.result ↔
      Defective (givenBindings vars) := by
  rw [answer_executeRun, ← defective_bindingsFor_iff traced text vars asking answers]
  dsimp only
  rw [defective_printed, Calculator.defective_bind]
  refine or_iff_left ?_
  rintro ⟨b, -, h⟩
  rw [Calculator.defective_bind_pure] at h
  exact Calculator.not_defective_failure _ h

theorem not_defective_failed (place : Settings.Place) (f : Failure) :
    ¬Defective (Effect.printed place (.error (.failure f))).result := by
  rw [defective_printed]
  exact nofun

theorem defective_executeCompare_iff {text₁ : String} {text₂ : Option String} {trials : Given Int}
    {σ : Type} [Source σ] {source : σ} (hload : place.load = .ok s)
    (hs : HasTypes s) :
    Defective (executeCompare traced place text₁ text₂ trials source).result ↔
      trials = .blank ∧ ∃ text form₁ form₂, text₂ = some text ∧ calculate false text₁ = .ok form₁ ∧
        calculate false text = .ok form₂ := by
  unfold executeCompare
  cases h₁ : calculate traced text₁ with
  | error f =>
    refine iff_of_false (not_defective_failed place f) ?_
    rintro ⟨-, text, form₁, form₂, -, h, -⟩
    rw [← Calculator.calculate_traced traced, h₁] at h
    cases h
  | ok form₁ =>
    cases text₂ with
    | none =>
      refine iff_of_false (not_defective_failed place missingText) ?_
      rintro ⟨-, text, form₁, form₂, ⟨⟩, -⟩
    | some text₂ =>
      dsimp only
      cases h₂ : calculate traced text₂ with
      | error f =>
        refine iff_of_false (not_defective_failed place f) ?_
        rintro ⟨-, text, form₁, form₂, ⟨⟩, -, h⟩
        rw [← Calculator.calculate_traced traced, h₂] at h
        cases h
      | ok form₂ =>
        show Defective (Effect.printed place _).result ↔ _
        rw [defective_printed, Calculator.defective_bind_pure, hload,
          Calculator.defective_compare_iff hs h₁ h₂]
        rw [Calculator.calculate_traced] at h₁ h₂
        exact (and_iff_left ⟨text₂, form₁, form₂, rfl, h₁, h₂⟩).symm

theorem not_defective_executeSettings {key value : Option String} (hload : place.load = .ok s) :
    ¬Defective (executeSettings place key value).result := by
  unfold executeSettings
  rw [hload]
  dsimp only
  split
  next => exact Calculator.not_defective_ok ()
  next key =>
    split
    next =>
      rw [defective_printed]
      exact Calculator.not_defective_plain _
    next => exact Calculator.not_defective_ok ()
  next key raw =>
    split
    next =>
      rw [defective_printed]
      exact Calculator.not_defective_plain _
    next => exact Calculator.not_defective_ok ()

/-- With settings of the right types a command ends in a defect iff it misses a value that it comes
to need. -/
theorem defective_execute_iff (traced : Bool) (source : Twister) (c : Command)
    (answers : List String) (hload : place.load = .ok s)
    (hs : HasTypes s) :
    Defective ((c.execute traced place source).answer answers).1.result ↔ Lacking c := by
  cases c with
  | parse text => exact iff_of_false not_defective_executeParse id
  | run text vars asking => exact defective_executeRun_iff.trans defective_givenBindings_iff
  | compare text₁ text₂ trials seed =>
    cases seed with
    | blank => exact iff_of_true ⟨.wrongType, rfl⟩ (.inl rfl)
    | omitted => exact (defective_executeCompare_iff hload hs).trans (or_iff_right nofun).symm
    | value n => exact (defective_executeCompare_iff hload hs).trans (or_iff_right nofun).symm
  | settings key value => exact iff_of_false (not_defective_executeSettings hload) id

/-! ## The settings file -/

theorem place_after (line : String) (e : Effect) : (e.after line).place = e.place := rfl

theorem place_executeCompare {text₁ : String} {text₂ : Option String} {trials : Given Int}
    {σ : Type} [Source σ] {source : σ} :
    (executeCompare traced place text₁ text₂ trials source).place = place := by
  unfold executeCompare
  split
  next => exact place_printed _
  next => exact place_printed _
  next text₂ _ =>
    rw [place_after]
    cases calculate traced text₂ with
    | error f => exact place_printed _
    | ok form₂ => exact place_printed _

/-- The place of the settings stays as it is, unless a new value is set. -/
theorem place_executeSettings (place : Settings.Place) (key value : Option String) :
    (executeSettings place key value).place = place ∨ ∃ k raw, key = some k ∧ value = some raw ∧
      (executeSettings place key value).result = .ok () := by
  unfold executeSettings
  split
  next => exact .inl (place_printed _)
  next =>
    split
    next => exact .inl (place_printed _)
    next => split <;> exact .inl (place_printed _)
    next key raw =>
      split
      next => exact .inl (place_printed _)
      next => exact .inr ⟨key, raw, rfl, rfl, rfl⟩

/-- Only a command that sets a value changes the place of the settings, and it has no failure. -/
theorem place_execute (traced : Bool) (source : Twister) (c : Command) (answers : List String) :
    ((c.execute traced place source).answer answers).1.place = place ∨
      ∃ key raw, c = .settings (some key) (some raw) ∧
        ((c.execute traced place source).answer answers).1.result = .ok () := by
  cases c with
  | parse text => exact .inl (place_printed _)
  | run text vars asking =>
    refine .inl ?_
    show ((executeRun traced place text vars asking).answer answers).1.place = place
    rw [answer_executeRun]
    exact place_printed _
  | compare text₁ text₂ trials seed =>
    cases seed with
    | blank => exact .inl rfl
    | omitted | value => exact .inl place_executeCompare
  | settings key value =>
    obtain hplace | ⟨k, raw, rfl, rfl, hresult⟩ := place_executeSettings place key value
    · exact .inl hplace
    · exact .inr ⟨k, raw, rfl, hresult⟩

end Command

-- What is read from given arguments can be decided.
deriving instance DecidableEq for Command

deriving instance DecidableEq for Invocation

/-! ## Outcomes -/

open Calculator (Defective)
open Command (BlankValue Lacking)
open Settings (Place WellTyped)

theorem Effect.defect_outcome_iff (e : Effect) :
    (∃ d, e.outcome.ending = .defect d) ↔ Defective e.result := by
  obtain ⟨lines, result, place⟩ := e
  cases result with
  | ok => exact iff_of_false nofun (Calculator.not_defective_ok _)
  | error f =>
    cases f with
    | failure f => exact iff_of_false nofun nofun
    | defect d => exact iff_of_true ⟨d, rfl⟩ ⟨d, rfl⟩

/-- A command without a defect ends with the status that tells whether it has a failure. -/
theorem Effect.outcome_cases {e : Effect} (h : ¬Defective e.result) :
    e.result = .ok () ∧ e.outcome.ending = .status 0 ∧ e.outcome.lines = e.lines ∨
      ∃ f, e.result = .error (.failure f) ∧ e.outcome.ending = .status 1 ∧
        Reported f e.lines e.outcome.lines := by
  obtain ⟨lines, result, place⟩ := e
  cases result with
  | ok => exact .inl ⟨rfl, rfl, rfl⟩
  | error f =>
    cases f with
    | failure f => exact .inr ⟨f, rfl, rfl, reported_append_lines f lines⟩
    | defect d => exact absurd ⟨d, rfl⟩ h

theorem Effect.place_outcome (e : Effect) : e.outcome.place = e.place := by
  unfold outcome
  split <;> rfl

theorem Effect.status_of_ok {e : Effect} (h : e.result = .ok ()) : e.outcome.ending = .status 0 := by
  unfold outcome
  rw [h]

namespace Invocation

variable {i : Invocation} {place : Place} {traced : Bool} {d : Defect} {file : Option String}

theorem exists_isTraced {s : Settings} (h : place.load = .ok s) (i : Invocation) :
    ∃ traced, i.isTraced place = .ok traced := by
  unfold isTraced
  rw [h]
  split
  · exact ⟨_, rfl⟩
  · exact ⟨_, rfl⟩

theorem answer_execute (h : i.isTraced place = .ok traced) (source : Twister)
    (answers : List String) :
    (i.execute place source).answer answers =
      (((i.command.execute traced place source).answer answers).1.outcome,
        ((i.command.execute traced place source).answer answers).2) := by
  unfold execute
  rw [h]
  exact Interaction.answer_bind_pure _ _ answers

/-- Settings that cannot be loaded are a defect before anything is done. -/
theorem execute_of_load_error (h : place.load = .error d) (hdebug : i.debug = false)
    (source : Twister) : i.execute place source = .done ⟨.defect d, [], place⟩ := by
  unfold execute isTraced
  rw [hdebug, h]
  rfl

theorem defect_execute_iff (h : WellTyped file) (source : Twister) (answers : List String) :
    (∃ d, ((i.execute (.file file) source).answer answers).1.ending = .defect d) ↔
      Lacking i.command := by
  obtain ⟨s, hload, hs⟩ := h.load
  obtain ⟨traced, htraced⟩ := exists_isTraced hload i
  rw [answer_execute htraced, Effect.defect_outcome_iff]
  exact Command.defective_execute_iff traced source i.command answers hload hs

/-- With a well-typed settings file a command ends in a defect iff it misses a value that it comes
to need, and then one of the arguments holds two minus signs in place of that value. Otherwise it
ends with status zero if it has no failure, and if it has one, with status one and a report of it
after all else that is printed. The file stays as it is, unless the command sets a value and ends
with status zero. Settings that cannot be loaded are a defect of every command that is not told to
be traced. -/
theorem execute_ends {args : List String} (hread : Invocation.read args = .ok i)
    (source : Twister) (answers : List String) :
    (∀ file, WellTyped file → ∃ traced e questions,
      (i.command.execute traced (.file file) source).answer answers = (e, questions) ∧
      (i.execute (.file file) source).answer answers = (e.outcome, questions) ∧
      ((∃ d, e.outcome.ending = .defect d) ↔ Lacking i.command) ∧
      (Lacking i.command → ∃ arg ∈ args, BlankValue arg) ∧
      (¬Lacking i.command →
        e.result = .ok () ∧ e.outcome.ending = .status 0 ∧ e.outcome.lines = e.lines ∨
        ∃ f, e.result = .error (.failure f) ∧ e.outcome.ending = .status 1 ∧
          Reported f e.lines e.outcome.lines) ∧
      (e.outcome.place = .file file ∨ ∃ key raw, i.command = .settings (some key) (some raw) ∧
        e.outcome.ending = .status 0)) ∧
    ∀ file d, (Place.file file).load = .error d → i.debug = false →
      (i.execute (.file file) source).answer answers = (⟨.defect d, [], .file file⟩, []) := by
  refine ⟨fun file hfile => ?_, fun file d hload hdebug => ?_⟩
  · obtain ⟨s, hload, -⟩ := hfile.load
    obtain ⟨traced, htraced⟩ := exists_isTraced hload i
    have hdefect := defect_execute_iff (i := i) hfile source answers
    rw [answer_execute htraced] at hdefect
    refine ⟨traced, _, _, rfl, answer_execute htraced source answers, hdefect,
      fun h => Command.exists_blankValue hread h.blank, fun h => ?_, ?_⟩
    · rw [← hdefect, Effect.defect_outcome_iff] at h
      exact Effect.outcome_cases h
    · rw [Effect.place_outcome]
      refine (Command.place_execute traced source i.command answers).imp_right ?_
      exact fun ⟨key, raw, hc, hok⟩ => ⟨key, raw, hc, Effect.status_of_ok hok⟩
  · rw [execute_of_load_error hload hdebug]
    rfl

/-- A number of trials is missing and not needed, since an expression is not parsed: this failure is
reported. -/
theorem execute_ends_unparsed :
    ∃ i o f, Invocation.read ["compare", "(", "1", "--trials=--"] = .ok i ∧ i.command.Blank ∧
      WellTyped none ∧ (i.execute (.file none) (Twister.ofSeed 0)).answer [] = (o, []) ∧
      o.ending = .status 1 ∧ Reported f [] o.lines ∧ o.place = .file none := by
  have hread : Invocation.read ["compare", "(", "1", "--trials=--"] =
      .ok ⟨false, .compare "(" (some "1") .blank .omitted⟩ := by decide +kernel
  have hfile : WellTyped none := Settings.wellTyped_of_nothing .missing
  obtain ⟨f₀, hf₀⟩ : ∃ f, Calculator.calculate false "(" = .error f := by
    have hnone : (Calculator.calculate false "(").toOption.isNone := by decide +kernel
    cases h : Calculator.calculate false "(" with
    | error f => exact ⟨f, rfl⟩
    | ok form => rw [h] at hnone; cases hnone
  have hlacking : ¬Lacking (.compare "(" (some "1") .blank .omitted) := by
    rintro (⟨⟨⟩⟩ | ⟨-, text, form₁, form₂, -, hform, -⟩)
    rw [hf₀] at hform
    cases hform
  obtain ⟨traced, e, questions, he, hanswer, -, -, hends, hplace⟩ :=
    (execute_ends hread (Twister.ofSeed 0) []).1 none hfile
  have heffect : (e, questions) = (⟨[], .error (.failure f₀), .file none⟩, []) := by
    rw [← he]
    show (Command.executeCompare traced _ "(" _ _ (Twister.ofSeed 0), _) = _
    unfold Command.executeCompare
    rw [Calculator.calculate_traced traced "(", hf₀]
    rfl
  cases heffect
  obtain ⟨⟨⟩, -⟩ | ⟨f, -, hstatus, hreport⟩ := hends hlacking
  obtain hplace | ⟨key, raw, ⟨⟩, -⟩ := hplace
  exact ⟨_, _, f, hread, .inl rfl, hfile, hanswer, hstatus, hreport, hplace⟩

/-- Three commands that end in defects: a number of trials and a pair are missing, and the settings
are nested too deeply in a file where no list is closed. -/
theorem execute_blank :
    (∃ i, Invocation.read ["compare", "1", "1", "--trials=--"] = .ok i ∧ ∀ source answers,
      ∃ d, ((i.execute (.file none) source).answer answers).1.ending = .defect d) ∧
    (∃ i, Invocation.read ["run", "x", "--var=--"] = .ok i ∧ ∀ source answers,
      ∃ d, ((i.execute (.file none) source).answer answers).1.ending = .defect d) ∧
    ∃ i, Invocation.read ["parse", "1"] = .ok i ∧ ∀ source answers,
      ((i.execute (.file (some (String.ofList (List.replicate 1000 '[')))) source).answer
        answers).1.ending = .defect .tooDeep := by
  have hfile : WellTyped none := Settings.wellTyped_of_nothing .missing
  refine ⟨⟨⟨false, .compare "1" (some "1") .blank .omitted⟩, by decide +kernel, fun source answers =>
    (defect_execute_iff hfile source answers).2 (.inr ⟨rfl, "1", ?_⟩)⟩,
    ⟨⟨false, .run "x" [none] true⟩, by decide +kernel, fun source answers =>
      (defect_execute_iff hfile source answers).2 ⟨[], [], rfl, List.forall_mem_nil _⟩⟩,
    ⟨false, .parse "1"⟩, by decide +kernel, fun source answers => ?_⟩
  · obtain ⟨form, hform⟩ : ∃ form, Calculator.calculate false "1" = .ok form :=
      exists_ok_of_isSome (by decide +kernel)
    exact ⟨form, form, rfl, hform, hform⟩
  · have hdeep := Settings.load_nested (n := 1000) (by decide) []
    rw [List.append_nil] at hdeep
    rw [execute_of_load_error hdeep rfl]
    rfl

end Invocation

end ComplexExpr
