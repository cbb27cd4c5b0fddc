import ComplexExpr.Proofs.Command.Endings
import ComplexExpr.Proofs.Expr.Divisors

/-!
# Depth

An expression that has a prefix form is not too deep for anything else. The
frames of evaluation are those of the prefix form, with one more below a
division for each frame that its divisor's text takes, and that text is written
where the divisor was evaluated: `e.frames` frames suffice for all of it
(`kind_ne_tooDeep_of_frames`). Collecting variables takes no more frames than
the prefix form. Main statement:

* `render_suffices`: what holds of an expression that has a prefix form, and of
  a comparison whose two prefix forms have been printed.
-/

namespace ComplexExpr

variable {c : Cause}

/-- An operation on values does not fail on depth. -/
theorem BinaryOp.kind_ne_tooDeep {op : BinaryOp} {z w : Value} (h : op.apply z w = .error c) :
    c.kind ≠ .tooDeep := by
  obtain ⟨-, rfl⟩ | ⟨-, rfl⟩ := cause_of_apply h
  · exact nofun
  · exact nofun

namespace Expr

variable {e : Expr} {b : Bindings} {room : ℕ}

theorem zeroDivision_of_le (h : e.frames ≤ room) :
    e.zeroDivision room = .zeroDivisor e.prefixForm :=
  if_pos h

/-- Where the frames suffice for the prefix form of an expression, they suffice for its value, and
for the text of each of its divisors. -/
theorem kind_ne_tooDeep_of_frames (hroom : e.frames ≤ room)
    (h : e.evaluateWithin b room = .error c) : c.kind ≠ .tooDeep := by
  induction e using Expr.induct generalizing room with
  | literal z =>
    obtain ⟨n, rfl⟩ := exists_succ_of_frames_le hroom
    rw [evaluateWithin_literal] at h
    cases h
  | var x =>
    obtain ⟨n, rfl⟩ := exists_succ_of_frames_le hroom
    rw [evaluateWithin] at h
    exact Bindings.kind_ne_of_value h (by decide)
  | negate e ih =>
    obtain ⟨n, rfl⟩ := exists_succ_of_frames_le hroom
    rw [evaluateWithin_negate] at h
    exact ih (Nat.le_of_succ_le_succ hroom) (error_of_map h)
  | binary op l r ihl ihr =>
    obtain ⟨n, rfl⟩ := exists_succ_of_frames_le hroom
    rw [frames] at hroom
    have hl : l.frames ≤ n := by omega
    have hr : r.frames ≤ n := by omega
    obtain h | h | ⟨-, w, -, -, rfl⟩ | ⟨z, w, -, -, h⟩ := error_of_binary h
    · exact ihl hl h
    · exact ihr hr h
    · rw [zeroDivision_of_le hr]
      intro hkind
      cases hkind
    · exact BinaryOp.kind_ne_tooDeep h
  | call f es ih =>
    rw [frames] at hroom
    obtain ⟨n, rfl⟩ : ∃ n, room = n + 2 := ⟨room - 2, by omega⟩
    rw [evaluateWithin_call] at h
    obtain h | ⟨zs, -, h⟩ := error_of_bind h
    · obtain ⟨e, he, h⟩ := error_of_evaluateAll h
      have hargs := frames_le_framesAll he
      exact ih e he (by omega) h
    · exact Builtin.kind_ne_of_call h (by decide)

/-- No bindings make an expression with a prefix form too deep. -/
theorem kind_ne_tooDeep_of_render {form : String} (h : e.renderWithin room = .ok form)
    (hc : e.evaluateWithin b room = .error c) : c.kind ≠ .tooDeep :=
  kind_ne_tooDeep_of_frames (renderWithin_eq_ok_iff.1 h).1 hc

end Expr

/-! ## Comparisons -/

namespace Calculator

variable {σ : Type} [Source σ] {traced : Bool} {text text₁ text₂ form form₁ form₂ : String}
  {s : Settings} {trials : Given Int} {source : σ} {e₁ e₂ : Expr} {f : Fault}

theorem exists_render_of_calculate (h : calculate traced text = .ok form) :
    ∃ e, parse traced text = .ok e ∧ e.render = .ok form :=
  ok_of_bind (mapError_eq_ok.1 h)

/-! No parameter of a comparison is a defect of depth. -/

theorem trialCount_ne_tooDeep : trialCount s trials ≠ .error .tooDeep := by
  unfold trialCount
  split
  · exact nofun
  · exact nofun
  · split <;> exact nofun

theorem toFloat_ne_tooDeep (v : Json) : Settings.toFloat v ≠ .error .tooDeep := by
  unfold Settings.toFloat
  split <;> exact nofun

theorem sampleRange_ne_tooDeep {count : TrialCount} {names : NameSet} :
    sampleRange s count names ≠ .error .tooDeep := by
  have hrange : Settings.toRange (s.value "sample_range") ≠ .error .tooDeep := by
    unfold Settings.toRange
    split
    · split <;> exact nofun
    · exact toFloat_ne_tooDeep _
  unfold sampleRange
  split
  next => exact nofun
  next d hd =>
    split
    · rwa [← hd]
    · exact nofun

theorem toBound_ne_tooDeep (v : Json) : Settings.toBound v ≠ .error .tooDeep := by
  unfold Settings.toBound
  split
  · exact nofun
  · exact toFloat_ne_tooDeep _

/-- What goes wrong with the comparison of two expressions that have prefix forms is a defect of a
parameter. -/
theorem defect_of_compareWith (h₁ : e₁.render = .ok form₁) (h₂ : e₂.render = .ok form₂)
    (h : compareWith s trials e₁ e₂ source = .error f) : ∃ d, f = .defect d ∧ d ≠ .tooDeep := by
  have hdefect {α : Type} {r : Except Defect α} (hr : r ≠ .error .tooDeep)
      (h : r.mapError Fault.defect = .error f) : ∃ d, f = .defect d ∧ d ≠ .tooDeep := by
    obtain ⟨d, rfl, rfl⟩ := error_of_mapError h
    exact ⟨d, rfl, fun hd => hr (congrArg Except.error hd)⟩
  rw [compareWith_of_freeVariables (Expr.freeVariables_of_render h₁)
    (Expr.freeVariables_of_render h₂)] at h
  obtain h | ⟨count, -, h⟩ := error_of_bind h
  · exact hdefect trialCount_ne_tooDeep h
  · obtain h | ⟨range, -, h⟩ := error_of_bind h
    · exact hdefect sampleRange_ne_tooDeep h
    · have hbound := toBound_ne_tooDeep (s.value "equivalence_epsilon")
      unfold verdict withoutEpsilon at h
      split at h
      next => cases h
      next d hd =>
        split at h <;> cases h
        refine ⟨d, rfl, ?_⟩
        rintro rfl
        exact hbound hd

end Calculator

namespace Command

open Calculator (Fault calculate)

variable {σ : Type} [Source σ] {traced : Bool} {place : Settings.Place} {text₁ form₁ form₂ : String}
  {text₂ : Option String} {trials : Given Int} {source : σ} {rest : List String}

/-- A comparison that has printed two prefix forms has found them, and goes on to compare. -/
theorem executeCompare_printed
    (h : (executeCompare traced place text₁ text₂ trials source).lines =
      ("(expr1) " ++ form₁) :: ("(expr2) " ++ form₂) :: rest) :
    ∃ t₂, text₂ = some t₂ ∧ calculate traced text₁ = .ok form₁ ∧ calculate traced t₂ = .ok form₂ ∧
      ∀ f, (executeCompare traced place text₁ text₂ trials source).result = .error f →
        Calculator.compare traced place.load text₁ t₂ trials source = .error f := by
  unfold executeCompare at h ⊢
  cases h₁ : calculate traced text₁ with
  | error f => rw [h₁] at h; cases h
  | ok f₁ =>
    rw [h₁] at h
    cases text₂ with
    | none => exact nomatch (List.cons.inj h).2
    | some t₂ =>
      dsimp only at h ⊢
      cases h₂ : calculate traced t₂ with
      | error f => rw [h₂] at h; exact nomatch (List.cons.inj h).2
      | ok f₂ =>
        rw [h₂] at h
        obtain ⟨hform₁, h⟩ := List.cons.inj h
        obtain ⟨hform₂, -⟩ := List.cons.inj h
        obtain rfl := (String.append_right_inj _).1 hform₁
        obtain rfl := (String.append_right_inj _).1 hform₂
        refine ⟨t₂, rfl, rfl, h₂, fun f hf => ?_⟩
        cases hv : Calculator.compare traced place.load text₁ t₂ trials source with
        | error f' => rw [hv] at hf; cases hf; rfl
        | ok v => rw [hv] at hf; cases hf

/-- Within any number of frames, if an expression has a prefix form, its variables can be collected,
and its evaluation does not fail on depth, whatever its variables are bound to. So within the frames
of the program, a comparison that has printed two prefix forms does not fail but for a defect of its
parameters or of the settings, of which only the nesting of the settings file is one of depth, and
no trial fails because an expression is too deep. -/
theorem render_suffices :
    (∀ (room : ℕ) (e : Expr) form, e.renderWithin room = .ok form →
      (∃ names, e.freeVariablesWithin room = .ok names) ∧
      ∀ b c, e.evaluateWithin b room = .error c → c.kind ≠ .tooDeep) ∧
    ∀ traced place (source : Twister) answers text₁ text₂ trials seed effect questions form₁ form₂
      rest, ((compare text₁ text₂ trials seed).execute traced place source).answer answers =
        (effect, questions) →
      effect.lines = ("(expr1) " ++ form₁) :: ("(expr2) " ++ form₂) :: rest →
      (∀ f, effect.result = .error f →
        ∃ d, f = .defect d ∧ (d = .tooDeep → place.load = .error .tooDeep)) ∧
      ∃ t₂ e₁ e₂, text₂ = some t₂ ∧
        Calculator.parse traced text₁ = .ok e₁ ∧ e₁.render = .ok form₁ ∧
        Calculator.parse traced t₂ = .ok e₂ ∧ e₂.render = .ok form₂ ∧
        ∀ b c, e₁.evaluate b = .error c ∨ e₂.evaluate b = .error c → c.kind ≠ .tooDeep := by
  refine ⟨fun room e form h => ⟨⟨_, Expr.freeVariables_of_render h⟩, fun b c =>
    Expr.kind_ne_tooDeep_of_render h⟩, ?_⟩
  intro traced place source answers text₁ text₂ trials seed effect questions form₁ form₂ rest
    hanswer hlines
  obtain ⟨s, heffect⟩ : ∃ s : Twister,
      effect = executeCompare traced place text₁ text₂ trials s := by
    cases seed with
    | omitted | value => exact ⟨_, (congrArg Prod.fst hanswer).symm⟩
    | blank =>
      have heffect : effect = _ := (congrArg Prod.fst hanswer).symm
      rw [heffect] at hlines
      cases hlines
  rw [heffect] at hlines ⊢
  obtain ⟨t₂, rfl, h₁, h₂, hresult⟩ := executeCompare_printed hlines
  obtain ⟨e₁, hparse₁, hform₁⟩ := Calculator.exists_render_of_calculate h₁
  obtain ⟨e₂, hparse₂, hform₂⟩ := Calculator.exists_render_of_calculate h₂
  refine ⟨fun f hf => ?_, t₂, e₁, e₂, rfl, hparse₁, hform₁, hparse₂, hform₂, fun b c hc => ?_⟩
  · have hcompare := hresult f hf
    cases hload : place.load with
    | error d =>
      rw [hload] at hcompare
      cases hcompare
      exact ⟨d, rfl, fun hd => by rw [hd]⟩
    | ok settings =>
      rw [hload, Calculator.compare_of_parse hparse₁ hparse₂] at hcompare
      obtain ⟨d, rfl, hd⟩ := Calculator.defect_of_compareWith hform₁ hform₂ hcompare
      exact ⟨d, rfl, fun h => absurd h hd⟩
  · rcases hc with hc | hc
    · exact Expr.kind_ne_tooDeep_of_render hform₁ hc
    · exact Expr.kind_ne_tooDeep_of_render hform₂ hc

/-- Zero under `n` signs. -/
def negatedZero : ℕ → Expr
  | 0 => .literal ⟨0.0, 0.0⟩
  | n + 1 => .negate (negatedZero n)

theorem frames_negatedZero (n : ℕ) : (negatedZero n).frames = n + 1 := by
  induction n with
  | zero => rfl
  | succ n ih => rw [negatedZero, Expr.frames, ih]

theorem evaluateWithin_negatedZero (b : Bindings) (n : ℕ) :
    ∃ z, (negatedZero n).evaluateWithin b (n + 1) = .ok z ∧ z.isZero = true := by
  suffices h : ∃ z, (negatedZero n).evaluateWithin b (n + 1) = .ok z ∧
      (z = ⟨0.0, 0.0⟩ ∨ z = ⟨-0.0, -0.0⟩) by
    obtain ⟨z, hz, rfl | rfl⟩ := h
    · exact ⟨_, hz, by decide +kernel⟩
    · exact ⟨_, hz, by decide +kernel⟩
  have hneg : (-(-0.0) : Float) = 0.0 := rfl
  induction n with
  | zero => exact ⟨_, Expr.evaluateWithin_literal _, .inl rfl⟩
  | succ n ih =>
    obtain ⟨z, hz, hzero⟩ := ih
    rw [negatedZero, Expr.evaluateWithin_negate, hz]
    refine ⟨z.neg, rfl, hzero.symm.imp ?_ ?_⟩
    · rintro rfl
      rw [Value.neg, hneg]
    · rintro rfl
      rfl

/-- One divided by zero under 983 signs takes all frames, and its divisor is written in the last of
them; a comparison of `1 / x` with `x` prints both prefix forms. -/
theorem render_suffices_edge :
    (∃ form c, (Expr.binary .div (.literal ⟨1.0, 0.0⟩) (negatedZero 983)).render = .ok form ∧
      (Expr.binary .div (.literal ⟨1.0, 0.0⟩) (negatedZero 983)).evaluate .empty = .error c ∧
      c.kind ≠ .tooDeep) ∧
    ∃ effect form₁ form₂ rest,
      ((compare "1/x" (some "x") .omitted (.value 3)).execute false (.file none)
        (Twister.ofSeed 0)).answer [] = (effect, []) ∧
      effect.lines = ("(expr1) " ++ form₁) :: ("(expr2) " ++ form₂) :: rest ∧
      ∀ f, effect.result = .error f → ∃ d, f = .defect d := by
  refine ⟨?_, ?_⟩
  · have hframes : (Expr.binary .div (.literal ⟨1.0, 0.0⟩) (negatedZero 983)).frames = 985 := by
      rw [Expr.frames, frames_negatedZero]
      rfl
    have hrender : (Expr.binary .div (.literal ⟨1.0, 0.0⟩) (negatedZero 983)).render = .ok _ :=
      Expr.renderWithin_eq_ok_iff.2 ⟨hframes.le, rfl⟩
    obtain ⟨z, hz, hzero⟩ := evaluateWithin_negatedZero .empty 983
    have hfails : (Expr.binary .div (.literal ⟨1.0, 0.0⟩) (negatedZero 983)).evaluate .empty =
        .error ((negatedZero 983).zeroDivision 984) := by
      show Expr.evaluateWithin _ (984 + 1) _ = _
      rw [Expr.evaluateWithin_div, hz]
      show (if z.isZero = true then _ else _) = _
      rw [hzero]
      rfl
    exact ⟨_, _, hrender, hfails, (render_suffices.1 _ _ _ hrender).2 _ _ hfails⟩
  · obtain ⟨form₁, h₁⟩ : ∃ form, calculate false "1/x" = .ok form :=
      exists_ok_of_isSome (by decide +kernel)
    obtain ⟨form₂, h₂⟩ : ∃ form, calculate false "x" = .ok form :=
      exists_ok_of_isSome (by decide +kernel)
    obtain ⟨rest, hlines⟩ : ∃ rest, (executeCompare false (.file none) "1/x" (some "x") .omitted
        (Twister.ofSeed 3)).lines = ("(expr1) " ++ form₁) :: ("(expr2) " ++ form₂) :: rest := by
      unfold executeCompare
      rw [h₁]
      dsimp only
      rw [h₂]
      exact ⟨_, rfl⟩
    obtain ⟨hresult, -⟩ := render_suffices.2 false (.file none) (Twister.ofSeed 0) [] "1/x"
      (some "x") .omitted (.value 3) _ _ _ _ _ rfl hlines
    exact ⟨_, form₁, form₂, rest, rfl, hlines, fun f hf => (hresult f hf).imp fun d hd => hd.1⟩

end Command

end ComplexExpr
