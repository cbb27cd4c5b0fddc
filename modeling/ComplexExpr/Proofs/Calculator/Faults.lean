import ComplexExpr.Proofs.Calculator.Literals
import ComplexExpr.Proofs.Calculator.Priority
import ComplexExpr.Proofs.Expr.Derivation
import ComplexExpr.Proofs.Expr.Spread
import ComplexExpr.Proofs.Expr.Verdicts
import ComplexExpr.Proofs.Results

/-!
# Whose text a fault carries

A failure to write an expression in prefix form, or to evaluate it, carries its
text. A comparison may end in a defect as well, and what goes wrong after both
its texts are parsed carries neither of them (`not_carries_of_compareWith`): an
expression is too deep for its variables to be collected, or a parameter is of
no use where it is needed. `Comparable` says that nothing of this happens
(`exists_compareWith_iff`). Main statements:

* `faults_carry_text`: which faults carry a text, for all three;
* `compare_without_text`: two comparisons that end in a fault without a text, for
  the depth of an expression and for a settings file that cannot be used.
-/

namespace ComplexExpr.Calculator

open ComplexExpr.Expr (Fails compareFrom frameLimit)

variable {σ : Type} [Source σ] {s : Settings} {trials : Given Int} {e₁ e₂ : Expr} {source : σ}
  {n₁ n₂ names : NameSet} {count : TrialCount} {range : Float} {f : Fault}

/-- A fault is a failure that carries one of these texts. -/
def Fault.Carries (texts : List String) : Fault → Prop
  | .failure f => ∃ text ∈ texts, f.equation = some text
  | .defect _ => False

/-! ## Texts -/

theorem defect_of_mapError {α : Type} {r : Except Defect α}
    (h : r.mapError Fault.defect = .error f) : ∃ d, f = .defect d := by
  obtain ⟨d, -, rfl⟩ := error_of_mapError h
  exact ⟨d, rfl⟩

/-! ## Stages of a comparison -/

/-- The largest part of a sampled value. It need not be of use if nothing is sampled. -/
def sampleRange (s : Settings) (count : TrialCount) (names : NameSet) : Except Defect Float :=
  match Settings.toRange (s.value "sample_range") with
  | .ok r => .ok r
  | .error d => if 0 < count.toInt ∧ names.names ≠ [] then .error d else .ok 0.0

/-- The verdict of all trials. Epsilon need not be of use if no trial gives two values. -/
def verdict (epsilon : Except Defect Float) (count : TrialCount) (range : Float) (e₁ e₂ : Expr)
    (names : NameSet) (source : σ) : Except Fault Verdict :=
  match epsilon with
  | .ok ε => .ok (compareFrom ⟨count, range, ε⟩ e₁ e₂ names count.toInt.toNat 0 0 source)
  | .error d =>
    withoutEpsilon d (compareFrom ⟨count, range, 0.0⟩ e₁ e₂ names count.toInt.toNat 0 0 source)

theorem compareWith_of_freeVariables (h₁ : e₁.freeVariables = .ok n₁)
    (h₂ : e₂.freeVariables = .ok n₂) :
    compareWith s trials e₁ e₂ source = (do
      let count ← (trialCount s trials).mapError Fault.defect
      let range ← (sampleRange s count (n₁ ∪ n₂)).mapError Fault.defect
      verdict (Settings.toBound (s.value "equivalence_epsilon")) count range e₁ e₂ (n₁ ∪ n₂)
        source) := by
  have hcompare (p : Trials) := Expr.compare_of_freeVariables (p := p) (s := source) h₁ h₂
  unfold compareWith sampleRange verdict
  simp only [hcompare, h₁, h₂]
  cases trialCount s trials with
  | error d => rfl
  | ok count =>
    cases Settings.toRange (s.value "sample_range") with
    | ok r => cases Settings.toBound (s.value "equivalence_epsilon") <;> rfl
    | error d =>
      by_cases hsampled : 0 < count.toInt ∧ (n₁ ∪ n₂).names ≠ []
      · simp only [plain, Except.mapError, bind, Except.bind, if_pos hsampled]
        rfl
      · simp only [plain, Except.mapError, bind, Except.bind, if_neg hsampled]
        cases Settings.toBound (s.value "equivalence_epsilon") <;> rfl

theorem compareWith_of_lt (h : frameLimit < e₁.height ∨ frameLimit < e₂.height) :
    compareWith s trials e₁ e₂ source = .error (.failure ⟨.tooDeep .collect, none⟩) := by
  unfold compareWith
  by_cases h₁ : e₁.height ≤ frameLimit
  · rw [Expr.freeVariables_of_le h₁, Expr.freeVariables_of_lt (h.resolve_left (Nat.not_lt.2 h₁))]
    rfl
  · rw [Expr.freeVariables_of_lt (Nat.not_le.1 h₁)]
    rfl

/-- There is a verdict if epsilon is of use, or if each trial has an expression without a value. -/
theorem exists_verdict_iff {epsilon : Except Defect Float} :
    (∃ v, verdict epsilon count range e₁ e₂ names source = .ok v) ↔
      (∃ ε, epsilon = .ok ε) ∨
        ∀ k : ℕ, (k : ℤ) < count.toInt → Fails e₁ e₂ (Sample.nth names range source k) := by
  cases epsilon with
  | ok ε => exact iff_of_true ⟨_, rfl⟩ (.inl ⟨ε, rfl⟩)
  | error d =>
    have hepsilon : ¬∃ ε, Except.error d = (.ok ε : Except Defect Float) := nofun
    rw [or_iff_right hepsilon, verdict]
    -- an epsilon of zero stands in: with it, each trial with two values is a counterexample
    obtain ⟨hagree, n, heq⟩ | ⟨⟨k, hk, hdisagrees⟩, b, v₁, v₂, m, n, heq⟩ :=
      Expr.compareFrom_cases ⟨count, range, 0.0⟩ e₁ e₂ names count.toInt.toNat 0 0 source
    · refine iff_of_true ⟨.equivalent count n, by rw [heq]; rfl⟩ fun k hk => ?_
      exact not_not.1 (mt Expr.disagrees_zero_iff.2 (hagree k (Int.lt_toNat.2 hk)))
    · refine iff_of_false ?_ fun h =>
        Expr.disagrees_zero_iff.1 hdisagrees (h k (Int.lt_toNat.1 hk))
      rintro ⟨v, hv⟩
      rw [heq] at hv
      cases hv

theorem defect_of_verdict {epsilon : Except Defect Float}
    (h : verdict epsilon count range e₁ e₂ names source = .error f) : ∃ d, f = .defect d := by
  unfold verdict withoutEpsilon at h
  split at h
  · cases h
  · split at h
    · cases h
      exact ⟨_, rfl⟩
    · cases h

/-- What a comparison needs: the variables of both expressions can be collected, and each
parameter is of use or is not needed. -/
def Comparable (s : Settings) (trials : Given Int) (e₁ e₂ : Expr) (source : σ) : Prop :=
  ∃ n₁ n₂ count range, e₁.freeVariables = .ok n₁ ∧ e₂.freeVariables = .ok n₂ ∧
    trialCount s trials = .ok count ∧ sampleRange s count (n₁ ∪ n₂) = .ok range ∧
    ((∃ ε, Settings.toBound (s.value "equivalence_epsilon") = .ok ε) ∨
      ∀ k : ℕ, (k : ℤ) < count.toInt → Fails e₁ e₂ (Sample.nth (n₁ ∪ n₂) range source k))

theorem exists_compareWith_iff :
    (∃ v, compareWith s trials e₁ e₂ source = .ok v) ↔ Comparable s trials e₁ e₂ source := by
  constructor
  · rintro ⟨v, h⟩
    obtain ⟨h₁, h₂⟩ | hdeep := Expr.freeVariables_cases e₁ e₂
    · rw [compareWith_of_freeVariables h₁ h₂] at h
      obtain ⟨count, hcount, h⟩ := ok_of_bind h
      obtain ⟨range, hrange, h⟩ := ok_of_bind h
      exact ⟨_, _, count, range, h₁, h₂, mapError_eq_ok.1 hcount, mapError_eq_ok.1 hrange,
        exists_verdict_iff.1 ⟨v, h⟩⟩
    · rw [compareWith_of_lt hdeep] at h
      cases h
  · rintro ⟨n₁, n₂, count, range, h₁, h₂, hcount, hrange, h⟩
    rw [compareWith_of_freeVariables h₁ h₂, hcount]
    show ∃ v, ((sampleRange s count (n₁ ∪ n₂)).mapError Fault.defect >>= fun range => _) = .ok v
    rw [hrange]
    exact exists_verdict_iff.2 h

/-- Once both texts are parsed, no fault carries one of them. -/
theorem not_carries_of_compareWith (h : compareWith s trials e₁ e₂ source = .error f)
    (texts : List String) : ¬f.Carries texts := by
  obtain ⟨h₁, h₂⟩ | hdeep := Expr.freeVariables_cases e₁ e₂
  · suffices hdefect : ∃ d, f = .defect d by
      obtain ⟨d, rfl⟩ := hdefect
      exact id
    rw [compareWith_of_freeVariables h₁ h₂] at h
    obtain h | ⟨count, -, h⟩ := error_of_bind h
    · exact defect_of_mapError h
    · obtain h | ⟨range, -, h⟩ := error_of_bind h
      · exact defect_of_mapError h
      · exact defect_of_verdict h
  · rw [compareWith_of_lt hdeep] at h
    cases h
    rintro ⟨text, -, ht⟩
    cases ht

/-! ## Whole comparisons -/

variable {traced : Bool} {settings : Except Defect Settings} {text₁ text₂ : String} {c : Cause}

theorem compare_of_parse (h₁ : parse traced text₁ = .ok e₁) (h₂ : parse traced text₂ = .ok e₂) :
    compare traced (.ok s) text₁ text₂ trials source = compareWith s trials e₁ e₂ source := by
  unfold compare
  rw [h₁, h₂]
  rfl

theorem compare_of_parse_error (h : parse traced text₁ = .error c) :
    compare traced (.ok s) text₁ text₂ trials source = .error (.failure ⟨c, some text₁⟩) := by
  unfold compare
  rw [h]
  rfl

theorem compare_of_parse_second_error (h₁ : parse traced text₁ = .ok e₁)
    (h₂ : parse traced text₂ = .error c) :
    compare traced (.ok s) text₁ text₂ trials source = .error (.failure ⟨c, some text₂⟩) := by
  unfold compare
  rw [h₁, h₂]
  rfl

/-- All faults of a comparison carry one of its texts iff the settings can be loaded and, if both
texts can be parsed, the expressions can be compared. -/
theorem forall_carries_compare_iff :
    (∀ f, compare traced settings text₁ text₂ trials source = .error f →
        f.Carries [text₁, text₂]) ↔
      ∃ s, settings = .ok s ∧ ∀ e₁ e₂, parse traced text₁ = .ok e₁ → parse traced text₂ = .ok e₂ →
        Comparable s trials e₁ e₂ source := by
  cases settings with
  | error d => exact iff_of_false (fun h => h (.defect d) rfl) nofun
  | ok s =>
    simp only [Except.ok.injEq, exists_eq_left']
    cases h₁ : parse traced text₁ with
    | error c =>
      rw [compare_of_parse_error h₁]
      refine iff_of_true (fun f hf => ?_) nofun
      cases hf
      exact ⟨text₁, List.mem_cons_self, rfl⟩
    | ok e₁ =>
      cases h₂ : parse traced text₂ with
      | error c =>
        rw [compare_of_parse_second_error h₁ h₂]
        refine iff_of_true (fun f hf => ?_) nofun
        cases hf
        exact ⟨text₂, List.mem_cons_of_mem _ List.mem_cons_self, rfl⟩
      | ok e₂ =>
        rw [compare_of_parse h₁ h₂]
        constructor
        · rintro h _ _ ⟨⟩ ⟨⟩
          rw [← exists_compareWith_iff]
          cases hv : compareWith s trials e₁ e₂ source with
          | ok v => exact ⟨v, rfl⟩
          | error f => exact absurd (h f hv) (not_carries_of_compareWith hv _)
        · intro h f hf
          obtain ⟨v, hv⟩ := exists_compareWith_iff.2 (h e₁ e₂ rfl rfl)
          rw [hv] at hf
          cases hf

/-- The failures of the prefix form and of evaluation carry their text. A comparison loads its
settings before it looks at its texts, and guards nothing but their parsing: all that goes wrong
carries one of the texts iff the settings can be loaded and the expressions, if there are two, can
be compared. A text that cannot be parsed is then the one that is carried, the first before the
second. -/
theorem faults_carry_text (traced : Bool) :
    (∀ text f, calculate traced text = .error f → f.equation = some text) ∧
    (∀ text b f, run traced text b = .error f → f.equation = some text) ∧
    ∀ (file : Option String) text₁ text₂ trials (source : σ),
      ((∀ f, compare traced (Settings.ofFile file) text₁ text₂ trials source = .error f →
          f.Carries [text₁, text₂]) ↔
        ∃ s, Settings.ofFile file = .ok s ∧ ∀ e₁ e₂,
          parse traced text₁ = .ok e₁ → parse traced text₂ = .ok e₂ →
            Comparable s trials e₁ e₂ source) ∧
      ∀ s c, Settings.ofFile file = .ok s → parse traced text₁ = .error c →
        compare traced (Settings.ofFile file) text₁ text₂ trials source =
          .error (.failure ⟨c, some text₁⟩) := by
  refine ⟨fun text f => equation_of_about, fun text b f => equation_of_about,
    fun file text₁ text₂ trials source => ⟨forall_carries_compare_iff, fun s c hs hc => ?_⟩⟩
  rw [hs, compare_of_parse_error hc]

/-- A group that is not closed is told with its text. -/
theorem faults_carry_text_open_group :
    ∃ f, compare false (Settings.ofFile none) "1" "(" (.value 1) Expr.zeroFirst = .error f ∧
      f.Carries ["1", "("] := by
  have hopen : (parse false "(").toOption.isNone := by decide +kernel
  have hfault : (compare false (Settings.ofFile none) "1" "(" (.value 1)
    Expr.zeroFirst).toOption.isNone := by decide +kernel
  have hcarries := ((faults_carry_text false).2.2 none "1" "(" (.value 1) Expr.zeroFirst).1.2
    ⟨Settings.defaults, rfl, fun e₁ e₂ _ h₂ => by rw [h₂] at hopen; cases hopen⟩
  cases h : compare false (Settings.ofFile none) "1" "(" (.value 1) Expr.zeroFirst with
  | ok v => rw [h] at hfault; cases hfault
  | error f => exact ⟨f, rfl, hcarries f h⟩

/-! ## Faults without a text -/

/-- An expression that is parsed and is too high for its variables to be collected. -/
theorem compare_of_high (h₁ : parse traced text₁ = .ok e₁) (h₂ : parse traced text₂ = .ok e₂)
    (h : frameLimit < e₁.height ∨ frameLimit < e₂.height) :
    compare traced (.ok s) text₁ text₂ trials source =
      .error (.failure ⟨.tooDeep .collect, none⟩) :=
  (compare_of_parse h₁ h₂).trans (compareWith_of_lt h)

/-- A sum of more numbers than there are frames can be parsed and not be compared. -/
theorem compare_repeated (a : Phrase.Number) {n : ℕ} (hn : frameLimit ≤ n) :
    compare false (.ok s) (Phrase.repeatedText a n) (Phrase.repeatedText a n) trials source =
      .error (.failure ⟨.tooDeep .collect, none⟩) := by
  have hparse : parse false (Phrase.repeatedText a n) = .ok (Phrase.Sum.repeated a n).tree :=
    Phrase.ofText_repeated a n (by decide)
  refine compare_of_high hparse hparse (.inl ?_)
  rw [Phrase.height_repeated]
  exact Nat.lt_succ_of_le hn

/-- Two faults without a text: the variables of a sum of 2100 numbers cannot be collected, and a
settings file cannot be used. -/
theorem compare_without_text :
    (∃ f, compare false (Settings.ofFile none) (Phrase.repeatedText Phrase.two 2099)
        (Phrase.repeatedText Phrase.two 2099) (.value 1) Expr.zeroFirst = .error f ∧
      ¬f.Carries [Phrase.repeatedText Phrase.two 2099, Phrase.repeatedText Phrase.two 2099]) ∧
    ∃ f, compare false (Settings.ofFile (some "null")) "1" "1" (.value 1) Expr.zeroFirst = .error f ∧
      ¬f.Carries ["1", "1"] := by
  refine ⟨⟨_, compare_repeated (s := Settings.defaults) Phrase.two (by decide), ?_⟩,
    .defect .wrongType, ?_, id⟩
  · rintro ⟨text, -, ht⟩
    cases ht
  · rfl

end ComplexExpr.Calculator
