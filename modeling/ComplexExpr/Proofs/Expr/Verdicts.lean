import ComplexExpr.Proofs.Expr.Dependence
import ComplexExpr.Proofs.Expr.Spread
import ComplexExpr.Proofs.Expr.Trials
import ComplexExpr.Proofs.Value.Closeness
import ComplexExpr.Proofs.Value.Written

/-!
# Verdicts on exchanged and on equal expressions

The order of two expressions makes no difference to the trials of a comparison:
in each of them the same bindings are drawn, the same trials fail, and the same
values are too far apart (`compareFrom_swap`). An expression compared with
itself has one value twice, which is close to itself iff it is finite
(`disagrees_self_iff`). Main statements:

* `compare_swap`: a comparison in the other order has the same outcome, with
  the two values exchanged;
* `compare_self`: an expression is equivalent to itself iff its values in all
  trials are finite, and the first trial that gives another value is a
  counterexample.
-/

namespace ComplexExpr

/-- The verdict on two expressions in the other order. -/
def Verdict.swap : Verdict → Verdict
  | equivalent trials discarded => .equivalent trials discarded
  | different b value₁ value₂ trials discarded => .different b value₂ value₁ trials discarded

theorem NameSet.union_comm (m n : NameSet) : m ∪ n = n ∪ m :=
  NameSet.ext fun x => by rw [mem_union, mem_union, or_comm]

theorem NameSet.union_self (n : NameSet) : n ∪ n = n :=
  NameSet.ext fun x => by rw [mem_union, or_self]

namespace Expr

variable {σ : Type} [Source σ] {e e₁ e₂ : Expr} {p : Trials} {names n₁ n₂ : NameSet} {s : σ}
  {b : Bindings} {ε : Float} {left done discarded : ℕ}

theorem compare_of_freeVariables (h₁ : e₁.freeVariables = .ok n₁) (h₂ : e₂.freeVariables = .ok n₂) :
    compare p e₁ e₂ s = .ok (compareFrom p e₁ e₂ (n₁ ∪ n₂) p.count.toInt.toNat 0 0 s) := by
  unfold compare
  rw [h₁, h₂]
  rfl

/-- The variables of both expressions are collected, or one of the two is too deep for that. -/
theorem freeVariables_cases (e₁ e₂ : Expr) :
    (e₁.freeVariables = .ok e₁.vars ∧ e₂.freeVariables = .ok e₂.vars) ∨
      (frameLimit < e₁.height ∨ frameLimit < e₂.height) := by
  by_cases h : e₁.height ≤ frameLimit ∧ e₂.height ≤ frameLimit
  · exact .inl ⟨freeVariables_of_le h.1, freeVariables_of_le h.2⟩
  · right
    omega

theorem compare_of_lt (h : frameLimit < e₁.height ∨ frameLimit < e₂.height) :
    compare p e₁ e₂ s = .error (.tooDeep .collect) := by
  unfold compare
  by_cases h₁ : e₁.height ≤ frameLimit
  · rw [freeVariables_of_le h₁, freeVariables_of_lt (h.resolve_left (Nat.not_lt.2 h₁))]
    rfl
  · rw [freeVariables_of_lt (Nat.not_le.1 h₁)]
    rfl

/-! ## Exchanged expressions -/

theorem values?_swap (e₁ e₂ : Expr) (b : Bindings) :
    values? e₂ e₁ b = (values? e₁ e₂ b).map Prod.swap := by
  unfold values?
  cases e₁.evaluate b with
  | error c => cases e₂.evaluate b <;> rfl
  | ok z => cases e₂.evaluate b <;> rfl

theorem compareFrom_swap :
    compareFrom p e₂ e₁ names left done discarded s =
      (compareFrom p e₁ e₂ names left done discarded s).swap := by
  induction left generalizing done discarded s with
  | zero => rfl
  | succ left ih =>
    rw [compareFrom_succ, compareFrom_succ, values?_swap]
    cases values? e₁ e₂ (Sample.bindings names p.range s).1 with
    | none => exact ih
    | some v =>
      obtain ⟨z, w⟩ := v
      show (if w.approxEq z p.epsilon then _ else _) =
        (if z.approxEq w p.epsilon then _ else _ : Verdict).swap
      rw [Value.approxEq_comm w z]
      split
      · exact ih
      · rfl

/-- Two expressions in the other order have the same outcome: the variables of one are too deep to
collect, or there are two verdicts that agree on all but the order of the values. -/
theorem compare_swap (p : Trials) (e₁ e₂ : Expr) (s : σ) :
    (compare p e₁ e₂ s = .error (.tooDeep .collect) ∧
      compare p e₂ e₁ s = .error (.tooDeep .collect)) ∨
    ∃ v, compare p e₁ e₂ s = .ok v ∧ compare p e₂ e₁ s = .ok v.swap := by
  obtain ⟨h₁, h₂⟩ | h := freeVariables_cases e₁ e₂
  · refine .inr ⟨_, compare_of_freeVariables h₁ h₂, ?_⟩
    rw [compare_of_freeVariables h₂ h₁, NameSet.union_comm, compareFrom_swap]
  · exact .inl ⟨compare_of_lt h, compare_of_lt h.symm⟩

/-! ## One expression twice -/

/-- No trial that is left disagrees, and the comparison ends in equivalence, or one does, and it
ends in a counterexample. -/
theorem compareFrom_cases (p : Trials) (e₁ e₂ : Expr) (names : NameSet) (left done discarded : ℕ)
    (s : σ) :
    ((∀ k < left, ¬Disagrees p.epsilon e₁ e₂ (Sample.nth names p.range s k)) ∧
      ∃ d, compareFrom p e₁ e₂ names left done discarded s = .equivalent p.count d) ∨
    ((∃ k < left, Disagrees p.epsilon e₁ e₂ (Sample.nth names p.range s k)) ∧
      ∃ b v₁ v₂ m d, compareFrom p e₁ e₂ names left done discarded s = .different b v₁ v₂ m d) := by
  by_cases h : ∃ k < left, Disagrees p.epsilon e₁ e₂ (Sample.nth names p.range s k)
  · obtain ⟨hk, z, w, hz, hw, hclose⟩ := Nat.find_spec h
    have hfirst (j : ℕ) (hj : j < Nat.find h) :
        ¬Disagrees p.epsilon e₁ e₂ (Sample.nth names p.range s j) :=
      fun hd => Nat.find_min h hj ⟨hj.trans hk, hd⟩
    exact .inr ⟨h, _, _, _, _, _, compareFrom_disagree hk hz hw hclose hfirst⟩
  · push Not at h
    exact .inl ⟨h, _, compareFrom_agree h⟩

/-- The trials that are left end in equivalence iff none of them disagrees. -/
theorem exists_equivalent_iff :
    (∃ d, compareFrom p e₁ e₂ names left done discarded s = .equivalent p.count d) ↔
      ∀ k < left, ¬Disagrees p.epsilon e₁ e₂ (Sample.nth names p.range s k) := by
  obtain ⟨hagree, heq⟩ | ⟨⟨k, hk, hd⟩, b, v₁, v₂, m, d, hne⟩ :=
    compareFrom_cases p e₁ e₂ names left done discarded s
  · exact iff_of_true heq hagree
  · refine iff_of_false ?_ fun h => h k hk hd
    rintro ⟨d', heq⟩
    rw [hne] at heq
    cases heq

/-- No values are closer than zero, so that any two disagree. -/
theorem disagrees_zero_iff : Disagrees 0.0 e₁ e₂ b ↔ ¬Fails e₁ e₂ b := by
  rw [← values?_eq_none_iff, ← ne_eq, Option.ne_none_iff_exists']
  constructor
  · rintro ⟨z, w, hz, hw, -⟩
    exact ⟨(z, w), values?_eq_some_iff.2 ⟨hz, hw⟩⟩
  · rintro ⟨⟨z, w⟩, h⟩
    obtain ⟨hz, hw⟩ := values?_eq_some_iff.1 h
    exact ⟨z, w, hz, hw, Value.approxEq_zero z w⟩

/-- An expression disagrees with itself if its value is not finite. -/
theorem disagrees_self_iff (hε : 0.0 < ε) :
    Disagrees ε e e b ↔ ∃ z, e.evaluate b = .ok z ∧ ¬z.IsFinite := by
  constructor
  · rintro ⟨z, w, hz, hw, h⟩
    obtain rfl : z = w := Except.ok.inj (hz.symm.trans hw)
    refine ⟨z, hz, fun hfinite => ?_⟩
    rw [(Value.approxEq_self_iff hε).2 hfinite] at h
    cases h
  · rintro ⟨z, hz, h⟩
    exact ⟨z, z, hz, hz, Bool.eq_false_iff.2 fun hclose => h ((Value.approxEq_self_iff hε).1 hclose)⟩

/-- An expression is equivalent to itself iff each trial in which it has a value gives it a finite
one. Otherwise the first trial that gives it another is told, with that value twice. -/
theorem compare_self (p : Trials) (s : σ) (h : e.freeVariables = .ok names) (hε : 0.0 < p.epsilon) :
    ((∃ d, compare p e e s = .ok (.equivalent p.count d)) ↔
      ∀ k : ℕ, (k : ℤ) < p.count.toInt → ∀ z,
        e.evaluate (Sample.nth names p.range s k) = .ok z → z.IsFinite) ∧
    ∀ (k : ℕ) z, (k : ℤ) < p.count.toInt →
      e.evaluate (Sample.nth names p.range s k) = .ok z → ¬z.IsFinite →
      (∀ j < k, ∀ w, e.evaluate (Sample.nth names p.range s j) = .ok w → w.IsFinite) →
      compare p e e s = .ok (.different (Sample.nth names p.range s k) z.toText z.toText (k + 1)
        (failures e e names p.range s k)) := by
  have hcompare := compare_of_freeVariables (p := p) (s := s) h h
  have hagree (k : ℕ) : ¬Disagrees p.epsilon e e (Sample.nth names p.range s k) ↔
      ∀ z, e.evaluate (Sample.nth names p.range s k) = .ok z → z.IsFinite := by
    rw [disagrees_self_iff hε, not_exists]
    exact forall_congr' fun z => not_and_not_right
  rw [NameSet.union_self] at hcompare
  rw [hcompare]
  constructor
  · simp only [Except.ok.injEq, exists_equivalent_iff, hagree, Int.lt_toNat]
  · intro k z hk hz hinfinite hfirst
    have hclose : z.approxEq z p.epsilon = false :=
      Bool.eq_false_iff.2 fun hclose => hinfinite ((Value.approxEq_self_iff hε).1 hclose)
    rw [compareFrom_disagree (Int.lt_toNat.2 hk) hz hz hclose fun j hj => (hagree j).2 (hfirst j hj),
      Nat.zero_add, Nat.zero_add]

/-- The reciprocal has no value in the first trial and a finite one in the second. -/
theorem compare_self_reciprocal :
    reciprocal.freeVariables = .ok (.singleton "x") ∧ (0.0 : Float) < 1e-6 ∧
      ∃ discarded, compare ⟨.number 2, 5.0, 1e-6⟩ reciprocal reciprocal zeroFirst =
        .ok (.equivalent (.number 2) discarded) := by
  have hnames : reciprocal.freeVariables = .ok (.singleton "x") := rfl
  have hε : (0.0 : Float) < 1e-6 := by decide +kernel
  refine ⟨hnames, hε,
    (compare_self ⟨.number 2, 5.0, 1e-6⟩ zeroFirst hnames hε).1.2 fun k hk z hz => ?_⟩
  have htrials : ∀ k < 2, (reciprocal.evaluate (Sample.nth (.singleton "x") 5.0 zeroFirst k)).map
      (fun z => decide z.IsFinite) ≠ .ok false := by decide +kernel
  have hk' : k < 2 := by
    change (k : ℤ) < 2 at hk
    omega
  have hfinite := htrials k hk'
  rw [hz] at hfinite
  by_contra hinfinite
  exact hfinite (congrArg Except.ok (decide_eq_false hinfinite))

theorem compare_literal_self {z : Value} (h : z.approxEq z 1e-6 = false) :
    compare {} (.literal z) (.literal z) s =
      .ok (.different (Sample.bindings .empty 5.0 s).1 z.toText z.toText 1 0) := by
  have hnames : (literal z).freeVariables = .ok .empty := rfl
  have heval (b : Bindings) : (literal z).evaluate b = .ok z := evaluateWithin_literal z
  rw [compare_of_freeVariables hnames hnames, NameSet.union_self]
  show Except.ok (compareFrom {} (literal z) (literal z) .empty (7 + 1) 0 0 s) = _
  exact congrArg Except.ok (compareFrom_step_disagree (heval _) (heval _) h)

/-- The number of 400 nines, which is too large for a double. -/
def nines : Phrase.Number where
  numeral := ⟨none, List.replicate 400 '9', none, none⟩
  wellFormed := ⟨by decide +kernel, fun c hc => by rw [List.eq_of_mem_replicate hc]; decide,
    by simp, by simp⟩
  plain := by decide

/-- A number that is too large for a double is not equivalent to itself. -/
theorem compare_nines :
    ∃ e, ofText nines.token = .ok e ∧ e.freeVariables = .ok .empty ∧
      (0.0 : Float) < ({} : Trials).epsilon ∧
      compare {} e e zeroFirst = .ok (.different .empty "inf" "inf" 1 0) := by
  have hinfinite : nines.numeral.toFloat = Decimal.infinity := by decide +kernel
  have hclose : (⟨Decimal.infinity, 0.0⟩ : Value).approxEq ⟨Decimal.infinity, 0.0⟩ 1e-6 = false := by
    decide +kernel
  refine ⟨_, nines.ofText_token, rfl, by decide +kernel, ?_⟩
  rw [hinfinite, compare_literal_self hclose, Value.toText_infinity]
  rfl

end Expr

end ComplexExpr
