import ComplexExpr.Expr.Equivalence
import Mathlib.Data.Nat.Count

/-!
# The first disagreement

The trials of a comparison bind the variables to the successive samples of one
source (`Sample.nth`). In a trial either expression may fail (`Expr.Fails`), or
both have values and these may be too far apart (`Expr.Disagrees`). What a
comparison finds is read off this sequence, without its loop:

* `compareFrom_disagree`, `compareFrom_agree`: the trials that are left end at
  their first disagreement, or all of them are made;
* `compare_first_disagreement`: the verdict of a whole comparison.
-/

namespace ComplexExpr

variable {σ : Type} [Source σ]

namespace Sample

/-- The bindings of trial `k`, when the samples are drawn one after the other. -/
def nth (names : NameSet) (range : Float) (s : σ) : ℕ → Bindings
  | 0 => (bindings names range s).1
  | k + 1 => nth names range (bindings names range s).2 k

/-- Every sample binds the names of the set, in the set's order. -/
theorem keys_nth (names : NameSet) (range : Float) (s : σ) (k : ℕ) :
    (nth names range s k).keys = names.names := by
  induction k generalizing s with
  | zero => exact map_fst_entries range names.names s
  | succ k ih => exact ih _

end Sample

namespace Expr

variable {e₁ e₂ : Expr} {b : Bindings} {ε : Float}

/-- One of two expressions has no value. -/
def Fails (e₁ e₂ : Expr) (b : Bindings) : Prop :=
  (∃ c, e₁.evaluate b = .error c) ∨ ∃ c, e₂.evaluate b = .error c

/-- Two expressions have values that are not close. -/
def Disagrees (ε : Float) (e₁ e₂ : Expr) (b : Bindings) : Prop :=
  ∃ z w, e₁.evaluate b = .ok z ∧ e₂.evaluate b = .ok w ∧ z.approxEq w ε = false

theorem values?_eq_some_iff {z w : Value} :
    values? e₁ e₂ b = some (z, w) ↔ e₁.evaluate b = .ok z ∧ e₂.evaluate b = .ok w := by
  unfold values?
  cases e₁.evaluate b with
  | error c => simp
  | ok z' => cases e₂.evaluate b <;> simp

theorem values?_eq_none_iff : values? e₁ e₂ b = none ↔ Fails e₁ e₂ b := by
  unfold values? Fails
  cases e₁.evaluate b with
  | error c => simp
  | ok z => cases e₂.evaluate b <;> simp

instance : Decidable (Fails e₁ e₂ b) :=
  decidable_of_iff ((values? e₁ e₂ b).isNone = true)
    (Option.isNone_iff_eq_none.trans values?_eq_none_iff)

theorem any_values?_iff_disagrees :
    (values? e₁ e₂ b).any (fun v => !v.1.approxEq v.2 ε) = true ↔ Disagrees ε e₁ e₂ b := by
  rw [Option.any_eq_true]
  constructor
  · rintro ⟨⟨z, w⟩, hv, h⟩
    obtain ⟨hz, hw⟩ := values?_eq_some_iff.1 hv
    exact ⟨z, w, hz, hw, by simpa using h⟩
  · rintro ⟨z, w, hz, hw, h⟩
    exact ⟨(z, w), values?_eq_some_iff.2 ⟨hz, hw⟩, by simpa using h⟩

instance : Decidable (Disagrees ε e₁ e₂ b) := decidable_of_iff _ any_values?_iff_disagrees

/-! ## One trial -/

section

variable {p : Trials} {names : NameSet} {left done discarded : ℕ} {s : σ}

theorem compareFrom_succ :
    compareFrom p e₁ e₂ names (left + 1) done discarded s =
      match values? e₁ e₂ (Sample.bindings names p.range s).1 with
      | none => compareFrom p e₁ e₂ names left (done + 1) (discarded + 1)
          (Sample.bindings names p.range s).2
      | some (z, w) =>
        if z.approxEq w p.epsilon then
          compareFrom p e₁ e₂ names left (done + 1) discarded (Sample.bindings names p.range s).2
        else .different (Sample.bindings names p.range s).1 z.toText w.toText (done + 1)
          discarded := rfl

theorem compareFrom_fails (h : Fails e₁ e₂ (Sample.bindings names p.range s).1) :
    compareFrom p e₁ e₂ names (left + 1) done discarded s =
      compareFrom p e₁ e₂ names left (done + 1) (discarded + 1)
        (Sample.bindings names p.range s).2 := by
  rw [compareFrom_succ, values?_eq_none_iff.2 h]

theorem compareFrom_step_agree (hf : ¬Fails e₁ e₂ (Sample.bindings names p.range s).1)
    (hd : ¬Disagrees p.epsilon e₁ e₂ (Sample.bindings names p.range s).1) :
    compareFrom p e₁ e₂ names (left + 1) done discarded s =
      compareFrom p e₁ e₂ names left (done + 1) discarded
        (Sample.bindings names p.range s).2 := by
  rw [← values?_eq_none_iff, ← ne_eq, Option.ne_none_iff_exists'] at hf
  obtain ⟨⟨z, w⟩, hv⟩ := hf
  have hclose : z.approxEq w p.epsilon = true := by
    rw [← Bool.not_eq_false]
    intro h
    obtain ⟨hz, hw⟩ := values?_eq_some_iff.1 hv
    exact hd ⟨z, w, hz, hw, h⟩
  rw [compareFrom_succ, hv]
  exact if_pos hclose

theorem compareFrom_step_disagree {z w : Value}
    (hz : e₁.evaluate (Sample.bindings names p.range s).1 = .ok z)
    (hw : e₂.evaluate (Sample.bindings names p.range s).1 = .ok w)
    (h : z.approxEq w p.epsilon = false) :
    compareFrom p e₁ e₂ names (left + 1) done discarded s =
      .different (Sample.bindings names p.range s).1 z.toText w.toText (done + 1) discarded := by
  rw [compareFrom_succ, values?_eq_some_iff.2 ⟨hz, hw⟩]
  exact if_neg (by rw [h]; exact Bool.false_ne_true)

/-! ## All trials -/

/-- The number of failing trials among the first `n`. -/
def failures (e₁ e₂ : Expr) (names : NameSet) (range : Float) (s : σ) (n : ℕ) : ℕ :=
  Nat.count (fun k => Fails e₁ e₂ (Sample.nth names range s k)) n

/-- The failing trials, counted from the second on. -/
theorem failures_succ (e₁ e₂ : Expr) (names : NameSet) (range : Float) (s : σ) (n : ℕ) :
    failures e₁ e₂ names range s (n + 1) =
      failures e₁ e₂ names range (Sample.bindings names range s).2 n +
        if Fails e₁ e₂ (Sample.bindings names range s).1 then 1 else 0 :=
  Nat.count_succ' _ n

/-- Trials without a disagreement are all made, and those that fail are counted. -/
theorem compareFrom_agree
    (h : ∀ k < left, ¬Disagrees p.epsilon e₁ e₂ (Sample.nth names p.range s k)) :
    compareFrom p e₁ e₂ names left done discarded s =
      .equivalent p.count (discarded + failures e₁ e₂ names p.range s left) := by
  induction left generalizing done discarded s with
  | zero => rfl
  | succ left ih =>
    have hfirst := h 0 (Nat.zero_lt_succ left)
    have hrest (k : ℕ) (hk : k < left) := h (k + 1) (Nat.succ_lt_succ hk)
    rw [failures_succ]
    by_cases hf : Fails e₁ e₂ (Sample.bindings names p.range s).1
    · rw [compareFrom_fails hf, ih hrest, if_pos hf]
      congr 1
      omega
    · rw [compareFrom_step_agree hf hfirst, ih hrest, if_neg hf, Nat.add_zero]

/-- Of the trials that are left, the first disagreement ends the comparison. -/
theorem compareFrom_disagree {k : ℕ} {z w : Value} (hk : k < left)
    (hz : e₁.evaluate (Sample.nth names p.range s k) = .ok z)
    (hw : e₂.evaluate (Sample.nth names p.range s k) = .ok w)
    (hclose : z.approxEq w p.epsilon = false)
    (h : ∀ j < k, ¬Disagrees p.epsilon e₁ e₂ (Sample.nth names p.range s j)) :
    compareFrom p e₁ e₂ names left done discarded s =
      .different (Sample.nth names p.range s k) z.toText w.toText (done + k + 1)
        (discarded + failures e₁ e₂ names p.range s k) := by
  obtain ⟨left, rfl⟩ := Nat.exists_eq_succ_of_ne_zero (Nat.ne_zero_of_lt hk)
  induction k generalizing left done discarded s with
  | zero => exact compareFrom_step_disagree hz hw hclose
  | succ k ih =>
    have hfirst := h 0 (Nat.zero_lt_succ k)
    have hrest (j : ℕ) (hj : j < k) := h (j + 1) (Nat.succ_lt_succ hj)
    have hlt : k < left := Nat.lt_of_succ_lt_succ hk
    obtain ⟨left, rfl⟩ := Nat.exists_eq_succ_of_ne_zero (Nat.ne_zero_of_lt hlt)
    rw [failures_succ]
    by_cases hf : Fails e₁ e₂ (Sample.bindings names p.range s).1
    · rw [compareFrom_fails hf, ih hz hw hrest left hlt, if_pos hf]
      congr 1 <;> omega
    · rw [compareFrom_step_agree hf hfirst, ih hz hw hrest left hlt, if_neg hf]
      congr 1
      omega

end

/-- A comparison ends at the first trial, if one disagrees before the trials run out: it tells the
bindings of that trial with the texts of the two values, the number of trials made, and how many
before it failed. Otherwise it tells how many of all trials failed. Each trial binds the variables
of both expressions, in increasing order. -/
theorem compare_first_disagreement (p : Trials) (s : σ) {n₁ n₂ : NameSet}
    (h₁ : e₁.freeVariables = .ok n₁) (h₂ : e₂.freeVariables = .ok n₂) :
    (∀ k : ℕ, (Sample.nth (n₁ ∪ n₂) p.range s k).keys.Pairwise (· < ·) ∧
      ∀ x, x ∈ (Sample.nth (n₁ ∪ n₂) p.range s k).keys ↔ x ∈ n₁ ∨ x ∈ n₂) ∧
    (∀ k : ℕ, (k : ℤ) < p.count.toInt →
      Disagrees p.epsilon e₁ e₂ (Sample.nth (n₁ ∪ n₂) p.range s k) →
      (∀ j < k, ¬Disagrees p.epsilon e₁ e₂ (Sample.nth (n₁ ∪ n₂) p.range s j)) →
      ∃ z w, e₁.evaluate (Sample.nth (n₁ ∪ n₂) p.range s k) = .ok z ∧
        e₂.evaluate (Sample.nth (n₁ ∪ n₂) p.range s k) = .ok w ∧
        compare p e₁ e₂ s = .ok (.different (Sample.nth (n₁ ∪ n₂) p.range s k) z.toText w.toText
          (k + 1) (failures e₁ e₂ (n₁ ∪ n₂) p.range s k))) ∧
    ((∀ k : ℕ, (k : ℤ) < p.count.toInt →
        ¬Disagrees p.epsilon e₁ e₂ (Sample.nth (n₁ ∪ n₂) p.range s k)) →
      compare p e₁ e₂ s = .ok (.equivalent p.count
        (failures e₁ e₂ (n₁ ∪ n₂) p.range s (max p.count.toInt 0).toNat))) := by
  have hcompare : compare p e₁ e₂ s =
      .ok (compareFrom p e₁ e₂ (n₁ ∪ n₂) p.count.toInt.toNat 0 0 s) := by
    unfold compare
    rw [h₁, h₂]
    rfl
  refine ⟨fun k => ?_, fun k hk hd hfirst => ?_, fun hagree => ?_⟩
  · rw [Sample.keys_nth]
    exact ⟨(n₁ ∪ n₂).increasing, fun x => NameSet.mem_union⟩
  · obtain ⟨z, w, hz, hw, hclose⟩ := hd
    refine ⟨z, w, hz, hw, ?_⟩
    rw [hcompare, compareFrom_disagree (by omega) hz hw hclose hfirst, Nat.zero_add, Nat.zero_add]
  · rw [hcompare, compareFrom_agree fun k hk => hagree k (by omega), Nat.zero_add]
    congr 3
    omega

/-- The expression `1 / x`. -/
def reciprocal : Expr := .binary .div (.literal ⟨1.0, 0.0⟩) (.var "x")

/-- Parts of 0 in the first trial, and of 2.5 and 0 in the second. -/
def zeroFirst : Replay := ⟨#[0.5, 0.5, 0.75, 0.5], 0⟩

/-- Of three trials of `1 / x` against `1`, the first fails and the second disagrees. -/
theorem compare_reciprocal :
    reciprocal.freeVariables = .ok (.singleton "x") ∧
      (literal ⟨1.0, 0.0⟩).freeVariables = .ok .empty ∧
      ∃ b : Bindings, b.entries = [("x", "2.5")] ∧
        compare ⟨.number 3, 5.0, 1e-6⟩ reciprocal (.literal ⟨1.0, 0.0⟩) zeroFirst =
          .ok (.different b "0.4" "1" 2 1) := by
  have h₁ : reciprocal.freeVariables = .ok (.singleton "x") := rfl
  have h₂ : (literal ⟨1.0, 0.0⟩).freeVariables = .ok .empty := rfl
  have hfirst : ∀ j < 1, ¬Disagrees 1e-6 reciprocal (.literal ⟨1.0, 0.0⟩)
      (Sample.nth (.singleton "x" ∪ .empty) 5.0 zeroFirst j) := by decide +kernel
  obtain ⟨z, w, hz, hw, h⟩ :=
    (compare_first_disagreement ⟨.number 3, 5.0, 1e-6⟩ zeroFirst h₁ h₂).2.1 1 (by decide)
      (by decide +kernel) hfirst
  have hz' : (reciprocal.evaluate (Sample.nth (.singleton "x" ∪ .empty) 5.0 zeroFirst 1)).map
      Value.toText = .ok "0.4" := by decide +kernel
  have hw' : ((literal ⟨1.0, 0.0⟩).evaluate
      (Sample.nth (.singleton "x" ∪ .empty) 5.0 zeroFirst 1)).map Value.toText = .ok "1" := by
    decide +kernel
  have hcount : failures reciprocal (.literal ⟨1.0, 0.0⟩) (.singleton "x" ∪ .empty) 5.0
      zeroFirst 1 = 1 := by decide +kernel
  rw [hz] at hz'
  rw [hw] at hw'
  rw [hcount, Except.ok.inj hz', Except.ok.inj hw'] at h
  exact ⟨h₁, h₂, _, by decide +kernel, h⟩

end Expr

end ComplexExpr
