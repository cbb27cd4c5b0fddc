import ComplexExpr.Proofs.Expr.Dependence
import ComplexExpr.Proofs.Expr.Trials
import ComplexExpr.Proofs.Table
import ComplexExpr.Proofs.Value.Closeness
import ComplexExpr.Proofs.Value.RoundTrip

/-!
# What is sampled

The values of a comparison's variables are read off the numbers of its source:
value `i` is made of the numbers `2 * i` and `2 * i + 1` (`Sample.drawn`). Trial
`k` binds `n` names to the texts of the values from `k * n` on
(`Sample.entries_nth`), whatever became of the trials before. Main statement:

* `sampling_sound`: if the values of a trial are finite, each variable of both
  expressions is bound to a text that reads back as its value, so that neither
  expression fails because of a variable.
-/

namespace ComplexExpr

namespace Sample

variable {σ : Type} [Source σ] {names : NameSet} {range : Float} {s : σ}

/-- The value that is made of the numbers `2 * i` and `2 * i + 1` of a source. -/
def drawn (range : Float) (s : σ) (i : ℕ) : Value :=
  ⟨-range + (range - -range) * Source.nth s (2 * i),
    -range + (range - -range) * Source.nth s (2 * i + 1)⟩

theorem value_drop (range : Float) (s : σ) (i : ℕ) :
    value range (Source.drop (2 * i) s) = (drawn range s i, Source.drop (2 * (i + 1)) s) := by
  have hodd : Source.drop (2 * i + 1) s = (Source.next (Source.drop (2 * i) s)).2 :=
    Source.drop_add (2 * i) 1 s
  have hnext : Source.drop (2 * (i + 1)) s = (Source.next (Source.drop (2 * i + 1) s)).2 :=
    Source.drop_add (2 * i + 1) 1 s
  rw [drawn, Source.nth, Source.nth, hnext, hodd]
  rfl

/-- Each name takes the next value. -/
theorem entries_drop (range : Float) (xs : List String) (s : σ) (i : ℕ) :
    entries range xs (Source.drop (2 * i) s) =
      (xs.mapIdx fun j x => (x, (drawn range s (i + j)).toText),
        Source.drop (2 * (i + xs.length)) s) := by
  induction xs generalizing i with
  | nil => rfl
  | cons x xs ih =>
    have hshift (j : ℕ) : i + 1 + j = i + (j + 1) := by omega
    rw [entries, value_drop]
    dsimp only
    rw [ih, List.mapIdx_cons, List.length_cons]
    simp only [hshift, Nat.add_zero]

/-- A trial binds the names to the values that come after those of the trials before it. -/
theorem entries_nth_drop (names : NameSet) (range : Float) (s : σ) (i k : ℕ) :
    (nth names range (Source.drop (2 * i) s) k).entries =
      names.names.mapIdx fun j x =>
        (x, (drawn range s (i + k * names.names.length + j)).toText) := by
  induction k generalizing i with
  | zero =>
    rw [Nat.zero_mul, Nat.add_zero]
    exact congrArg Prod.fst (entries_drop range names.names s i)
  | succ k ih =>
    have hrest : (bindings names range (Source.drop (2 * i) s)).2 =
        Source.drop (2 * (i + names.names.length)) s :=
      congrArg Prod.snd (entries_drop range names.names s i)
    have hshift : i + names.names.length + k * names.names.length =
        i + (k + 1) * names.names.length := by
      rw [Nat.succ_mul]
      omega
    rw [nth, hrest, ih, hshift]

theorem entries_nth (names : NameSet) (range : Float) (s : σ) (k : ℕ) :
    (nth names range s k).entries =
      names.names.mapIdx fun j x => (x, (drawn range s (k * names.names.length + j)).toText) := by
  have h := entries_nth_drop names range s 0 k
  rwa [Nat.zero_add] at h

theorem get?_nth {k i : ℕ} {x : String} (h : names.names[i]? = some x) :
    (nth names range s k).get? x =
      some (drawn range s (k * names.names.length + i)).toText := by
  refine Table.get?_of_mem (List.mem_of_getElem? (i := i) ?_)
  rw [entries_nth, List.getElem?_mapIdx, h]
  rfl

end Sample

/-- A name is bound to a text that reads back as a value whose parts are numerically equal. -/
def Bindings.ReadsAs (b : Bindings) (x : String) (z : Value) : Prop :=
  ∃ text v, b.get? x = some text ∧ Value.ofText text = .ok v ∧
    (v.re == z.re) = true ∧ (v.im == z.im) = true

theorem Bindings.ReadsAs.accepts {b : Bindings} {x : String} {z : Value} :
    b.ReadsAs x z → b.Accepts x :=
  fun ⟨text, v, htext, hv, _⟩ => ⟨text, v, htext, hv⟩

/-- A finite value is bound as a text that reads back. -/
theorem Sample.readsAs_nth {σ : Type} [Source σ] {names : NameSet} {range : Float} {s : σ}
    {k i : ℕ} {x : String} (h : names.names[i]? = some x)
    (hfinite : (drawn range s (k * names.names.length + i)).IsFinite) :
    (nth names range s k).ReadsAs x (drawn range s (k * names.names.length + i)) := by
  obtain ⟨l, hl, hre, him⟩ := Value.exists_literal_toText hfinite.1 hfinite.2
  exact ⟨_, l.value, get?_nth h, Value.ofText_text hl.symm, hre.beq, him.beq⟩

namespace Expr

/-- If the values drawn in a trial are finite, each variable of both expressions is bound to a text
that reads back as the value drawn for it, and no expression fails because of a variable. -/
theorem sampling_sound {σ : Type} [Source σ] {e₁ e₂ : Expr} {n₁ n₂ : NameSet} (p : Trials) (s : σ)
    (k : ℕ) (h₁ : e₁.freeVariables = .ok n₁) (h₂ : e₂.freeVariables = .ok n₂)
    (hfinite : ∀ i < (n₁ ∪ n₂).names.length,
      (Sample.drawn p.range s (k * (n₁ ∪ n₂).names.length + i)).IsFinite) :
    (∀ x, x ∈ n₁ ∨ x ∈ n₂ → ∃ i, (n₁ ∪ n₂).names[i]? = some x ∧
      (Sample.nth (n₁ ∪ n₂) p.range s k).ReadsAs x
        (Sample.drawn p.range s (k * (n₁ ∪ n₂).names.length + i))) ∧
    ∀ c, e₁.evaluate (Sample.nth (n₁ ∪ n₂) p.range s k) = .error c ∨
        e₂.evaluate (Sample.nth (n₁ ∪ n₂) p.range s k) = .error c →
      c.kind ∈ evaluationFaults ∧ c.kind ∉ bindingFaults := by
  obtain rfl := vars_of_freeVariables h₁
  obtain rfl := vars_of_freeVariables h₂
  have hreads (x : String) (hx : x ∈ e₁.vars ∨ x ∈ e₂.vars) :
      ∃ i, (e₁.vars ∪ e₂.vars).names[i]? = some x ∧
        (Sample.nth (e₁.vars ∪ e₂.vars) p.range s k).ReadsAs x
          (Sample.drawn p.range s (k * (e₁.vars ∪ e₂.vars).names.length + i)) := by
    obtain ⟨i, hi⟩ := List.getElem?_of_mem (NameSet.mem_union.2 hx)
    exact ⟨i, hi, Sample.readsAs_nth hi (hfinite i (List.getElem?_eq_some_iff.1 hi).1)⟩
  have haccepts (x : String) (hx : x ∈ e₁.vars ∨ x ∈ e₂.vars) :
      (Sample.nth (e₁.vars ∪ e₂.vars) p.range s k).Accepts x :=
    (hreads x hx).elim fun i h => h.2.accepts
  refine ⟨hreads, fun c hc => ?_⟩
  have hkind : c.kind ∈ evaluationFaults := by
    rcases hc with hc | hc
    · exact kind_mem_of_evaluateWithin (fun x hx => haccepts x (.inl hx)) hc
    · exact kind_mem_of_evaluateWithin (fun x hx => haccepts x (.inr hx)) hc
  exact ⟨hkind, not_mem_bindingFaults _ hkind⟩

/-- The first trial of the reciprocal draws a zero, and fails because of that. -/
theorem sampling_sound_reciprocal :
    reciprocal.freeVariables = .ok (.singleton "x") ∧
      (literal ⟨1.0, 0.0⟩).freeVariables = .ok .empty ∧
      (∀ i < 1, (Sample.drawn 5.0 zeroFirst (0 * 1 + i)).IsFinite) ∧
      ∃ c, reciprocal.evaluate (Sample.nth (.singleton "x" ∪ .empty) 5.0 zeroFirst 0) = .error c ∧
        c.kind ∈ evaluationFaults := by
  have hnames : reciprocal.freeVariables = .ok (.singleton "x") := rfl
  have hliteral : (literal ⟨1.0, 0.0⟩).freeVariables = .ok .empty := rfl
  have hfinite : ∀ i < 1, (Sample.drawn 5.0 zeroFirst (0 * 1 + i)).IsFinite := by decide +kernel
  have hfails : (reciprocal.evaluate
      (Sample.nth (.singleton "x" ∪ .empty) 5.0 zeroFirst 0)).toOption.isNone := by decide +kernel
  obtain ⟨-, hkind⟩ := sampling_sound ⟨.number 3, 5.0, 1e-6⟩ zeroFirst 0 hnames hliteral hfinite
  cases h : reciprocal.evaluate (Sample.nth (.singleton "x" ∪ .empty) 5.0 zeroFirst 0) with
  | error c => exact ⟨hnames, hliteral, hfinite, c, rfl, (hkind c (.inl h)).1⟩
  | ok z =>
    rw [h] at hfails
    cases hfails

end Expr

end ComplexExpr
