import ComplexExpr.Proofs.Expr.Sampling
import ComplexExpr.Proofs.Expr.Verdicts

/-!
# Samples that can be replayed

A sample of `n` names takes `2 * n` numbers off its source, two for each name,
in the increasing order of the names (`Sample.Draws`), so it is settled by the
set of names and these numbers (`Sample.Draws.unique`). A trial of a comparison
starts where the numbers of the trials before it end: none of them takes more
or fewer because it fails (`Expr.compareFrom_after`). Main statement:

* `sampling_replayable`: what is bound, and which numbers are taken, in a
  sample and in each trial of a comparison.
-/

namespace ComplexExpr

namespace NameSet

theorem toFinset_names_ofList (xs : List String) : (ofList xs).names.toFinset = xs.toFinset :=
  Finset.ext fun x => by rw [List.mem_toFinset, List.mem_toFinset, ← mem_def, mem_ofList]

theorem length_names (n : NameSet) : n.names.length = n.names.toFinset.card :=
  (List.toFinset_card_of_nodup n.nodup).symm

end NameSet

variable {σ τ : Type} [Source σ] [Source τ]

namespace Sample

/-- Bindings of the names of a set, in increasing order. Name `k` is bound to the text of the value
whose parts are made of the numbers `first + 2 * k` and `first + 2 * k + 1` of a source. -/
structure Draws (names : Finset String) (range : Float) (s : σ) (first : ℕ) (b : Bindings) :
    Prop where
  increasing : b.keys.Pairwise (· < ·)
  mem_keys (x : String) : x ∈ b.keys ↔ x ∈ names
  entries_eq : b.entries = b.keys.mapIdx fun k x =>
    (x, (⟨-range + (range - -range) * Source.nth s (first + 2 * k),
      -range + (range - -range) * Source.nth s (first + 2 * k + 1)⟩ : Value).toText)

variable {names : Finset String} {range : Float} {s : σ} {s' : τ} {first first' : ℕ}
  {b b' : Bindings}

theorem Draws.length_keys (h : Draws names range s first b) : b.keys.length = names.card := by
  have hnodup : b.keys.Nodup := NameSet.nodup ⟨b.keys, h.increasing⟩
  have hnames : b.keys.toFinset = names :=
    Finset.ext fun x => List.mem_toFinset.trans (h.mem_keys x)
  rw [← hnames, List.toFinset_card_of_nodup hnodup]

/-- The names and the numbers settle the bindings. -/
theorem Draws.unique (h : Draws names range s first b) (h' : Draws names range s' first' b')
    (hdraws : ∀ i < 2 * names.card, Source.nth s' (first' + i) = Source.nth s (first + i)) :
    b' = b := by
  have hkeys : b'.keys = b.keys :=
    NameSet.eq_of_pairwise_lt h'.increasing h.increasing fun x =>
      (h'.mem_keys x).trans (h.mem_keys x).symm
  have hentries : b'.entries = b.entries := by
    rw [h'.entries_eq, h.entries_eq, hkeys]
    refine List.mapIdx_eq_mapIdx_iff.2 fun k hk => ?_
    rw [h.length_keys] at hk
    rw [Nat.add_assoc first' (2 * k) 1, Nat.add_assoc first (2 * k) 1, hdraws (2 * k) (by omega),
      hdraws (2 * k + 1) (by omega)]
  cases b
  cases b'
  congr

theorem draws_bindings (names : NameSet) (range : Float) (s : σ) (i : ℕ) :
    Draws names.names.toFinset range s (2 * i)
      (bindings names range (Source.drop (2 * i) s)).1 := by
  have hkeys : (bindings names range (Source.drop (2 * i) s)).1.keys = names.names :=
    map_fst_entries range names.names _
  refine ⟨?_, fun x => ?_, ?_⟩
  · rw [hkeys]
    exact names.increasing
  · rw [hkeys, List.mem_toFinset]
  · rw [hkeys]
    simp only [← Nat.mul_add]
    exact congrArg Prod.fst (entries_drop range names.names s i)

/-- A sample takes two numbers for each name. -/
theorem bindings_snd (names : NameSet) (range : Float) (s : σ) :
    (bindings names range s).2 = Source.drop (2 * names.names.length) s := by
  have h := congrArg Prod.snd (entries_drop range names.names s 0)
  rwa [Nat.zero_add] at h

end Sample

namespace Expr

variable {p : Trials} {e₁ e₂ : Expr} {names : NameSet} {left done discarded : ℕ} {s : σ}

/-- A trial under some bindings, and the trials that are left, with the source they start from. -/
def trialUnder (p : Trials) (e₁ e₂ : Expr) (names : NameSet) (left done discarded : ℕ)
    (b : Bindings) (s : σ) : Verdict :=
  match values? e₁ e₂ b with
  | none => compareFrom p e₁ e₂ names left (done + 1) (discarded + 1) s
  | some (z, w) =>
    if z.approxEq w p.epsilon then compareFrom p e₁ e₂ names left (done + 1) discarded s
    else .different b z.toText w.toText (done + 1) discarded

theorem compareFrom_eq_trialUnder :
    compareFrom p e₁ e₂ names (left + 1) done discarded s =
      trialUnder p e₁ e₂ names left done discarded (Sample.bindings names p.range s).1
        (Sample.bindings names p.range s).2 := compareFrom_succ

/-- A trial that does not disagree leaves the source behind its own numbers, also if it fails. -/
theorem compareFrom_step (h : ¬Disagrees p.epsilon e₁ e₂ (Sample.bindings names p.range s).1) :
    compareFrom p e₁ e₂ names (left + 1) done discarded s =
      compareFrom p e₁ e₂ names left (done + 1)
        (discarded + if Fails e₁ e₂ (Sample.bindings names p.range s).1 then 1 else 0)
        (Sample.bindings names p.range s).2 := by
  by_cases hf : Fails e₁ e₂ (Sample.bindings names p.range s).1
  · rw [compareFrom_fails hf, if_pos hf]
  · rw [compareFrom_step_agree hf h, if_neg hf]
    rfl

/-- After `j` trials without a disagreement, the comparison goes on from the same place in its
source, whichever of them have failed. -/
theorem compareFrom_after {j : ℕ}
    (h : ∀ i < j, ¬Disagrees p.epsilon e₁ e₂ (Sample.nth names p.range s i)) :
    compareFrom p e₁ e₂ names (left + j) done discarded s =
      compareFrom p e₁ e₂ names left (done + j)
        (discarded + failures e₁ e₂ names p.range s j)
        (Source.drop (2 * (j * names.names.length)) s) := by
  induction j generalizing done discarded s with
  | zero =>
    rw [Nat.zero_mul]
    rfl
  | succ j ih =>
    have hfirst := h 0 (Nat.zero_lt_succ j)
    have hrest (i : ℕ) (hi : i < j) := h (i + 1) (Nat.succ_lt_succ hi)
    rw [← Nat.add_assoc, compareFrom_step hfirst, ih hrest, failures_succ, Sample.bindings_snd,
      ← Source.drop_add]
    congr 1
    · omega
    · omega
    · rw [Nat.succ_mul j, Nat.mul_add, Nat.add_comm]

/-- Trial `j` of a comparison binds the values of the numbers from `2 * n * j` on, and leaves the
source behind them. -/
theorem compare_after {n₁ n₂ : NameSet} {j : ℕ} (h₁ : e₁.freeVariables = .ok n₁)
    (h₂ : e₂.freeVariables = .ok n₂) (hnames : n₁ ∪ n₂ = names) (hj : (j : ℤ) < p.count.toInt)
    (h : ∀ i < j, ¬Disagrees p.epsilon e₁ e₂ (Sample.nth names p.range s i)) :
    compare p e₁ e₂ s =
      .ok (trialUnder p e₁ e₂ names (p.count.toInt.toNat - (j + 1)) j
        (failures e₁ e₂ names p.range s j)
        (Sample.bindings names p.range (Source.drop (2 * (j * names.names.length)) s)).1
        (Source.drop (2 * ((j + 1) * names.names.length)) s)) := by
  have hcount : p.count.toInt.toNat = p.count.toInt.toNat - (j + 1) + 1 + j := by omega
  rw [compare_of_freeVariables h₁ h₂, hnames, hcount, compareFrom_after h,
    compareFrom_eq_trialUnder, Sample.bindings_snd, ← Source.drop_add, ← hcount, ← Nat.mul_add,
    ← Nat.succ_mul, Nat.zero_add, Nat.zero_add]

/-- A sample of a set of names, listed in any order, binds these names in increasing order to the
values of the next `2 * n` numbers, and takes just these off its source, so that another source of
the same numbers gives the same bindings. In a comparison trial `j` is made under the bindings of
the numbers from `2 * n * j` on, and the trials after it go on from number `2 * n * (j + 1)`,
whatever the expressions are and whichever of the trials before it have failed. -/
theorem sampling_replayable (s : σ) :
    (∀ (names : Finset String) (xs : List String) (range : Float), xs.toFinset = names →
      Sample.Draws names range s 0 (Sample.bindings (.ofList xs) range s).1 ∧
      (Sample.bindings (.ofList xs) range s).2 = Source.drop (2 * names.card) s ∧
      ∀ (τ : Type) [Source τ] (s' : τ) (ys : List String), ys.toFinset = names →
        (∀ i < 2 * names.card, Source.nth s' i = Source.nth s i) →
        (Sample.bindings (.ofList ys) range s').1 = (Sample.bindings (.ofList xs) range s).1) ∧
    ∀ (names : Finset String) (range : Float) (j : ℕ), ∃ b : Bindings,
      Sample.Draws names range s (2 * names.card * j) b ∧
      ∀ (p : Trials) (e₁ e₂ : Expr) (n₁ n₂ : NameSet), p.range = range →
        e₁.freeVariables = .ok n₁ → e₂.freeVariables = .ok n₂ →
        (∀ x, x ∈ names ↔ x ∈ n₁ ∨ x ∈ n₂) → (j : ℤ) < p.count.toInt →
        (∀ i < j, ¬Disagrees p.epsilon e₁ e₂ (Sample.nth (n₁ ∪ n₂) range s i)) →
        compare p e₁ e₂ s = .ok (trialUnder p e₁ e₂ (n₁ ∪ n₂) (p.count.toInt.toNat - (j + 1)) j
          (failures e₁ e₂ (n₁ ∪ n₂) range s j) b (Source.drop (2 * names.card * (j + 1)) s)) := by
  constructor
  · rintro _ xs range rfl
    have h := Sample.draws_bindings (.ofList xs) range s 0
    rw [NameSet.toFinset_names_ofList] at h
    refine ⟨h, ?_, fun τ _ s' ys hys hsame => ?_⟩
    · rw [Sample.bindings_snd, NameSet.length_names, NameSet.toFinset_names_ofList]
    · have h' := Sample.draws_bindings (.ofList ys) range s' 0
      rw [NameSet.toFinset_names_ofList, hys] at h'
      exact h.unique h' fun i hi => by simpa using hsame i hi
  · intro names range j
    have hnames : (NameSet.ofList names.toList).names.toFinset = names := by
      rw [NameSet.toFinset_names_ofList, Finset.toList_toFinset]
    have hposition (i : ℕ) : 2 * (i * (NameSet.ofList names.toList).names.length) =
        2 * names.card * i := by
      rw [NameSet.length_names, hnames, Nat.mul_assoc, Nat.mul_comm i]
    have hdraws := Sample.draws_bindings (.ofList names.toList) range s
      (j * (NameSet.ofList names.toList).names.length)
    rw [hnames, hposition] at hdraws
    refine ⟨_, hdraws, ?_⟩
    rintro p e₁ e₂ n₁ n₂ rfl h₁ h₂ hmem hj hagree
    have hunion : n₁ ∪ n₂ = .ofList names.toList := NameSet.ext fun x => by
      rw [NameSet.mem_union, NameSet.mem_ofList, Finset.mem_toList, hmem]
    rw [hunion] at hagree ⊢
    rw [compare_after h₁ h₂ hunion hj hagree, hposition, hposition]

/-- The second trial of `1 / x` against `1` binds `x` to the value of the numbers 2 and 3, after a
first one that has failed. -/
theorem sampling_replayable_reciprocal :
    reciprocal.freeVariables = .ok (.singleton "x") ∧
      (literal ⟨1.0, 0.0⟩).freeVariables = .ok .empty ∧
      Fails reciprocal (.literal ⟨1.0, 0.0⟩)
        (Sample.nth (.singleton "x" ∪ .empty) 5.0 zeroFirst 0) ∧
      ∃ b : Bindings, b.entries = [("x", "2.5")] ∧
        compare ⟨.number 3, 5.0, 1e-6⟩ reciprocal (.literal ⟨1.0, 0.0⟩) zeroFirst =
          .ok (trialUnder ⟨.number 3, 5.0, 1e-6⟩ reciprocal (.literal ⟨1.0, 0.0⟩)
            (.singleton "x" ∪ .empty) 1 1 1 b (Source.drop 4 zeroFirst)) := by
  have h₁ : reciprocal.freeVariables = .ok (.singleton "x") := rfl
  have h₂ : (literal ⟨1.0, 0.0⟩).freeVariables = .ok .empty := rfl
  have hfirst : ∀ i < 1, ¬Disagrees 1e-6 reciprocal (.literal ⟨1.0, 0.0⟩)
      (Sample.nth (.singleton "x" ∪ .empty) 5.0 zeroFirst i) := by decide +kernel
  have hcount : failures reciprocal (.literal ⟨1.0, 0.0⟩) (.singleton "x" ∪ .empty) 5.0
      zeroFirst 1 = 1 := by decide +kernel
  obtain ⟨b, hdraws, hcompare⟩ := (sampling_replayable zeroFirst).2 {"x"} 5.0 1
  have hkeys : b.keys = ["x"] := NameSet.eq_of_pairwise_lt hdraws.increasing
    (List.pairwise_singleton ..) fun x => by simpa using hdraws.mem_keys x
  have hentries : b.entries = [("x", "2.5")] := by
    rw [hdraws.entries_eq, hkeys]
    decide +kernel
  have h := hcompare ⟨.number 3, 5.0, 1e-6⟩ _ _ _ _ rfl h₁ h₂ (by simp) (by decide) hfirst
  rw [hcount] at h
  exact ⟨h₁, h₂, by decide +kernel, b, hentries, h⟩

end Expr

end ComplexExpr
