import ComplexExpr.Text.Blank
import Mathlib.Data.List.TakeWhile

/-!
# Runs of characters

A scanner takes the longest run of characters of a class off the front
(`takeWhile`, `dropWhile`). A run that is followed by no further character of
its class (`Stops`) is what the scanner takes (`takeWhile_run`,
`dropWhile_run`), and there is one such run at most (`run_append_inj`).
-/

namespace ComplexExpr.Text

/-- No character of the class `p` stands at the front. -/
def Stops (p : Char → Bool) (cs : List Char) : Prop := ∀ c ∈ cs.head?, p c = false

variable {p : Char → Bool} {c : Char} {cs run rest : List Char}

theorem stops_nil : Stops p [] := fun _ h => nomatch h

theorem stops_cons : Stops p (c :: cs) ↔ p c = false := by
  simp [Stops]

theorem stops_dropWhile (p : Char → Bool) (cs : List Char) : Stops p (cs.dropWhile p) := by
  intro c hc
  have h := List.head?_dropWhile_not p cs
  rw [Option.mem_def.1 hc] at h
  simpa using h

theorem takeWhile_of_stops (h : Stops p cs) : cs.takeWhile p = [] := by
  cases cs with
  | nil => rfl
  | cons c cs => rw [List.takeWhile_cons_of_neg (by rw [stops_cons.1 h]; decide)]

theorem dropWhile_of_stops (h : Stops p cs) : cs.dropWhile p = cs := by
  cases cs with
  | nil => rfl
  | cons c cs => rw [List.dropWhile_cons_of_neg (by rw [stops_cons.1 h]; decide)]

theorem takeWhile_run (hrun : ∀ c ∈ run, p c) (h : Stops p rest) :
    (run ++ rest).takeWhile p = run := by
  rw [List.takeWhile_append_of_pos hrun, takeWhile_of_stops h, List.append_nil]

theorem dropWhile_run (hrun : ∀ c ∈ run, p c) (h : Stops p rest) :
    (run ++ rest).dropWhile p = rest := by
  rw [List.dropWhile_append_of_pos hrun, dropWhile_of_stops h]

/-- A text is divided in one way only into a run and what follows it. -/
theorem run_append_inj {run' rest' : List Char} (hrun : ∀ c ∈ run, p c) (hrun' : ∀ c ∈ run', p c)
    (h : Stops p rest) (h' : Stops p rest') (heq : run ++ rest = run' ++ rest') :
    run = run' ∧ rest = rest' := by
  have htake := congrArg (List.takeWhile p) heq
  have hdrop := congrArg (List.dropWhile p) heq
  rw [takeWhile_run hrun h, takeWhile_run hrun' h'] at htake
  rw [dropWhile_run hrun h, dropWhile_run hrun' h'] at hdrop
  exact ⟨htake, hdrop⟩

/-- A character that is a digit is none of those that stand for themselves in a numeral. -/
theorem ne_of_isDigit (h : c.isDigit) : c ≠ '+' ∧ c ≠ '-' ∧ c ≠ '.' ∧ c ≠ 'e' ∧ c ≠ 'E' ∧ c ≠ 'i' := by
  refine ⟨?_, ?_, ?_, ?_, ?_, ?_⟩ <;> (rintro rfl; revert h; decide)

theorem trimWhile_eq_nil_iff : trimWhile p cs = [] ↔ ∀ c ∈ cs, p c := by
  unfold trimWhile
  rw [List.reverse_eq_nil_iff, List.dropWhile_eq_nil_iff]
  simp only [List.mem_reverse]
  refine ⟨fun h c hc => ?_, fun h c hc => h c ((List.dropWhile_suffix p).mem hc)⟩
  rw [← List.takeWhile_append_dropWhile (p := p) (l := cs)] at hc
  exact (List.mem_append.1 hc).elim List.mem_takeWhile_imp (h c)

/-- What is trimmed stands between two runs. -/
theorem exists_trimWhile (p : Char → Bool) (cs : List Char) :
    ∃ before after, cs = before ++ trimWhile p cs ++ after ∧ (∀ c ∈ before, p c) ∧
      ∀ c ∈ after, p c := by
  refine ⟨cs.takeWhile p, ((cs.dropWhile p).reverse.takeWhile p).reverse, ?_,
    fun c => List.mem_takeWhile_imp, fun c hc => List.mem_takeWhile_imp (List.mem_reverse.1 hc)⟩
  rw [trimWhile, List.append_assoc, ← List.reverse_append, List.takeWhile_append_dropWhile,
    List.reverse_reverse, List.takeWhile_append_dropWhile]

/-- What stands between two runs, and holds no character of theirs, is trimmed of them. -/
theorem trimWhile_run {before after : List Char} (hbefore : ∀ c ∈ before, p c)
    (hafter : ∀ c ∈ after, p c) (h : ∀ c ∈ cs, p c = false) :
    trimWhile p (before ++ cs ++ after) = cs := by
  cases cs with
  | nil =>
    rw [List.append_nil, trimWhile_eq_nil_iff]
    exact List.forall_mem_append.2 ⟨hbefore, hafter⟩
  | cons c cs =>
    have hfront : Stops p (c :: cs ++ after) := stops_cons.2 (h c List.mem_cons_self)
    have hback : Stops p (c :: cs).reverse :=
      fun d hd => h d (List.mem_reverse.1 (List.mem_of_mem_head? hd))
    have hrun : ∀ d ∈ after.reverse, p d := fun d hd => hafter d (List.mem_reverse.1 hd)
    rw [trimWhile, List.append_assoc, dropWhile_run hbefore hfront, List.reverse_append,
      dropWhile_run hrun hback, List.reverse_reverse]

/-! ## The characters of names -/

theorem isNameChar_iff : isNameChar c ↔ isNameStart c ∨ c.isDigit := by
  simp only [isNameChar, isNameStart, Char.isAlphanum, Bool.or_eq_true]
  exact or_right_comm

theorem isNameChar_of_isDigit (h : c.isDigit) : isNameChar c := isNameChar_iff.2 (.inr h)

theorem not_isDigit_of_isNameStart (h : isNameStart c) : c.isDigit = false := by
  rw [Bool.eq_false_iff]
  intro hd
  unfold isNameStart Char.isAlpha Char.isUpper Char.isLower at h
  unfold Char.isDigit at hd
  simp only [Bool.or_eq_true, Bool.and_eq_true, decide_eq_true_eq, beq_iff_eq] at h hd
  rcases h with (h | h) | rfl
  · exact absurd (UInt32.le_trans h.1 hd.2) (by decide)
  · exact absurd (UInt32.le_trans h.1 hd.2) (by decide)
  · exact absurd hd (by decide)

theorem not_isBlank_of_isNameChar (h : isNameChar c) : isBlank c = false := by
  have hrange : 48 ≤ c.toNat ∧ c.toNat ≤ 122 := by
    unfold isNameChar Char.isAlphanum Char.isAlpha Char.isUpper Char.isLower Char.isDigit at h
    simp only [Bool.or_eq_true, Bool.and_eq_true, decide_eq_true_eq, beq_iff_eq, ge_iff_le,
      UInt32.le_iff_toNat_le] at h
    have hc : c.toNat = c.val.toNat := rfl
    rcases h with ((h | h) | h) | rfl
    · exact ⟨hc ▸ Nat.le_trans (by decide) h.1, hc ▸ Nat.le_trans h.2 (by decide)⟩
    · exact ⟨hc ▸ Nat.le_trans (by decide) h.1, hc ▸ Nat.le_trans h.2 (by decide)⟩
    · exact ⟨hc ▸ Nat.le_trans (by decide) h.1, hc ▸ Nat.le_trans h.2 (by decide)⟩
    · decide
  simp [isBlank]
  omega

/-- A blank has no small form of its own. -/
theorem toLower_of_isBlank (h : isBlank c) : c.toLower = c := by
  refine dif_neg fun hupper => ?_
  have hname : isNameChar c := by
    unfold isNameChar Char.isAlphanum Char.isAlpha Char.isUpper
    rw [decide_eq_true hupper]
    rfl
  rw [not_isBlank_of_isNameChar hname] at h
  cases h

theorem removeBlanks_eq_self (h : ∀ c ∈ cs, isBlank c = false) : removeBlanks cs = cs := by
  rw [removeBlanks, List.filter_eq_self]
  intro c hc
  rw [h c hc]
  rfl

theorem removeBlanks_eq_nil (h : ∀ c ∈ cs, isBlank c) : removeBlanks cs = [] := by
  rw [removeBlanks, List.filter_eq_nil_iff]
  intro c hc
  rw [h c hc]
  decide

end ComplexExpr.Text
