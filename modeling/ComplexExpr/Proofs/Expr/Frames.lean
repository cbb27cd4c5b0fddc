import ComplexExpr.Expr.Basic

/-!
# What the frames allow

An expression is written, its variables are collected and it is traced iff the
frames suffice, and nothing else can go wrong (`renderWithin_eq_ok_iff`,
`freeVariablesWithin_eq_ok_iff`, `traceWithin_eq`). Collecting takes no more
frames than writing (`height_le_frames`), so it succeeds where writing does
(`freeVariables_of_render`).
-/

namespace ComplexExpr.Expr

variable {e e' : Expr} {room : Nat} {traced : Bool} {form : String} {names : NameSet}

/-! ## Frames and levels -/

theorem frames_le_framesAll {es : List Expr} (he : e ∈ es) : e.frames ≤ framesAll es := by
  induction es with
  | nil => cases he
  | cons e' es ih =>
    rw [framesAll]
    rcases List.mem_cons.1 he with rfl | he
    · exact Nat.le_max_left _ _
    · exact Nat.le_trans (ih he) (Nat.le_max_right _ _)

theorem frames_pos (e : Expr) : 0 < e.frames := by
  cases e <;> rw [frames] <;> omega

theorem exists_succ_of_frames_le (h : e.frames ≤ room) : ∃ n, room = n + 1 :=
  Nat.exists_eq_succ_of_ne_zero (Nat.ne_of_gt (Nat.lt_of_lt_of_le e.frames_pos h))

/-- A recursion takes a frame at least for each level. -/
theorem height_le_frames (e : Expr) : e.height ≤ e.frames := by
  induction e using induct with
  | literal | var => exact Nat.le_refl 1
  | negate e ih => exact Nat.succ_le_succ ih
  | binary op l r ihl ihr =>
    rw [height, frames]
    omega
  | call f es ih =>
    have hargs : heightAll es ≤ framesAll es := by
      induction es with
      | nil => exact Nat.le_refl 0
      | cons e es ihes =>
        have he := ih e List.mem_cons_self
        have hes := ihes fun e he => ih e (List.mem_cons_of_mem _ he)
        rw [heightAll, framesAll]
        omega
    rw [height, frames]
    omega

/-! ## Writing and collecting -/

theorem renderWithin_eq_ok_iff :
    e.renderWithin room = .ok form ↔ e.frames ≤ room ∧ e.prefixForm = form := by
  unfold renderWithin
  split
  next h => rw [Except.ok.injEq, and_iff_right h]
  next h => exact iff_of_false nofun fun h' => h h'.1

theorem freeVariablesWithin_eq_ok_iff :
    e.freeVariablesWithin room = .ok names ↔ e.height ≤ room ∧ e.vars = names := by
  unfold freeVariablesWithin
  split
  next h => rw [Except.ok.injEq, and_iff_right h]
  next h => exact iff_of_false nofun fun h' => h h'.1

theorem vars_of_freeVariables (h : e.freeVariablesWithin room = .ok names) : e.vars = names :=
  (freeVariablesWithin_eq_ok_iff.1 h).2

theorem freeVariables_of_le (h : e.height ≤ frameLimit) : e.freeVariables = .ok e.vars := if_pos h

theorem freeVariables_of_lt (h : frameLimit < e.height) :
    e.freeVariables = .error (.tooDeep .collect) :=
  if_neg (Nat.not_le.2 h)

/-- The variables of an expression that has a prefix form can be collected. -/
theorem freeVariables_of_render (h : e.renderWithin room = .ok form) :
    e.freeVariablesWithin room = .ok e.vars :=
  if_pos (Nat.le_trans e.height_le_frames (renderWithin_eq_ok_iff.1 h).1)

/-! ## Tracing -/

/-- Tracing fails on an expression that is too deep to be written out, and does nothing else. -/
theorem traceWithin_eq (e : Expr) :
    e.traceWithin room traced =
      if traced ∧ room < e.frames then .error (.tooDeep .render) else .ok e := by
  cases traced with
  | false => rfl
  | true =>
    show (discard (e.renderWithin room) >>= fun _ => pure e) = _
    unfold renderWithin
    by_cases h : e.frames ≤ room
    · rw [if_pos h, if_neg fun hdeep => Nat.not_lt.2 h hdeep.2]
      rfl
    · rw [if_neg h, if_pos ⟨rfl, Nat.not_le.1 h⟩]
      rfl

theorem traceWithin_eq_ok_iff :
    e.traceWithin room traced = .ok e' ↔ e = e' ∧ (traced → e.frames ≤ room) := by
  rw [traceWithin_eq, ← Nat.not_lt, ← not_and]
  split
  next h => exact iff_of_false nofun fun h' => h'.2 h
  next h => rw [Except.ok.injEq, and_iff_left h]

theorem kind_of_traceWithin {c : Cause} (h : e.traceWithin room traced = .error c) :
    c.kind = .tooDeep := by
  rw [traceWithin_eq] at h
  split at h <;> cases h
  rfl

end ComplexExpr.Expr
