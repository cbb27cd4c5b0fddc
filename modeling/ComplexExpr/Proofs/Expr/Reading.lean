import ComplexExpr.Proofs.Expr.Phrase
import ComplexExpr.Proofs.Expr.Taken

/-!
# Reading phrases

The parser of a level takes a phrase of the level off the front of its tokens,
if the frames suffice and what follows does not go on with the phrase
(`Phrase.Ends`), and otherwise finds that the frames do not suffice
(`Sum.taken_tokens` and its like, by one induction over the five kinds of
phrases). A list of tokens that is a sum is parsed as that sum
(`Sum.parse_tokens`).
-/

namespace ComplexExpr

/-- How tightly a token binds to the phrase before it: `i` and a parenthesis tie themselves to a
number or a name, and a sign to no less than a sum. -/
def Token.Shape.grip : Shape → Nat
  | .unit | .opening => 4
  | .power => 3
  | .times | .over => 2
  | .sign _ => 1
  | _ => 0

namespace Phrase

open ComplexExpr.Expr (taken chain additive? multiplicative? arguments callArguments closing
  taken_chain_nil taken_chain_stop taken_chain_step taken_sum_succ taken_term_succ taken_power_succ
  taken_primary_cons taken_primary_opening taken_primary_number taken_primary_unit
  taken_primary_name taken_arguments taken_group taken_closing_cons taken_callArguments
  taken_callOrName_cons taken_numeral_cons taken_closing_of_ne ok_bind)

/-- No token that binds more tightly than `k` comes next. -/
def Ends (k : Nat) (rest : List Token) : Prop := ∀ t ∈ rest.head?, (Token.shape t).grip ≤ k

variable {k : Nat} {t : Token} {rest : List Token} {left : Expr} {room : Nat}

theorem ends_nil : Ends k [] := fun _ h => nomatch h

theorem ends_cons : Ends k (t :: rest) ↔ (Token.shape t).grip ≤ k := by
  simp [Ends]

theorem Ends.mono {j : Nat} (h : Ends j rest) (hjk : j ≤ k) : Ends k rest :=
  fun t ht => Nat.le_trans (h t ht) hjk

theorem Ends.shape_ne {s : Token.Shape} (h : Ends k (t :: rest)) (hs : k < s.grip) :
    Token.shape t ≠ s := by
  rintro rfl
  exact Nat.not_le.2 hs (ends_cons.1 h)

/-! ## The shapes of a phrase's own tokens -/

theorem shape_signToken (s : Sign) : Token.shape (signToken s) = .sign s := by
  cases s
  · exact Token.HasShape.plus.shape
  · exact Token.HasShape.minus.shape

theorem shape_raising (m : Raising) : Token.shape m.token = .power := by
  cases m
  · exact Token.HasShape.stars.shape
  · exact Token.HasShape.caret.shape

theorem shape_number (n : Number) : Token.shape n.token = .number n.numeral :=
  (Token.HasShape.number n.wellFormed n.plain).shape

theorem shape_name (x : Name) : Token.shape x.token = .name :=
  (Token.HasShape.name x.isName x.ne_unit).shape

theorem shape_opening : Token.shape "(" = .opening := Token.HasShape.opening.shape
theorem shape_closing : Token.shape ")" = .closing := Token.HasShape.closing.shape
theorem shape_comma : Token.shape "," = .comma := Token.HasShape.comma.shape
theorem shape_unit : Token.shape "i" = .unit := Token.HasShape.unit.shape

theorem ends_closing : Ends k (")" :: rest) :=
  ends_cons.2 (by rw [shape_closing]; exact Nat.zero_le k)

theorem ends_comma : Ends k ("," :: rest) :=
  ends_cons.2 (by rw [shape_comma]; exact Nat.zero_le k)

theorem additive?_signToken (s : Sign) :
    additive? (Token.shape (signToken s)) = some (signOp s) := by
  rw [shape_signToken]; cases s <;> rfl

theorem multiplicative?_token (m : Scaling) :
    multiplicative? (Token.shape m.token) = some m.op := by
  cases m
  · rw [show Token.shape Scaling.times.token = .times from Token.HasShape.times.shape]; rfl
  · rw [show Token.shape Scaling.over.token = .over from Token.HasShape.over.shape]; rfl

theorem grip_scaling (m : Scaling) : (Token.shape m.token).grip = 2 := by
  cases m
  · exact congrArg _ Token.HasShape.times.shape
  · exact congrArg _ Token.HasShape.over.shape

/-! ## First tokens -/

/-- The shapes of the tokens that a phrase may open with. -/
def Opens (s : Token.Shape) : Prop :=
  match s with
  | .opening | .number _ | .unit | .name | .sign _ => True
  | _ => False

/-- The shape of a primary's first token. -/
def Primary.kind : Primary → Token.Shape
  | .group _ => .opening
  | .number n | .imaginary n => .number n.numeral
  | .unit => .unit
  | .name _ | .callEmpty _ | .call .. => .name
  | .signed sign _ => .sign sign

theorem Primary.head_kind (p : Primary) : ∃ t ts, p.tokens = t :: ts ∧ Token.shape t = p.kind := by
  cases p <;> rw [Primary.tokens]
  case group s => exact ⟨_, _, rfl, shape_opening⟩
  case number n => exact ⟨_, _, rfl, shape_number n⟩
  case imaginary n => exact ⟨_, _, rfl, shape_number n⟩
  case unit => exact ⟨_, _, rfl, shape_unit⟩
  case name x => exact ⟨_, _, rfl, shape_name x⟩
  case callEmpty f => exact ⟨_, _, rfl, shape_name f⟩
  case call f args => exact ⟨_, _, rfl, shape_name f⟩
  case signed sign p => exact ⟨_, _, rfl, shape_signToken sign⟩

theorem Primary.head_tokens (p : Primary) :
    ∃ t ts, p.tokens = t :: ts ∧ Opens (Token.shape t) := by
  obtain ⟨t, ts, h, hk⟩ := p.head_kind
  exact ⟨t, ts, h, by rw [hk]; cases p <;> trivial⟩

theorem Power.head_tokens (p : Power) : ∃ t ts, p.tokens = t :: ts ∧ Opens (Token.shape t) := by
  cases p with
  | primary p => exact p.head_tokens
  | raise base mark exponent =>
    obtain ⟨t, ts, h, ho⟩ := base.head_tokens
    exact ⟨t, _, by rw [Power.tokens, h]; rfl, ho⟩

theorem Term.head_tokens : ∀ t : Term, ∃ u ts, t.tokens = u :: ts ∧ Opens (Token.shape u)
  | .power p => p.head_tokens
  | .join t mark p => by
    obtain ⟨u, ts, h, ho⟩ := t.head_tokens
    exact ⟨u, _, by rw [Term.tokens, h]; rfl, ho⟩

theorem Sum.head_tokens : ∀ s : Sum, ∃ t ts, s.tokens = t :: ts ∧ Opens (Token.shape t)
  | .term t => t.head_tokens
  | .join s sign t => by
    obtain ⟨u, ts, h, ho⟩ := s.head_tokens
    exact ⟨u, _, by rw [Sum.tokens, h]; rfl, ho⟩

theorem Arguments.head_tokens (args : Arguments) :
    ∃ t ts, args.tokens = t :: ts ∧ Opens (Token.shape t) := by
  cases args with
  | last s => exact s.head_tokens
  | cons s args =>
    obtain ⟨t, ts, h, ho⟩ := s.head_tokens
    exact ⟨t, _, by rw [Arguments.tokens, h]; rfl, ho⟩

/-- Arguments do not open with the parenthesis that closes them. -/
theorem Arguments.taken_closing (args : Arguments) {e : Cause} :
    taken (closing e (args.tokens ++ rest)) = .error e := by
  obtain ⟨t, ts, h, ho⟩ := args.head_tokens
  rw [h, List.cons_append]
  exact taken_closing_of_ne fun hc => by rw [hc] at ho; exact ho

/-! ## Where chains end -/

theorem additive?_of_grip {s : Token.Shape} (h : s.grip ≤ 0) : additive? s = none := by
  cases s <;> first | rfl | simp [Token.Shape.grip] at h

theorem multiplicative?_of_grip {s : Token.Shape} (h : s.grip ≤ 1) : multiplicative? s = none := by
  cases s <;> first | rfl | simp [Token.Shape.grip] at h

theorem taken_additive_end {operand : Expr.Parser} (h : Ends 0 rest) :
    taken (chain additive? operand left rest) = .ok (left, rest) := by
  cases rest with
  | nil => exact taken_chain_nil
  | cons t rest => exact taken_chain_stop (additive?_of_grip (ends_cons.1 h))

theorem taken_multiplicative_end {operand : Expr.Parser} (h : Ends 1 rest) :
    taken (chain multiplicative? operand left rest) = .ok (left, rest) := by
  cases rest with
  | nil => exact taken_chain_nil
  | cons t rest => exact taken_chain_stop (multiplicative?_of_grip (ends_cons.1 h))

/-! ## Frames -/

theorem Sum.frames_pos (s : Sum) : 0 < s.frames := by cases s <;> rw [Sum.frames] <;> omega
theorem Term.frames_pos (t : Term) : 0 < t.frames := by cases t <;> rw [Term.frames] <;> omega
theorem Power.frames_pos (p : Power) : 0 < p.frames := by cases p <;> rw [Power.frames] <;> omega
theorem Primary.frames_pos (p : Primary) : 0 < p.frames := by
  cases p <;> rw [Primary.frames] <;> omega

/-- What comes of reading that needs `frames` of the frames that are left. -/
def within {α : Type} (frames room : Nat) (r : Except Cause α) : Except Cause α :=
  if frames ≤ room then r else .error (.tooDeep .parse)

theorem within_of_le {α : Type} {frames : Nat} {r : Except Cause α} (h : frames ≤ room) :
    within frames room r = r := if_pos h

theorem within_of_lt {α : Type} {frames : Nat} {r : Except Cause α} (h : room < frames) :
    within frames room r = .error (.tooDeep .parse) := if_neg (Nat.not_le.2 h)

theorem within_zero {α : Type} {frames : Nat} {r : Except Cause α} (h : 0 < frames) :
    within frames 0 r = .error (.tooDeep .parse) := within_of_lt h

theorem within_one {α : Type} {r : Except Cause α} : within 1 (room + 1) r = r :=
  within_of_le (Nat.le_add_left 1 room)

theorem within_succ {α : Type} {frames : Nat} {r : Except Cause α} :
    within (frames + 1) (room + 1) r = within frames room r := by
  unfold within
  simp only [Nat.add_le_add_iff_right]

theorem within_bind {α β : Type} {frames : Nat} {r : Except Cause α} {f : α → Except Cause β} :
    (within frames room r >>= f) = within frames room (r >>= f) := by
  unfold within
  split <;> rfl

theorem within_map {α β : Type} {frames : Nat} {r : Except Cause α} {f : α → β} :
    (within frames room r).map f = within frames room (r.map f) := by
  unfold within
  split <;> rfl

theorem within_within {α : Type} {m n : Nat} {r : Except Cause α} :
    within m room (within n room r) = within (max m n) room r := by
  unfold within
  split
  · split
    · rw [if_pos (by omega)]
    · rw [if_neg (by omega)]
  · rw [if_neg (by omega)]

/-- An operand of a chain is read with one frame less than the chain. -/
theorem within_operand {α : Type} {m n : Nat} {r : Except Cause α} :
    within m (room + 1) (within n room r) = within (max m (n + 1)) (room + 1) r := by
  rw [← within_within, within_succ]

/-- A sign is taken with the primary after it. -/
theorem taken_primary_sign {s : Sign} {ts : List Token} (h : Token.shape t = .sign s) :
    taken (Expr.primary (room + 1) (t :: ts)) =
      (taken (Expr.primary room ts)).map fun q => (signed s q.1, q.2) := by
  rw [taken_primary_cons, h]
  cases s with
  | plus => cases taken (Expr.primary room ts) <;> rfl
  | minus => rfl

theorem taken_primary_refused {ts : List Token} (h : ¬Opens (Token.shape t)) :
    taken (Expr.primary (room + 1) (t :: ts)) = .error (.invalidPrimary (some t)) := by
  rw [taken_primary_cons]
  cases hs : Token.shape t <;> rw [hs] at h <;> first | rfl | exact absurd trivial h

/-! ## Primaries with no phrase inside -/

theorem Primary.taken_number (n : Number) (h : Ends 3 rest) :
    taken (Expr.primary (room + 1) ((Primary.number n).tokens ++ rest)) =
      .ok ((Primary.number n).tree, rest) := by
  rw [Primary.tokens, List.singleton_append, taken_primary_number (shape_number n)]
  cases rest with
  | nil => rfl
  | cons t rest =>
    rw [taken_numeral_cons, if_neg (h.shape_ne (by decide))]
    rfl

theorem Primary.taken_imaginary (n : Number) :
    taken (Expr.primary (room + 1) ((Primary.imaginary n).tokens ++ rest)) =
      .ok ((Primary.imaginary n).tree, rest) := by
  rw [Primary.tokens, List.cons_append, List.singleton_append,
    taken_primary_number (shape_number n), taken_numeral_cons, if_pos shape_unit]
  rfl

theorem Primary.taken_unit :
    taken (Expr.primary (room + 1) (Primary.unit.tokens ++ rest)) = .ok (Primary.unit.tree, rest) := by
  rw [Primary.tokens, List.singleton_append, taken_primary_unit shape_unit]
  rfl

theorem Primary.taken_name (x : Name) (h : Ends 3 rest) :
    taken (Expr.primary (room + 1) ((Primary.name x).tokens ++ rest)) =
      .ok ((Primary.name x).tree, rest) := by
  rw [Primary.tokens, List.singleton_append, taken_primary_name (shape_name x)]
  cases rest with
  | nil => rfl
  | cons t rest =>
    rw [taken_callOrName_cons, if_neg (h.shape_ne (by decide))]
    rfl

theorem Primary.taken_callEmpty (f : Name) :
    taken (Expr.primary (room + 1) ((Primary.callEmpty f).tokens ++ rest)) =
      .ok ((Primary.callEmpty f).tree, rest) := by
  rw [Primary.tokens, List.cons_append, List.cons_append, List.singleton_append,
    taken_primary_name (shape_name f), taken_callOrName_cons, if_pos shape_opening,
    taken_callArguments, taken_closing_cons, if_pos shape_closing]
  rfl

/-! ## Reading -/

/-- A sum's tokens bring the parser of sums to the end of its chain. -/
def Sum.IsTaken (s : Sum) : Prop :=
  ∀ (room : Nat) {rest : List Token}, Ends 1 rest →
    taken (Expr.sum (room + 1) (s.tokens ++ rest)) =
      within s.frames (room + 1) (taken (chain additive? (Expr.term room) s.tree rest))

/-- A term's tokens bring the parser of terms to the end of its chain. -/
def Term.IsTaken (t : Term) : Prop :=
  ∀ (room : Nat) {rest : List Token}, Ends 2 rest →
    taken (Expr.term (room + 1) (t.tokens ++ rest)) =
      within t.frames (room + 1) (taken (chain multiplicative? (Expr.power room) t.tree rest))

theorem Sum.IsTaken.ends {s : Sum} (hs : s.IsTaken) (room : Nat) {rest : List Token}
    (h : Ends 0 rest) :
    taken (Expr.sum room (s.tokens ++ rest)) = within s.frames room (.ok (s.tree, rest)) := by
  cases room with
  | zero => rw [Expr.taken_sum_zero, within_zero s.frames_pos]
  | succ room => rw [hs room (h.mono (by decide)), taken_additive_end h]

theorem Term.IsTaken.ends {t : Term} (ht : t.IsTaken) (room : Nat) {rest : List Token}
    (h : Ends 1 rest) :
    taken (Expr.term room (t.tokens ++ rest)) = within t.frames room (.ok (t.tree, rest)) := by
  cases room with
  | zero => rw [Expr.taken_term_zero, within_zero t.frames_pos]
  | succ room => rw [ht room (h.mono (by decide)), taken_multiplicative_end h]

mutual

theorem Sum.taken_tokens (s : Sum) : s.IsTaken := by
  intro room rest h
  cases s with
  | term t =>
    rw [Sum.tokens, taken_sum_succ, t.taken_tokens.ends room h, within_bind, Sum.frames, within_succ]
    rfl
  | join s sign t =>
    have hs : Ends 1 (signToken sign :: (t.tokens ++ rest)) :=
      ends_cons.2 (by rw [shape_signToken]; exact Nat.le_refl 1)
    rw [Sum.tokens, List.append_assoc, List.cons_append, s.taken_tokens room hs,
      taken_chain_step (additive?_signToken sign), t.taken_tokens.ends room h, within_bind,
      within_operand, Sum.frames]
    rfl

theorem Term.taken_tokens (t : Term) : t.IsTaken := by
  intro room rest h
  cases t with
  | power p =>
    rw [Term.tokens, taken_term_succ, p.taken_tokens room h, within_bind, Term.frames, within_succ]
    rfl
  | join t mark p =>
    have ht : Ends 2 (mark.token :: (p.tokens ++ rest)) :=
      ends_cons.2 (by rw [grip_scaling])
    rw [Term.tokens, List.append_assoc, List.cons_append, t.taken_tokens room ht,
      taken_chain_step (multiplicative?_token mark), p.taken_tokens room h, within_bind,
      within_operand, Term.frames]
    rfl

theorem Power.taken_tokens (p : Power) (room : Nat) {rest : List Token} (h : Ends 2 rest) :
    taken (Expr.power room (p.tokens ++ rest)) = within p.frames room (.ok (p.tree, rest)) := by
  cases room with
  | zero => rw [Expr.taken_power_zero, within_zero p.frames_pos]
  | succ room =>
    cases p with
    | primary p =>
      rw [Power.tokens, taken_power_succ, p.taken_tokens room (h.mono (by decide)), within_bind,
        Power.frames, within_succ]
      cases rest with
      | nil => rfl
      | cons t rest =>
        have ht : Token.shape t ≠ .power := h.shape_ne (by decide)
        show within _ _ (if Token.shape t = .power then _ else _) = _
        rw [if_neg ht]
        rfl
    | raise base mark exponent =>
      have hb : Ends 3 (mark.token :: (exponent.tokens ++ rest)) :=
        ends_cons.2 (by rw [shape_raising]; exact Nat.le_refl 3)
      rw [Power.tokens, List.append_assoc, List.cons_append, taken_power_succ,
        base.taken_tokens room hb, within_bind, Power.frames, within_succ]
      show within _ _ (if Token.shape mark.token = .power then _ else _) = _
      rw [if_pos (shape_raising mark), exponent.taken_tokens room h, within_map, within_within]
      rfl

theorem Primary.taken_tokens (p : Primary) (room : Nat) {rest : List Token} (h : Ends 3 rest) :
    taken (Expr.primary room (p.tokens ++ rest)) = within p.frames room (.ok (p.tree, rest)) := by
  cases room with
  | zero => rw [Expr.taken_primary_zero, within_zero p.frames_pos]
  | succ room =>
    cases p with
    | group s =>
      rw [Primary.tokens, List.cons_append, List.append_assoc, List.singleton_append,
        taken_primary_opening shape_opening, taken_group,
        s.taken_tokens.ends room ends_closing, within_bind, ok_bind, taken_closing_cons,
        if_pos shape_closing, Primary.frames, within_succ]
      rfl
    | number n => rw [Primary.taken_number n h, Primary.frames, within_one]
    | imaginary n => rw [Primary.taken_imaginary, Primary.frames, within_one]
    | unit => rw [Primary.taken_unit, Primary.frames, within_one]
    | name x => rw [Primary.taken_name x h, Primary.frames, within_one]
    | callEmpty f => rw [Primary.taken_callEmpty, Primary.frames, within_one]
    | call f args =>
      rw [Primary.tokens, List.cons_append, List.cons_append, List.append_assoc,
        List.singleton_append, taken_primary_name (shape_name f), taken_callOrName_cons,
        if_pos shape_opening, taken_callArguments, args.taken_closing]
      show (taken (arguments _ _) >>= _).map _ = _
      rw [args.taken_tokens room, within_bind, ok_bind, taken_closing_cons, if_pos shape_closing,
        within_map, Primary.frames, within_succ]
      rfl
    | signed sign p =>
      rw [Primary.tokens, List.cons_append, taken_primary_sign (shape_signToken sign),
        p.taken_tokens room h, within_map, Primary.frames, within_succ]
      rfl

theorem Arguments.taken_tokens (args : Arguments) (room : Nat) {rest : List Token} :
    taken (arguments (Expr.sum room) (args.tokens ++ ")" :: rest)) =
      within args.frames room (.ok (args.trees, ")" :: rest)) := by
  cases args with
  | last s =>
    rw [Arguments.tokens, taken_arguments, s.taken_tokens.ends room ends_closing, within_bind,
      ok_bind]
    show within _ _ (if Token.shape ")" = .comma then Except.map _ _ else _) = _
    rw [if_neg (by rw [shape_closing]; decide)]
    rfl
  | cons s args =>
    rw [Arguments.tokens, List.append_assoc, List.cons_append, taken_arguments,
      s.taken_tokens.ends room ends_comma, within_bind, ok_bind]
    show within _ _ (if Token.shape "," = .comma then Except.map _ _ else _) = _
    rw [if_pos shape_comma, args.taken_tokens room, within_map, within_within]
    rfl

end

/-- A list of tokens that is a sum is parsed as that sum, if the frames suffice, and then traced. -/
theorem Sum.parse_tokens (s : Sum) (room : Nat) (traced : Bool) :
    Expr.parseWithin room traced s.tokens =
      if s.frames ≤ room then s.tree.traceWithin room traced else .error (.tooDeep .parse) := by
  have h := s.taken_tokens.ends room ends_nil
  rw [List.append_nil] at h
  rw [Expr.parseWithin_eq, h, within_bind]
  rfl

end Phrase

end ComplexExpr
