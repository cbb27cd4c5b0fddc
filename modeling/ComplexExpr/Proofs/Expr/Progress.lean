import ComplexExpr.Proofs.Expr.Following

/-!
# Progress of the descent

Every level of the descent follows the parser of its level (`follows_levels`).
So the cursor gets forward and stays among the tokens, and what the parser
cannot throw is not thrown either (`Forward`). A power's loop goes round once at
most, since what raises a power leaves no mark of a power (`not_power_after`).
-/

namespace ComplexExpr.Descent

open Token (Cursor)
open ComplexExpr.Expr (taken)
open Phrase (raisedFrom raisedFrom_mark raisedFrom_stop taken_primary_refused taken_primary_sign)

variable {c : Cursor} {t : Token} {ts rest : List Token} {limit room : ℕ} {traced : Bool} {e : Expr}

/-! ## Powers -/

theorem mem_raising_iff : t ∈ ["**", "^"] ↔ Token.shape t = .power := by
  constructor
  · intro h
    obtain rfl | rfl : t = "**" ∨ t = "^" := by simpa using h
    · exact Token.HasShape.stars.shape
    · exact Token.HasShape.caret.shape
  · intro h
    cases (Token.shape_eq_iff (by decide)).1 h <;> decide

/-- After a power there is no mark of a power. -/
theorem not_power_after (h : taken (Expr.power room ts) = .ok (e, rest)) :
    ∀ t ∈ rest.head?, Token.shape t ≠ .power := by
  induction room generalizing ts e with
  | zero =>
    rw [Expr.taken_power_zero] at h
    cases h
  | succ room ih =>
    rw [Expr.taken_power_succ] at h
    obtain ⟨⟨base, more⟩, -, hraised⟩ := ok_of_bind h
    replace hraised : raisedFrom room base more = .ok (e, rest) := hraised
    cases more with
    | nil =>
      cases hraised
      exact nofun
    | cons t more =>
      by_cases ht : Token.shape t = .power
      · rw [raisedFrom_mark ht] at hraised
        obtain ⟨q, hq, heq⟩ := ok_of_map hraised
        cases heq
        exact ih hq
      · rw [raisedFrom_stop ht] at hraised
        cases hraised
        rintro _ ⟨⟩
        exact ht

theorem powerRounds_stop {m : Reader Expr} (h : ∀ t ∈ c.remaining.head?, Token.shape t ≠ .power) :
    powerRounds (limit + 1) m e c = (0, .ok (e, c)) :=
  rounds_stop fun t ht => mt mem_raising_iff.1 (h t ht)

/-- The loop of a power goes round once at most, and raises the base if a mark of a power is next. -/
theorem powerRounds_of_follows {m : Reader Expr}
    (h : Follows limit m fun ts => taken (Expr.power room ts)) (base : Expr) (c : Cursor)
    (hlimit : c.remaining.length < limit) :
    (powerRounds limit m base c).1 ≤ 1 ∧
      Agrees c (powerRounds limit m base c).2 (raisedFrom room base c.remaining) := by
  obtain ⟨limit, rfl⟩ := Nat.exists_eq_add_one_of_ne_zero (Nat.ne_zero_of_lt hlimit)
  cases hc : c.remaining with
  | nil =>
    rw [powerRounds_stop (by rw [hc]; exact nofun)]
    exact ⟨Nat.zero_le 1, .here hc base⟩
  | cons t ts =>
    by_cases ht : Token.shape t = .power
    · have hnext : (c.skip 1).remaining = ts := Cursor.remaining_skip_one hc
      rw [hc, List.length_cons] at hlimit
      have hexponent : Agrees (c.skip 1) (m (c.skip 1)) (taken (Expr.power room ts)) :=
        hnext ▸ h (c.skip 1) (by rw [hnext]; omega)
      rw [powerRounds, rounds_go hc (mem_raising_iff.2 ht) rfl, raisedFrom_mark ht]
      generalize m (c.skip 1) = o at hexponent
      generalize hr : taken (Expr.power room ts) = r at hexponent
      cases hexponent with
      | throws cause => exact ⟨Nat.le_refl 1, .throws cause⟩
      | @returns exponent n hn =>
        -- the loop is watched for one more round, in which it stops
        obtain ⟨limit, rfl⟩ : ∃ l, limit = l + 1 := Nat.exists_eq_add_one_of_ne_zero (by omega)
        dsimp only
        rw [← powerRounds, powerRounds_stop (not_power_after hr)]
        exact ⟨Nat.le_refl 1, .cons hc (.returns _ hn)⟩
    · rw [powerRounds_stop (by rw [hc]; rintro _ ⟨⟩; exact ht), raisedFrom_stop ht]
      exact ⟨Nat.zero_le 1, .here hc base⟩

/-! ## Levels -/

theorem follows_sum (h : Follows limit (term limit room) fun ts => taken (Expr.term room ts)) :
    Follows limit (sum limit (room + 1)) fun ts => taken (Expr.sum (room + 1) ts) := by
  intro c hlimit
  dsimp only
  rw [sum, Expr.taken_sum_succ]
  refine (h c hlimit).bind fun e n _ hr => ?_
  exact agrees_rounds signs_additive h e _ ((length_lt_of_taken hr).trans hlimit) (Nat.le_refl limit)

theorem follows_term (h : Follows limit (power limit room) fun ts => taken (Expr.power room ts)) :
    Follows limit (term limit (room + 1)) fun ts => taken (Expr.term (room + 1) ts) := by
  intro c hlimit
  dsimp only
  rw [term, Expr.taken_term_succ]
  refine (h c hlimit).bind fun e n _ hr => ?_
  exact agrees_rounds signs_multiplicative h e _ ((length_lt_of_taken hr).trans hlimit)
    (Nat.le_refl limit)

theorem follows_power
    (hpower : Follows limit (power limit room) fun ts => taken (Expr.power room ts))
    (hprimary : Follows limit (primary limit room) fun ts => taken (Expr.primary room ts)) :
    Follows limit (power limit (room + 1)) fun ts => taken (Expr.power (room + 1) ts) := by
  intro c hlimit
  dsimp only
  rw [power, Expr.taken_power_succ]
  refine (hprimary c hlimit).bind fun e n _ hr => ?_
  exact (powerRounds_of_follows hpower e _ ((length_lt_of_taken hr).trans hlimit)).2

/-! ## Primaries -/

theorem isSome_readPlain?_iff :
    (Numeral.readPlain? t.toList).isSome ↔ ∃ n, Token.shape t = .number n := by
  rw [Option.isSome_iff_exists]
  refine exists_congr fun n => ?_
  rw [Numeral.readPlain?_eq_some_iff, Token.shape_eq_iff (by nofun)]
  constructor
  · rintro ⟨⟨hwf, hplain⟩, htext⟩
    rw [← String.ofList_toList (s := t), ← htext]
    exact .number hwf hplain
  · intro h
    cases h with
    | number hwf hplain => exact ⟨⟨hwf, hplain⟩, String.toList_ofList.symm⟩

theorem isName_iff : Token.isName t.toList ↔ Token.shape t = .unit ∨ Token.shape t = .name := by
  constructor
  · intro h
    by_cases hi : t = "i"
    · exact .inl ((shape_eq_iff_of_mark (by decide)).2 hi)
    · exact .inr (Token.HasShape.name h hi).shape
  · rintro (h | h)
    · have hi : t = "i" := (shape_eq_iff_of_mark (by decide)).1 h
      rw [hi]
      decide
    · cases (Token.shape_eq_iff (by decide)).1 h with
      | name h _ => exact h

theorem isSign_iff : t = "+" ∨ t = "-" ↔ ∃ s, Token.shape t = .sign s := by
  have hplus : Token.shape t = .sign .plus ↔ t = "+" := shape_eq_iff_of_mark (by decide)
  have hminus : Token.shape t = .sign .minus ↔ t = "-" := shape_eq_iff_of_mark (by decide)
  rw [← hplus, ← hminus]
  constructor
  · exact fun h => h.elim (fun h => ⟨_, h⟩) fun h => ⟨_, h⟩
  · rintro ⟨s, hs⟩
    cases s with
    | plus => exact .inl hs
    | minus => exact .inr hs

/-- The tests that a primary makes of the next token tell its shape. -/
theorem primary_cons (hc : c.remaining = t :: ts) :
    primary limit (room + 1) c =
      (match Token.shape t with
        | .opening => group (sum limit room)
        | .number _ => numeral
        | .unit => unit
        | .name => callOrName limit (sum limit room)
        | .sign _ => signed (primary limit room)
        | _ => throw (Thrown.failure (.invalidPrimary (some t)))) c := by
  have hopening : Token.shape t = .opening ↔ t = "(" := shape_eq_iff_of_mark (by decide)
  have hunit : Token.shape t = .unit ↔ t = "i" := shape_eq_iff_of_mark (by decide)
  rw [primary, peek_bind, Cursor.peek?_eq_some hc]
  classical
  simp only [Option.some_inj, Option.any_some, isSome_readPlain?_iff, isName_iff, isSign_iff,
    ← hopening, ← hunit]
  cases Token.shape t <;> simp

theorem follows_primary
    (hsum : Follows limit (sum limit room) fun ts => taken (Expr.sum room ts))
    (hprimary : Follows limit (primary limit room) fun ts => taken (Expr.primary room ts)) :
    Follows limit (primary limit (room + 1)) fun ts => taken (Expr.primary (room + 1) ts) := by
  intro c hlimit
  dsimp only
  cases hc : c.remaining with
  | nil =>
    rw [primary, peek_bind, Cursor.peek?_eq_none hc, Expr.taken_primary_nil]
    exact .throws (.invalidPrimary none)
  | cons t ts =>
    have hshort : ts.length < limit := by
      rw [hc, List.length_cons] at hlimit
      omega
    rw [primary_cons hc]
    cases hs : Token.shape t with
    | sign s =>
      rw [taken_primary_sign hs]
      exact agrees_signed hprimary hs hc hshort
    | opening =>
      have ht : t = "(" := (shape_eq_iff_of_mark (by decide)).1 hs
      rw [Expr.taken_primary_opening hs]
      exact agrees_group hsum (ht ▸ hc) hshort
    | number n =>
      rw [Expr.taken_primary_number hs]
      exact agrees_numeral hs hc
    | unit =>
      rw [Expr.taken_primary_unit hs]
      exact agrees_unit hs hc
    | name =>
      rw [Expr.taken_primary_name hs]
      exact agrees_callOrName hsum hc hshort
    | _ =>
      rw [taken_primary_refused (by rw [hs]; exact id)]
      exact .throws (.invalidPrimary (some t))

/-! ## All levels -/

theorem follows_levels (limit room : ℕ) :
    Follows limit (sum limit room) (fun ts => taken (Expr.sum room ts)) ∧
    Follows limit (term limit room) (fun ts => taken (Expr.term room ts)) ∧
    Follows limit (power limit room) (fun ts => taken (Expr.power room ts)) ∧
    Follows limit (primary limit room) (fun ts => taken (Expr.primary room ts)) := by
  induction room with
  | zero =>
    have hdeep {m : Reader Expr} {f : Phrase.Taker Expr} (hm : m = throw (.failure (.tooDeep .parse)))
        (hf : ∀ ts, f ts = .error (.tooDeep .parse)) : Follows limit m f := by
      intro c _
      rw [hm, hf]
      exact .throws (.tooDeep .parse)
    exact ⟨hdeep (by rw [sum]) fun _ => Expr.taken_sum_zero,
      hdeep (by rw [term]) fun _ => Expr.taken_term_zero,
      hdeep (by rw [power]) fun _ => Expr.taken_power_zero,
      hdeep (by rw [primary]) fun _ => Expr.taken_primary_zero⟩
  | succ room ih =>
    obtain ⟨hsum, hterm, hpower, hprimary⟩ := ih
    exact ⟨follows_sum hterm, follows_term hpower, follows_power hpower hprimary,
      follows_primary hsum hprimary⟩

/-! ## Forward calls -/

/-- A call at a cursor moves the cursor on, to the end of the tokens at most, or fails, as a
parenthesis is not closed, an operand is missing or the frames run out. -/
inductive Forward (c : Cursor) : Except Thrown (Expr × Cursor) → Prop
  | returns (e : Expr) {c' : Cursor} (htokens : c'.tokens = c.tokens)
      (hforward : c.position < c'.position) (hend : c'.position ≤ c.tokens.length) :
      Forward c (.ok (e, c'))
  | throws (cause : Cause)
      (hkind : cause.kind ∈ [.unclosedParenthesis, .invalidPrimary, .tooDeep]) :
      Forward c (.error (.failure cause))

/-- What blocks the way of a parser is a missing operand or parenthesis. -/
theorem kind_of_ahead {α A : Type} {tokens : A → List Token} {f : Phrase.Taker α} {cause : Cause}
    (h : Phrase.Ahead (Phrase.Stalls tokens) f ts) (hf : f ts = .error cause) :
    cause.kind ∈ [Kind.unclosedParenthesis, .invalidPrimary, .tooDeep] := by
  by_cases hdeep : cause = .tooDeep .parse
  · rw [hdeep]
    decide
  · obtain ⟨p, r, -, ⟨hblocked, -⟩, -⟩ := h.error hf hdeep
    cases hblocked <;> simp [Cause.kind]

theorem forward_of_follows {A : Type} {tokens : A → List Token} {m : Reader Expr}
    {parser : Expr.Parser} (hm : Follows limit m fun ts => taken (parser ts))
    (ha : ∀ ts, Phrase.Ahead (Phrase.Stalls tokens) (fun ts => taken (parser ts)) ts)
    (c : Cursor) (hlimit : c.remaining.length < limit) : Forward c (m c) := by
  have hagrees : Agrees c (m c) (taken (parser c.remaining)) := hm c hlimit
  generalize m c = o at hagrees
  generalize hr : taken (parser c.remaining) = r at hagrees
  cases hagrees with
  | throws cause => exact .throws cause (kind_of_ahead (ha c.remaining) hr)
  | @returns e n hn =>
    have hlen := length_lt_of_taken hr
    rw [Cursor.remaining_skip, List.length_drop] at hlen
    rw [Cursor.remaining, List.length_drop] at hn hlen
    exact .returns e rfl (Nat.lt_add_of_pos_right (by omega))
      (show c.position + n ≤ c.tokens.length by omega)

theorem parse_eq_mapError (h : ts.length < limit) :
    parse limit room traced ts = (Expr.parseWithin room traced ts).mapError .failure := by
  have hsum : Agrees ⟨ts, 0⟩ (sum limit room ⟨ts, 0⟩) (taken (Expr.sum room ts)) :=
    (follows_levels limit room).1 ⟨ts, 0⟩ h
  rw [Expr.parseWithin_eq, parse, StateT.run', whole]
  generalize ho : sum limit room ⟨ts, 0⟩ = o at hsum
  generalize taken (Expr.sum room ts) = r at hsum
  cases hsum with
  | throws cause =>
    rw [bind_of_error ho]
    rfl
  | @returns e n hn =>
    have hget {k : Cursor → Reader Expr} (c : Cursor) : (get >>= k) c = k c c := rfl
    rw [bind_of_ok ho, hget]
    cases (Cursor.mk ts 0 |>.skip n).remaining with
    | nil =>
      show _ = (e.traceWithin room traced).mapError Thrown.failure
      cases e.traceWithin room traced <;> rfl
    | cons t rest => rfl

theorem kind_of_parse {cause : Cause} (h : Expr.parseWithin room traced ts = .error cause) :
    cause.kind ∈ [Kind.unclosedParenthesis, .invalidPrimary, .trailingTokens, .tooDeep] := by
  rw [Expr.parseWithin_eq] at h
  obtain hsum | ⟨⟨e, rest⟩, -, hrest⟩ := error_of_bind h
  · have hsub : [Kind.unclosedParenthesis, .invalidPrimary, .tooDeep] ⊆
        [.unclosedParenthesis, .invalidPrimary, .trailingTokens, .tooDeep] := by decide
    exact hsub (kind_of_ahead ((Phrase.ahead_levels room).1 ts) hsum)
  · cases rest with
    | nil => simp [Expr.kind_of_traceWithin hrest]
    | cons t rest =>
      cases hrest
      simp [Cause.kind]

/-- Every call of a level gets forward or fails, and stays among the tokens; a power's loop goes
round once at most; and the whole list of tokens is read as the parser reads it, or refused as it
refuses it: for a parenthesis, for an operand, for what is left or for its depth. The limit of the
program is `Expr.frameLimit`. -/
theorem calls_forward (h : ts.length < limit) :
    (∀ room position, ∀ m ∈ [sum limit room, term limit room, power limit room, primary limit room],
      Forward ⟨ts, position⟩ (m ⟨ts, position⟩)) ∧
    (∀ room base position, (powerRounds limit (power limit room) base ⟨ts, position⟩).1 ≤ 1) ∧
    ∀ room traced,
      (∃ e, parse limit room traced ts = .ok e ∧ Expr.parseWithin room traced ts = .ok e) ∨
      ∃ cause, parse limit room traced ts = .error (.failure cause) ∧
        Expr.parseWithin room traced ts = .error cause ∧
        cause.kind ∈ [.unclosedParenthesis, .invalidPrimary, .trailingTokens, .tooDeep] := by
  have hshort (position : ℕ) : (Cursor.mk ts position).remaining.length < limit := by
    rw [Cursor.remaining, List.length_drop]
    exact (Nat.sub_le _ _).trans_lt h
  refine ⟨fun room position => ?_, fun room base position => ?_, fun room traced => ?_⟩
  · obtain ⟨hsum, hterm, hpower, hprimary⟩ := follows_levels limit room
    obtain ⟨asum, aterm, apower, aprimary⟩ := Phrase.ahead_levels room
    have hc := hshort position
    simp only [List.forall_mem_cons]
    exact ⟨forward_of_follows hsum asum _ hc, forward_of_follows hterm aterm _ hc,
      forward_of_follows hpower apower _ hc, forward_of_follows hprimary aprimary _ hc,
      List.forall_mem_nil _⟩
  · exact (powerRounds_of_follows (follows_levels limit room).2.2.1 base _ (hshort position)).1
  · rw [parse_eq_mapError h]
    cases hparse : Expr.parseWithin room traced ts with
    | ok e => exact .inl ⟨e, rfl, rfl⟩
    | error cause => exact .inr ⟨cause, rfl, rfl, kind_of_parse hparse⟩

/-- In `x ^ 2 i ** y` the loop of the power that starts at `x` goes round once: the other mark is taken
in that round. -/
theorem calls_forward_two_marks :
    ["x", "^", "2", "i", "**", "y"].length < 7 ∧
      Forward ⟨["x", "^", "2", "i", "**", "y"], 0⟩ (power 7 4 ⟨["x", "^", "2", "i", "**", "y"], 0⟩) ∧
      (powerRounds 7 (power 7 3) (.var "x") ⟨["x", "^", "2", "i", "**", "y"], 1⟩).1 = 1 ∧
      ∃ e, parse 7 Expr.frameLimit false ["x", "^", "2", "i", "**", "y"] = .ok e ∧
        Expr.parse ["x", "^", "2", "i", "**", "y"] = .ok e := by
  have hlength : ["x", "^", "2", "i", "**", "y"].length < 7 := by decide
  obtain ⟨hforward, hrounds, hparse⟩ := calls_forward hlength
  have hread : (Expr.parse ["x", "^", "2", "i", "**", "y"]).toOption.isSome := by decide +kernel
  have hround : 1 ≤ (powerRounds 7 (power 7 3) (.var "x") ⟨["x", "^", "2", "i", "**", "y"], 1⟩).1 := by
    decide +kernel
  refine ⟨hlength, hforward 4 0 _ (by simp), Nat.le_antisymm (hrounds 3 _ 1) hround, ?_⟩
  obtain hok | ⟨cause, -, herror, -⟩ := hparse Expr.frameLimit false
  · exact hok
  · rw [Expr.parse, herror] at hread
    cases hread

end ComplexExpr.Descent
