import ComplexExpr.Proofs.Expr.Lookahead
import ComplexExpr.Proofs.Expr.Nesting

/-!
# The earliest error

Tokens are `Viable` if some expression opens with them. In a list of tokens
that is no expression there is one place where this ends (`DeadEnd`): the
tokens before it are viable, and not with the next. What the parser reports is
about this place, unless the frames run out (`parse_error_at_deadEnd`); what
may be reported there is said without the parser (`Diagnosis`).
-/

namespace ComplexExpr.Phrase

open ComplexExpr.Expr (taken parseWithin parseWithin_eq kind_of_traceWithin)

/-- Some sum opens with these tokens. -/
def Viable (ts : List Token) : Prop := ∃ (s : Sum) (more : List Token), s.tokens = ts ++ more

/-- The first `k` tokens are viable, and with the next token, if there is one, they are not. -/
def DeadEnd (ts : List Token) (k : ℕ) : Prop :=
  Viable (ts.take k) ∧ (k = ts.length ∨ ¬Viable (ts.take (k + 1)))

/-- The last of the arguments in `inside`: what stands after the last comma outside parentheses. -/
structure LastArgument (inside last : List Token) : Prop where
  compact : Compact last
  eq_or_append : inside = last ∨ ∃ others, Balanced others ∧ inside = others ++ "," :: last

/-- What may be reported about the place before token `k`, by its kind, code and fragment. -/
inductive Diagnosis (ts : List Token) (k : ℕ) : Kind → String → String → Prop
  /-- No operand starts with the token, or the tokens are at their end. -/
  | invalidPrimary : Diagnosis ts k .invalidPrimary "3012" (ts[k]?.getD "end of input")
  /-- No parenthesis is open, and the tokens before are an expression. -/
  | trailingTokens (s : Sum) (hs : s.tokens = ts.take k) (hopen : Balanced (ts.take k))
      (hk : k < ts.length) :
      Diagnosis ts k .trailingTokens "3013" (" ".intercalate (ts.drop k))
  /-- The innermost open parenthesis is that of a group, and what stands in it is a sum. -/
  | unclosedGroup {before : List Token} (hgroup : ∀ t ∈ before.getLast?, Token.shape t ≠ .name)
      (s : Sum) (hts : ts.take k = before ++ "(" :: s.tokens) (hopen : Balanced s.tokens) :
      Diagnosis ts k .unclosedParenthesis "3009" "("
  /-- The innermost open parenthesis is that of a call, and its last argument is a sum. -/
  | unclosedCall {before inside : List Token} (f : Name) (s : Sum)
      (hts : ts.take k = before ++ f.token :: "(" :: inside) (hopen : Balanced inside)
      (hlast : LastArgument inside s.tokens) :
      Diagnosis ts k .unclosedParenthesis "3217" f.token

variable {ts us : List Token} {c : Cause} {room : ℕ} {traced : Bool}

/-! ## Dead ends -/

theorem Viable.of_append (h : Viable (ts ++ us)) : Viable ts := by
  obtain ⟨s, more, hs⟩ := h
  exact ⟨s, us ++ more, by rw [hs, List.append_assoc]⟩

theorem Viable.take {j k : ℕ} (h : Viable (ts.take k)) (hjk : j ≤ k) : Viable (ts.take j) := by
  rw [← List.take_append_drop j (ts.take k), List.take_take, Nat.min_eq_left hjk] at h
  exact h.of_append

/-- There is one dead end at most: beyond it nothing is viable. -/
theorem DeadEnd.unique {j k : ℕ} (hj : DeadEnd ts j) (hk : DeadEnd ts k) (hjle : j ≤ ts.length)
    (hkle : k ≤ ts.length) : j = k := by
  have hle {j k : ℕ} (hj : DeadEnd ts j) (hk : DeadEnd ts k) (hkle : k ≤ ts.length) : k ≤ j := by
    by_contra hlt
    have hnext := hk.1.take (show j + 1 ≤ k by omega)
    rcases hj.2 with rfl | hdead
    · omega
    · exact hdead hnext
  exact Nat.le_antisymm (hle hk hj hjle) (hle hj hk hkle)

/-! ## Where parsing stops -/

theorem Arguments.exists_lastArgument : ∀ args : Arguments,
    ∃ s : Sum, LastArgument args.tokens s.tokens
  | .last s => ⟨s, s.compact, .inl rfl⟩
  | .cons s args => by
    obtain ⟨s', hcompact, hargs⟩ := args.exists_lastArgument
    refine ⟨s', hcompact, .inr ?_⟩
    rcases hargs with hargs | ⟨others, hothers, hargs⟩
    · exact ⟨s.tokens, s.compact.toBalanced, by rw [Arguments.tokens, hargs]⟩
    · refine ⟨s.tokens ++ "," :: others,
        s.compact.toBalanced.append (hothers.cons (by decide) (by decide)), ?_⟩
      rw [Arguments.tokens, hargs, List.append_assoc]
      rfl

/-- What blocks the way after the first tokens is reported about them. -/
theorem Blocked.diagnosis {p r : List Token} (h : Blocked p r.head? c) :
    Diagnosis (p ++ r) p.length c.kind c.code c.fragment := by
  have htake : (p ++ r).take p.length = p := List.take_left
  cases h with
  | operand =>
    have hnext : (p ++ r)[p.length]? = r.head? := by
      rw [List.getElem?_append_right (Nat.le_refl _), Nat.sub_self, List.head?_eq_getElem?]
    have hdiagnosis : Diagnosis (p ++ r) p.length .invalidPrimary "3012"
        ((p ++ r)[p.length]?.getD "end of input") := .invalidPrimary
    rwa [hnext] at hdiagnosis
  | group hlast s => exact .unclosedGroup hlast s htake s.compact.toBalanced
  | call before f args =>
    obtain ⟨s, hs⟩ := args.exists_lastArgument
    exact .unclosedCall f s htake args.balanced hs

/-- Tokens after a sum are reported as such. -/
theorem Sum.diagnosis_trailing (s : Sum) {rest : List Token} (h : rest ≠ []) :
    Diagnosis (s.tokens ++ rest) s.tokens.length .trailingTokens "3013" (" ".intercalate rest) := by
  have htake : (s.tokens ++ rest).take s.tokens.length = s.tokens := List.take_left
  have hlt : s.tokens.length < (s.tokens ++ rest).length := by
    have hpos := List.length_pos_iff.2 h
    rw [List.length_append]
    omega
  have hdiagnosis := Diagnosis.trailingTokens s htake.symm
    (by rw [htake]; exact s.compact.toBalanced) hlt
  rwa [List.drop_left] at hdiagnosis

/-- A sum is never refused but for its depth. -/
theorem Sum.parse_ne_error {s : Sum} (hc : c.kind ≠ .tooDeep) :
    parseWithin room traced s.tokens ≠ .error c := by
  intro h
  rw [s.parse_tokens] at h
  split at h
  · exact hc (kind_of_traceWithin h)
  · cases h
    exact hc rfl

/-- Where parsing stops, the tokens before are viable and the cause is reported about them, and
whatever goes on with the same token is refused. -/
theorem exists_stop_of_parse (h : parseWithin room traced ts = .error c) (hc : c.kind ≠ .tooDeep) :
    ∃ p r, p ++ r = ts ∧ Viable p ∧ Diagnosis ts p.length c.kind c.code c.fragment ∧
      ∀ u, u.head? = r.head? →
        ∃ c', parseWithin room traced (p ++ u) = .error c' ∧ c'.kind ≠ .tooDeep := by
  have hahead := (ahead_levels room).1 ts
  rw [parseWithin_eq] at h
  cases htaken : taken (Expr.sum room ts) with
  | error c₁ =>
    rw [htaken] at h
    cases h
    obtain ⟨p, r, rfl, ⟨hblocked, s, more, hs⟩, hsame⟩ :=
      hahead.error htaken fun hdeep => hc (by rw [hdeep]; rfl)
    refine ⟨p, r, rfl, ⟨s, more, hs⟩, hblocked.diagnosis, fun u hu => ⟨c, ?_, hc⟩⟩
    rw [parseWithin_eq, hsame u hu]
    rfl
  | ok q =>
    obtain ⟨e, rest⟩ := q
    obtain ⟨p, rfl, hsame⟩ := hahead.ok htaken
    obtain ⟨s, rfl, -⟩ := exists_of_faithful (faithful_levels room).1 rfl htaken
    rw [htaken] at h
    cases rest with
    | nil => exact absurd (kind_of_traceWithin h) hc
    | cons t rest =>
      cases h
      refine ⟨s.tokens, t :: rest, rfl, ⟨s, [], by rw [List.append_nil]⟩, ?_, fun u hu => ?_⟩
      · exact s.diagnosis_trailing (List.cons_ne_nil t rest)
      · obtain ⟨u, rfl⟩ := List.head?_eq_some_iff.1 hu
        refine ⟨.trailingTokens (t :: u), ?_, nofun⟩
        rw [parseWithin_eq, hsame _ hu]
        rfl

/-- Tokens that are refused, for another reason than their depth, have one dead end, and what is
reported is about it. -/
theorem parse_error_at_deadEnd (h : parseWithin room traced ts = .error c)
    (hc : c.kind ≠ .tooDeep) :
    ∃ k, k ≤ ts.length ∧ DeadEnd ts k ∧ (∀ j, j ≤ ts.length → DeadEnd ts j → j = k) ∧
      Diagnosis ts k c.kind c.code c.fragment := by
  obtain ⟨p, r, rfl, hviable, hdiagnosis, hsame⟩ := exists_stop_of_parse h hc
  have hle : p.length ≤ (p ++ r).length := by simp
  have hdead : DeadEnd (p ++ r) p.length := by
    refine ⟨by rwa [List.take_left], ?_⟩
    cases r with
    | nil => exact .inl (by rw [List.append_nil])
    | cons t r =>
      refine .inr fun ⟨s, more, hs⟩ => ?_
      have htake : (p ++ t :: r).take (p.length + 1) = p ++ [t] := by
        rw [List.take_length_add_append]
        rfl
      rw [htake, List.append_assoc] at hs
      obtain ⟨c', hc', hkind⟩ := hsame (t :: more) rfl
      exact Sum.parse_ne_error hkind ((congrArg (parseWithin room traced) hs).trans hc')
  exact ⟨p.length, hle, hdead, fun j hj hjdead => hjdead.unique hdead hj hle, hdiagnosis⟩

/-- In `f(x, y z` the call is open where the expression cannot go on. -/
theorem parse_error_open_call :
    Expr.parse ["f", "(", "x", ",", "y", "z"] = .error (.unclosedCall "f") ∧
      ∃ k, k ≤ 6 ∧ DeadEnd ["f", "(", "x", ",", "y", "z"] k ∧
        Diagnosis ["f", "(", "x", ",", "y", "z"] k .unclosedParenthesis "3217" "f" := by
  have hcause : (Expr.parse ["f", "(", "x", ",", "y", "z"]).map (fun _ => ()) =
      .error (.unclosedCall "f") := by decide +kernel
  have h := error_of_map hcause
  obtain ⟨k, hk, hdead, -, hdiagnosis⟩ := parse_error_at_deadEnd h (by decide)
  exact ⟨h, k, hk, hdead, hdiagnosis⟩

end ComplexExpr.Phrase
