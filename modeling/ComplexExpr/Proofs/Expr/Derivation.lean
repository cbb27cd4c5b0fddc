import ComplexExpr.Proofs.Expr.Unambiguity

/-!
# Parsing is derivation

What the parser of a level takes is derived by a phrase of the level, and the
expression it returns is read off that phrase (`faithful_levels`). Main
statement, with unambiguity and `Sum.parse_tokens`:

* `parse_iff_sum`: the parser accepts exactly the sums whose frames suffice, and if
  expressions are traced, those of them that can be written out.
-/

namespace ComplexExpr.Phrase

open ComplexExpr.Expr (taken closing arguments callArguments taken_closing_cons taken_arguments
  taken_group taken_callArguments taken_callOrName_cons taken_numeral_cons taken_sum_succ
  taken_term_succ taken_power_succ taken_primary_opening taken_primary_number taken_primary_unit
  taken_primary_name parseWithin_eq traceWithin_eq traceWithin_eq_ok_iff)

theorem closing_of_taken {e : Cause} {ts rest : List Token} {u : Unit}
    (h : taken (closing e ts) = .ok (u, rest)) : ts = ")" :: rest := by
  cases ts with
  | nil => cases h
  | cons t ts =>
    rw [taken_closing_cons] at h
    split at h
    next ht =>
      cases (Token.shape_eq_iff (by decide)).1 ht
      cases h
      rfl
    next => cases h

section

variable {parser : Expr.Parser}
  (hsum : Faithful Sum.tokens Sum.tree fun ts => taken (parser ts))
include hsum

theorem faithful_arguments :
    Faithful Arguments.tokens Arguments.trees fun ts => taken (arguments parser ts) := by
  intro ts es rest h
  replace h : taken (arguments parser ts) = .ok (es, rest) := h
  induction hn : ts.length using Nat.strongRecOn generalizing ts es rest with
  | ind n ih =>
    rw [taken_arguments] at h
    obtain ⟨⟨e, rest₁⟩, hs, h⟩ := ok_of_bind h
    obtain ⟨s, rfl, rfl⟩ := hsum hs
    cases rest₁ with
    | nil => cases h; exact ⟨.last s, rfl, rfl⟩
    | cons t rest₁ =>
      dsimp only at h
      split at h
      next hc =>
        obtain ⟨⟨es', rest'⟩, hargs, h⟩ := ok_of_map h
        cases h
        cases (Token.shape_eq_iff (by decide)).1 hc
        have hlen : rest₁.length < n := by
          simp only [List.length_append, List.length_cons] at hn
          omega
        obtain ⟨args, rfl, rfl⟩ := ih _ hlen hargs rfl
        exact ⟨.cons s args, by rw [Arguments.tokens, List.append_assoc]; rfl, by rw [Arguments.trees]⟩
      next => cases h; exact ⟨.last s, rfl, rfl⟩

theorem faithful_callArguments {name : String} {ts : List Token} {es : List Expr}
    {rest : List Token} (h : taken (callArguments parser name ts) = .ok (es, rest)) :
    (ts = ")" :: rest ∧ es = []) ∨
      ∃ args : Arguments, args.tokens ++ ")" :: rest = ts ∧ args.trees = es := by
  rw [taken_callArguments] at h
  split at h
  next r hr =>
    cases h
    exact .inl ⟨closing_of_taken hr, rfl⟩
  next =>
    obtain ⟨⟨es', rest'⟩, hargs, h⟩ := ok_of_bind h
    obtain ⟨⟨u, rest''⟩, hc, h⟩ := ok_of_map h
    cases h
    obtain ⟨args, rfl, rfl⟩ := faithful_arguments hsum hargs
    have hr : rest' = ")" :: rest'' := closing_of_taken hc
    exact .inr ⟨args, by rw [hr], rfl⟩

theorem faithful_callOrName {f : Name} {ts : List Token} {e : Expr} {rest : List Token}
    (h : taken (Expr.callOrName parser f.token ts) = .ok (e, rest)) :
    ∃ p : Primary, p.tokens ++ rest = f.token :: ts ∧ p.tree = e := by
  cases ts with
  | nil => cases h; exact ⟨.name f, rfl, rfl⟩
  | cons t ts =>
    rw [taken_callOrName_cons] at h
    split at h
    next ho =>
      obtain ⟨⟨es, rest'⟩, ha, h⟩ := ok_of_map h
      cases h
      cases (Token.shape_eq_iff (by decide)).1 ho
      obtain ⟨rfl, rfl⟩ | ⟨args, rfl, rfl⟩ := faithful_callArguments hsum ha
      · exact ⟨.callEmpty f, rfl, rfl⟩
      · exact ⟨.call f args, by simp [Primary.tokens], rfl⟩
    next => cases h; exact ⟨.name f, rfl, rfl⟩

theorem faithful_group {ts : List Token} {e : Expr} {rest : List Token}
    (h : taken (Expr.group parser ts) = .ok (e, rest)) :
    ∃ p : Primary, p.tokens ++ rest = "(" :: ts ∧ p.tree = e := by
  rw [taken_group] at h
  obtain ⟨⟨e', rest'⟩, hs, h⟩ := ok_of_bind h
  obtain ⟨⟨u, rest''⟩, hc, h⟩ := ok_of_map h
  cases h
  obtain ⟨s, rfl, rfl⟩ := hsum hs
  cases closing_of_taken hc
  exact ⟨.group s, by simp [Primary.tokens], rfl⟩

end

theorem faithful_numeral {n : Number} {ts : List Token} {e : Expr} {rest : List Token}
    (h : taken (.ok (Expr.numeral n.numeral ts)) = .ok (e, rest)) :
    ∃ p : Primary, p.tokens ++ rest = n.token :: ts ∧ p.tree = e := by
  cases ts with
  | nil => cases h; exact ⟨.number n, rfl, rfl⟩
  | cons t ts =>
    rw [taken_numeral_cons] at h
    split at h
    next hu =>
      cases h
      cases (Token.shape_eq_iff (by decide)).1 hu
      exact ⟨.imaginary n, rfl, rfl⟩
    next => cases h; exact ⟨.number n, rfl, rfl⟩

/-! ## Levels -/

section

variable {room : Nat}

theorem faithful_sum (h : Faithful Term.tokens Term.tree fun ts => taken (Expr.term room ts)) :
    Faithful Sum.tokens Sum.tree fun ts => taken (Expr.sum (room + 1) ts) := by
  intro ts e rest hs
  dsimp only at hs
  rw [taken_sum_succ] at hs
  obtain ⟨⟨e₁, rest₁⟩, ht, hc⟩ := ok_of_bind hs
  obtain ⟨t, rfl, rfl⟩ := h ht
  exact sums.faithful_chain h (.term t) hc

theorem faithful_term (h : Faithful Power.tokens Power.tree fun ts => taken (Expr.power room ts)) :
    Faithful Term.tokens Term.tree fun ts => taken (Expr.term (room + 1) ts) := by
  intro ts e rest ht
  dsimp only at ht
  rw [taken_term_succ] at ht
  obtain ⟨⟨e₁, rest₁⟩, hp, hc⟩ := ok_of_bind ht
  obtain ⟨p, rfl, rfl⟩ := h hp
  exact terms.faithful_chain h (.power p) hc

theorem faithful_power
    (hprimary : Faithful Primary.tokens Primary.tree fun ts => taken (Expr.primary room ts))
    (hpower : Faithful Power.tokens Power.tree fun ts => taken (Expr.power room ts)) :
    Faithful Power.tokens Power.tree fun ts => taken (Expr.power (room + 1) ts) := by
  intro ts e rest h
  dsimp only at h
  rw [taken_power_succ] at h
  obtain ⟨⟨e₁, rest₁⟩, hb, h⟩ := ok_of_bind h
  obtain ⟨base, rfl, rfl⟩ := hprimary hb
  cases rest₁ with
  | nil => cases h; exact ⟨.primary base, rfl, rfl⟩
  | cons t rest₁ =>
    dsimp only at h
    split at h
    next hm =>
      obtain ⟨⟨e₂, rest₂⟩, he, h⟩ := ok_of_map h
      cases h
      obtain ⟨exponent, rfl, rfl⟩ := hpower he
      obtain ⟨mark, rfl⟩ := raising_of_shape hm
      exact ⟨.raise base mark exponent, by simp [Power.tokens], rfl⟩
    next => cases h; exact ⟨.primary base, rfl, rfl⟩

theorem faithful_primary
    (hsum : Faithful Sum.tokens Sum.tree fun ts => taken (Expr.sum room ts))
    (hprimary : Faithful Primary.tokens Primary.tree fun ts => taken (Expr.primary room ts)) :
    Faithful Primary.tokens Primary.tree fun ts => taken (Expr.primary (room + 1) ts) := by
  intro ts e rest h
  cases ts with
  | nil => cases h
  | cons t ts =>
    dsimp only at h
    cases hs : Token.shape t with
    | opening =>
      rw [taken_primary_opening hs] at h
      cases (Token.shape_eq_iff (by decide)).1 hs
      exact faithful_group hsum h
    | number n =>
      rw [taken_primary_number hs] at h
      cases (Token.shape_eq_iff (by simp)).1 hs with
      | number hw hp => exact faithful_numeral (n := ⟨n, hw, hp⟩) h
    | unit =>
      rw [taken_primary_unit hs] at h
      cases (Token.shape_eq_iff (by decide)).1 hs
      cases h
      exact ⟨.unit, rfl, rfl⟩
    | name =>
      rw [taken_primary_name hs] at h
      cases (Token.shape_eq_iff (by decide)).1 hs with
      | name hn hi => exact faithful_callOrName hsum (f := ⟨t, hn, hi⟩) h
    | sign s =>
      rw [taken_primary_sign hs] at h
      obtain ⟨⟨e', rest'⟩, hp, h⟩ := ok_of_map h
      cases h
      obtain ⟨p, rfl, rfl⟩ := hprimary hp
      exact ⟨.signed s p, by rw [Primary.tokens, signToken_of_shape hs]; rfl, rfl⟩
    | _ =>
      rw [taken_primary_refused (by rw [hs]; exact id)] at h
      cases h

end

/-- What the parsers of the four levels take are phrases of these levels, however many frames
are left. -/
theorem faithful_levels (room : Nat) :
    (Faithful Sum.tokens Sum.tree fun ts => taken (Expr.sum room ts)) ∧
    (Faithful Term.tokens Term.tree fun ts => taken (Expr.term room ts)) ∧
    (Faithful Power.tokens Power.tree fun ts => taken (Expr.power room ts)) ∧
    (Faithful Primary.tokens Primary.tree fun ts => taken (Expr.primary room ts)) := by
  induction room with
  | zero =>
    refine ⟨?_, ?_, ?_, ?_⟩ <;> intro ts e rest h <;> simp at h
  | succ room ih =>
    obtain ⟨hsum, hterm, hpower, hprimary⟩ := ih
    exact ⟨faithful_sum hterm, faithful_term hpower, faithful_power hprimary hpower,
      faithful_primary hsum hprimary⟩

/-- What is parsed is a sum, and the expression is read off it. -/
theorem exists_sum_of_parse {room : ℕ} {traced : Bool} {ts : List Token} {e : Expr}
    (h : Expr.parseWithin room traced ts = .ok e) : ∃ s : Sum, s.tokens = ts ∧ s.tree = e := by
  rw [parseWithin_eq] at h
  obtain ⟨⟨e', rest⟩, htaken, h⟩ := ok_of_bind h
  cases rest with
  | nil =>
    obtain ⟨rfl, -⟩ := traceWithin_eq_ok_iff.1 h
    obtain ⟨s, hs, he⟩ := (faithful_levels room).1 htaken
    rw [List.append_nil] at hs
    exact ⟨s, hs, he⟩
  | cons t rest => cases h

/-- The tokens are derived by one sum at most; what is parsed is a sum, and the expression is read
off it; and a sum is parsed, or else its frames do not suffice, or those of its expression where
this is traced, and nothing but that is reported. The limit of the program is `Expr.frameLimit`. -/
theorem parse_iff_sum (room : ℕ) (traced : Bool) (ts : List Token) :
    (∀ s s' : Sum, s.tokens = ts → s'.tokens = ts → s = s') ∧
    (∀ e, Expr.parseWithin room traced ts = .ok e → ∃ s : Sum, s.tokens = ts ∧ s.tree = e) ∧
    (∀ s : Sum, s.tokens = ts →
      (s.frames ≤ room ∧ (traced → s.tree.frames ≤ room) ∧
        Expr.parseWithin room traced ts = .ok s.tree) ∨
      (room < s.frames ∧ Expr.parseWithin room traced ts = .error (.tooDeep .parse)) ∨
      (traced ∧ room < s.tree.frames ∧
        Expr.parseWithin room traced ts = .error (.tooDeep .render))) := by
  refine ⟨fun s s' hs hs' => Sum.tokens_inj (hs.trans hs'.symm), fun e => exists_sum_of_parse, ?_⟩
  rintro s rfl
  rw [s.parse_tokens, traceWithin_eq]
  by_cases h : s.frames ≤ room
  · rw [if_pos h]
    by_cases hdeep : traced ∧ room < s.tree.frames
    · exact .inr (.inr ⟨hdeep.1, hdeep.2, if_pos hdeep⟩)
    · exact .inl ⟨h, fun ht => Nat.not_lt.1 fun hlt => hdeep ⟨ht, hlt⟩, if_neg hdeep⟩
  · exact .inr (.inl ⟨Nat.not_le.1 h, if_neg h⟩)

/-- The number `2`. -/
def two : Number where
  numeral := ⟨none, ['2'], none, none⟩
  wellFormed := ⟨by decide, List.forall_mem_singleton.2 (by decide), by simp, by simp⟩
  plain := by decide

/-- The name `x`. -/
def Name.x : Name := ⟨"x", by decide, by decide⟩

/-- The sum `-f(x, 2 i) ** y`. -/
def sampleSum : Sum :=
  .term (.power (.raise
    (.signed .minus (.call ⟨"f", by decide, by decide⟩
      (.cons (.term (.power (.primary (.name ⟨"x", by decide, by decide⟩))))
        (.last (.term (.power (.primary (.imaginary two))))))))
    .stars (.primary (.name ⟨"y", by decide, by decide⟩))))

/-- Signs bind tighter than powers, and a number takes the `i` after it, also in an argument. -/
theorem parse_sampleSum :
    Expr.parse ["-", "f", "(", "x", ",", "2", "i", ")", "**", "y"] =
        .ok (.binary .pow (.negate (.call "f" [.var "x", .literal ⟨0.0, two.numeral.toFloat⟩]))
          (.var "y")) ∧
      ∀ s : Sum, s.tokens = ["-", "f", "(", "x", ",", "2", "i", ")", "**", "y"] → s = sampleSum := by
  have h := parse_iff_sum Expr.frameLimit false ["-", "f", "(", "x", ",", "2", "i", ")", "**", "y"]
  have ht : sampleSum.tokens = ["-", "f", "(", "x", ",", "2", "i", ")", "**", "y"] := by decide
  have hp : Expr.parse ["-", "f", "(", "x", ",", "2", "i", ")", "**", "y"] = .ok sampleSum.tree := by
    rcases h.2.2 sampleSum ht with ⟨-, -, hp⟩ | ⟨hf, -⟩ | ⟨hf, -⟩
    · exact hp
    · exact absurd hf (by decide)
    · exact absurd hf (by decide)
  exact ⟨hp, fun s hs => h.1 s sampleSum hs ht⟩

end ComplexExpr.Phrase
