import ComplexExpr.Proofs.Expr.Joining

/-!
# The grammar is unambiguous

Of two phrases of a level whose tokens, each followed by tokens that do not go
on with it, are the same, each is the other (`Sum.overlaps`, `Power.unique` and
their like, by one induction over the five kinds of phrases). So a list of
tokens is derived by one sum at most (`Sum.tokens_inj`).
-/

namespace ComplexExpr.Phrase

/-! ## Chains -/

theorem Sum.exists_extend : ∀ s : Sum, ∃ t xs, s = sums.extend (.term t) xs
  | .term t => ⟨t, [], rfl⟩
  | .join s sign t => by
    obtain ⟨t₀, xs, h⟩ := s.exists_extend
    refine ⟨t₀, xs ++ [(sign, t)], ?_⟩
    rw [h, Joining.extend, Joining.extend, List.foldl_append]
    rfl

theorem Term.exists_extend : ∀ t : Term, ∃ p xs, t = terms.extend (.power p) xs
  | .power p => ⟨p, [], rfl⟩
  | .join t mark p => by
    obtain ⟨p₀, xs, h⟩ := t.exists_extend
    refine ⟨p₀, xs ++ [(mark, p)], ?_⟩
    rw [h, Joining.extend, Joining.extend, List.foldl_append]
    rfl

theorem grip_sums (s : Sign) : (Token.shape (sums.mark s)).grip = 1 := by
  show (Token.shape (signToken s)).grip = 1
  rw [shape_signToken]; rfl

theorem grip_terms (m : Scaling) : (Token.shape (terms.mark m)).grip = 2 := grip_scaling m

/-! ## Tokens of one spelling -/

theorem Number.token_inj {m n : Number} (h : m.token = n.token) : m = n := by
  obtain ⟨m, hm, pm⟩ := m
  obtain ⟨n, hn, pn⟩ := n
  have : m.toChars = n.toChars := by
    have := congrArg String.toList h
    simpa [Number.token] using this
  cases Numeral.toChars_inj hm hn this
  rfl

theorem Name.token_inj {x y : Name} (h : x.token = y.token) : x = y := by
  cases x; cases y; cases h; rfl

theorem Raising.token_inj {m n : Raising} (h : m.token = n.token) : m = n := by
  cases m <;> cases n <;> first | rfl | (revert h; decide)

/-- Two primaries that open the same tokens are of one kind. -/
theorem Primary.kind_eq {p p' : Primary} {r r' : List Token}
    (h : p.tokens ++ r = p'.tokens ++ r') : p.kind = p'.kind := by
  obtain ⟨t, ts, ht, hk⟩ := p.head_kind
  obtain ⟨t', ts', ht', hk'⟩ := p'.head_kind
  rw [ht, ht'] at h
  rw [← hk, ← hk', (List.cons.inj h).1]

/-- What closes is no argument, so arguments are not empty. -/
theorem Arguments.tokens_ne_closing {args : Arguments} {r r' : List Token} :
    ")" :: r ≠ args.tokens ++ r' := by
  intro h
  obtain ⟨t, ts, ht, ho⟩ := args.head_tokens
  rw [ht] at h
  rw [← (List.cons.inj h).1, shape_closing] at ho
  exact ho

/-! ## Primaries with no phrase inside -/

section

variable {n : Number} {x : Name} {p : Primary} {r r' : List Token}

theorem not_ends_unit : ¬Ends 3 ("i" :: r) := by
  rw [ends_cons, shape_unit]; decide

theorem not_ends_opening : ¬Ends 3 ("(" :: r) := by
  rw [ends_cons, shape_opening]; decide

theorem Primary.unique_number (h : (Primary.number n).tokens ++ r = p.tokens ++ r')
    (hr : Ends 3 r) : .number n = p ∧ r = r' := by
  have hk := Primary.kind_eq h
  cases p with
  | number n' =>
    obtain ⟨hn, rfl⟩ := List.cons.inj h
    rw [Number.token_inj hn]
    exact ⟨rfl, rfl⟩
  | imaginary n' =>
    obtain ⟨-, rfl⟩ := List.cons.inj h
    exact absurd hr not_ends_unit
  | _ => cases hk

theorem Primary.unique_imaginary (h : (Primary.imaginary n).tokens ++ r = p.tokens ++ r')
    (hr' : Ends 3 r') : .imaginary n = p ∧ r = r' := by
  have hk := Primary.kind_eq h
  cases p with
  | number n' =>
    obtain ⟨-, rfl⟩ := List.cons.inj h
    exact absurd hr' not_ends_unit
  | imaginary n' =>
    obtain ⟨hn, he⟩ := List.cons.inj h
    rw [Number.token_inj hn]
    exact ⟨rfl, (List.cons.inj he).2⟩
  | _ => cases hk

theorem Primary.unique_unit (h : Primary.unit.tokens ++ r = p.tokens ++ r') :
    .unit = p ∧ r = r' := by
  have hk := Primary.kind_eq h
  cases p with
  | unit => exact ⟨rfl, (List.cons.inj h).2⟩
  | _ => cases hk

theorem Primary.unique_name (h : (Primary.name x).tokens ++ r = p.tokens ++ r')
    (hr : Ends 3 r) : .name x = p ∧ r = r' := by
  have hk := Primary.kind_eq h
  cases p with
  | name x' =>
    obtain ⟨hx, rfl⟩ := List.cons.inj h
    rw [Name.token_inj hx]
    exact ⟨rfl, rfl⟩
  | callEmpty f' =>
    obtain ⟨-, rfl⟩ := List.cons.inj h
    exact absurd hr not_ends_opening
  | call f' args' =>
    obtain ⟨-, rfl⟩ := List.cons.inj h
    exact absurd hr not_ends_opening
  | _ => cases hk

theorem Primary.unique_callEmpty (h : (Primary.callEmpty x).tokens ++ r = p.tokens ++ r')
    (hr' : Ends 3 r') : .callEmpty x = p ∧ r = r' := by
  have hk := Primary.kind_eq h
  cases p with
  | name x' =>
    obtain ⟨-, rfl⟩ := List.cons.inj h
    exact absurd hr' not_ends_opening
  | callEmpty f' =>
    simp only [Primary.tokens, List.cons_append, List.nil_append, List.cons.injEq, true_and] at h
    rw [Name.token_inj h.1]
    exact ⟨rfl, h.2⟩
  | call f' args' =>
    simp only [Primary.tokens, List.cons_append, List.nil_append, List.append_assoc,
      List.cons.injEq, true_and] at h
    exact absurd h.2 Arguments.tokens_ne_closing
  | _ => cases hk

end

/-! ## Phrases -/

/-- Sums that open the same tokens and do not go on are the same. -/
theorem Sum.unique_of_overlaps {s s' : Sum} {r r' : List Token} (hs : sums.Overlaps 1 s)
    (h : s.tokens ++ r = s'.tokens ++ r') (hr : Ends 0 r) (hr' : Ends 0 r') : s = s' ∧ r = r' :=
  sums.eq_of_overlaps hs (fun m => by rw [grip_sums]; decide) (by decide) h hr hr'

theorem Term.unique_of_overlaps {t t' : Term} {r r' : List Token} (ht : terms.Overlaps 2 t)
    (h : t.tokens ++ r = t'.tokens ++ r') (hr : Ends 1 r) (hr' : Ends 1 r') : t = t' ∧ r = r' :=
  terms.eq_of_overlaps ht (fun m => by rw [grip_terms]; decide) (by decide) h hr hr'

-- The five kinds of phrases in one structural induction: what follows for sums and terms alone is
-- drawn from it by the two lemmas above, and not inside it.
mutual

theorem Sum.overlaps (s : Sum) : sums.Overlaps 1 s := by
  cases s with
  | term t =>
    exact sums.overlaps_base (fun s => (grip_sums s).le) (fun _ => rfl)
      Sum.exists_extend (Term.unique_of_overlaps t.overlaps)
  | join s sign t =>
    exact sums.overlaps_join (fun s => (grip_sums s).le) s.overlaps
      (Term.unique_of_overlaps t.overlaps) sign

theorem Term.overlaps (t : Term) : terms.Overlaps 2 t := by
  cases t with
  | power p =>
    exact terms.overlaps_base (fun m => (grip_terms m).le) (fun _ => rfl)
      Term.exists_extend fun h => p.unique h
  | join t mark p =>
    exact terms.overlaps_join (fun m => (grip_terms m).le) t.overlaps (fun h => p.unique h) mark

theorem Power.unique (p : Power) {p' : Power} {r r' : List Token}
    (h : p.tokens ++ r = p'.tokens ++ r') (hr : Ends 2 r) (hr' : Ends 2 r') : p = p' ∧ r = r' := by
  have hmark (m : Raising) (ts : List Token) : Ends 3 (m.token :: ts) ∧ ¬Ends 2 (m.token :: ts) := by
    rw [ends_cons, ends_cons, shape_raising]
    exact ⟨by decide, by decide⟩
  cases p with
  | primary p =>
    cases p' with
    | primary p' =>
      obtain ⟨rfl, rfl⟩ := p.unique h (hr.mono (by decide)) (hr'.mono (by decide))
      exact ⟨rfl, rfl⟩
    | raise base' mark' exponent' =>
      rw [Power.tokens, Power.tokens, List.append_assoc] at h
      obtain ⟨rfl, rfl⟩ := p.unique h (hr.mono (by decide)) (hmark ..).1
      exact absurd hr (hmark ..).2
  | raise base mark exponent =>
    cases p' with
    | primary p' =>
      rw [Power.tokens, Power.tokens, List.append_assoc] at h
      obtain ⟨rfl, rfl⟩ := base.unique h (hmark ..).1 (hr'.mono (by decide))
      exact absurd hr' (hmark ..).2
    | raise base' mark' exponent' =>
      rw [Power.tokens, Power.tokens, List.append_assoc, List.append_assoc] at h
      obtain ⟨rfl, hm⟩ := base.unique h (hmark ..).1 (hmark ..).1
      obtain ⟨ht, he⟩ := List.cons.inj hm
      obtain ⟨rfl, rfl⟩ := exponent.unique he hr hr'
      rw [Raising.token_inj ht]
      exact ⟨rfl, rfl⟩

theorem Primary.unique (p : Primary) {p' : Primary} {r r' : List Token}
    (h : p.tokens ++ r = p'.tokens ++ r') (hr : Ends 3 r) (hr' : Ends 3 r') : p = p' ∧ r = r' := by
  have hk := Primary.kind_eq h
  cases p with
  | number n => exact Primary.unique_number h hr
  | imaginary n => exact Primary.unique_imaginary h hr'
  | unit => exact Primary.unique_unit h
  | name x => exact Primary.unique_name h hr
  | callEmpty f => exact Primary.unique_callEmpty h hr'
  | group s =>
    cases p' with
    | group s' =>
      simp only [Primary.tokens, List.cons_append, List.append_assoc, List.nil_append,
        List.cons.injEq, true_and] at h
      obtain ⟨rfl, he⟩ := Sum.unique_of_overlaps s.overlaps h ends_closing ends_closing
      exact ⟨rfl, (List.cons.inj he).2⟩
    | _ => cases hk
  | call f args =>
    cases p' with
    | name x' =>
      obtain ⟨-, rfl⟩ := List.cons.inj h
      exact absurd hr' not_ends_opening
    | callEmpty f' =>
      simp only [Primary.tokens, List.cons_append, List.nil_append, List.append_assoc,
        List.cons.injEq, true_and] at h
      exact absurd h.2.symm Arguments.tokens_ne_closing
    | call f' args' =>
      simp only [Primary.tokens, List.cons_append, List.nil_append, List.append_assoc,
        List.cons.injEq, true_and] at h
      obtain ⟨rfl, he⟩ := args.unique h.2
      rw [Name.token_inj h.1]
      exact ⟨rfl, he⟩
    | _ => cases hk
  | signed sign p =>
    cases p' with
    | signed sign' p' =>
      simp only [Primary.kind, Token.Shape.sign.injEq] at hk
      obtain ⟨-, he⟩ := List.cons.inj h
      obtain ⟨rfl, rfl⟩ := p.unique he hr hr'
      rw [hk]
      exact ⟨rfl, rfl⟩
    | _ => cases hk

theorem Arguments.unique (args : Arguments) {args' : Arguments} {r r' : List Token}
    (h : args.tokens ++ ")" :: r = args'.tokens ++ ")" :: r') : args = args' ∧ r = r' := by
  cases args with
  | last s =>
    cases args' with
    | last s' =>
      obtain ⟨rfl, he⟩ := Sum.unique_of_overlaps s.overlaps h ends_closing ends_closing
      exact ⟨rfl, (List.cons.inj he).2⟩
    | cons s' args' =>
      rw [Arguments.tokens, Arguments.tokens, List.append_assoc] at h
      obtain ⟨rfl, he⟩ := Sum.unique_of_overlaps s.overlaps h ends_closing ends_comma
      exact absurd (List.cons.inj he).1 (by decide)
  | cons s args =>
    cases args' with
    | last s' =>
      rw [Arguments.tokens, Arguments.tokens, List.append_assoc] at h
      obtain ⟨rfl, he⟩ := Sum.unique_of_overlaps s.overlaps h ends_comma ends_closing
      exact absurd (List.cons.inj he).1 (by decide)
    | cons s' args' =>
      rw [Arguments.tokens, Arguments.tokens, List.append_assoc, List.append_assoc] at h
      obtain ⟨rfl, he⟩ := Sum.unique_of_overlaps s.overlaps h ends_comma ends_comma
      obtain ⟨rfl, rfl⟩ := args.unique (List.cons.inj he).2
      exact ⟨rfl, rfl⟩

end

/-- A list of tokens is derived by one sum at most. -/
theorem Sum.tokens_inj {s s' : Sum} (h : s.tokens = s'.tokens) : s = s' :=
  (Sum.unique_of_overlaps s.overlaps (by rw [h]) ends_nil ends_nil).1

end ComplexExpr.Phrase
