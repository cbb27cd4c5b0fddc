import ComplexExpr.Proofs.Expr.Reading
import ComplexExpr.Proofs.Results

/-!
# Phrases joined from the left

Sums are terms joined by signs, and terms are powers joined by `*` and `/`, in
the same way: `Joining` is what the two have in common, and `sums` and `terms`
are the two. What a chain takes is a phrase that goes on the one before it
(`Joining.faithful_chain`), and of two phrases that open the same tokens one
goes on the other (`Joining.overlaps_join`).
-/

namespace ComplexExpr.Phrase

open ComplexExpr.Expr (taken chain additive? multiplicative? taken_chain_nil taken_chain_stop
  taken_chain_step)

/-- Phrases `C` that are joined from operands `A` by marks `O`. -/
structure Joining (C A O : Type) where
  op? : Token.Shape → Option BinaryOp
  mark : O → Token
  op : O → BinaryOp
  tokens : C → List Token
  tree : C → Expr
  operandTokens : A → List Token
  operandTree : A → Expr
  join : C → O → A → C
  mark_of_op? {t : Token} {b : BinaryOp} :
    op? (Token.shape t) = some b → ∃ o, mark o = t ∧ op o = b
  mark_inj {o o' : O} : mark o = mark o' → o = o'
  tokens_join (c : C) (o : O) (a : A) : tokens (join c o a) = tokens c ++ mark o :: operandTokens a
  tree_join (c : C) (o : O) (a : A) : tree (join c o a) = .binary (op o) (tree c) (operandTree a)

theorem signToken_of_shape {t : Token} {s : Sign} (h : Token.shape t = .sign s) :
    signToken s = t := by
  cases (Token.shape_eq_iff (by simp)).1 h <;> rfl

theorem signToken_inj {s s' : Sign} (h : signToken s = signToken s') : s = s' := by
  cases s <;> cases s' <;> first | rfl | (revert h; decide)

theorem raising_of_shape {t : Token} (h : Token.shape t = .power) :
    ∃ m : Raising, m.token = t := by
  cases (Token.shape_eq_iff (by decide)).1 h
  · exact ⟨.stars, rfl⟩
  · exact ⟨.caret, rfl⟩

theorem scaling_of_op? {t : Token} {b : BinaryOp} (h : multiplicative? (Token.shape t) = some b) :
    ∃ m : Scaling, m.token = t ∧ m.op = b := by
  cases hs : Token.shape t <;> rw [hs] at h <;> cases h
  · cases (Token.shape_eq_iff (by simp)).1 hs
    exact ⟨.times, rfl, rfl⟩
  · cases (Token.shape_eq_iff (by simp)).1 hs
    exact ⟨.over, rfl, rfl⟩

theorem signToken_of_op? {t : Token} {b : BinaryOp} (h : additive? (Token.shape t) = some b) :
    ∃ s : Sign, signToken s = t ∧ signOp s = b := by
  cases hs : Token.shape t <;> rw [hs] at h
  case sign s => cases s <;> cases h <;> exact ⟨_, signToken_of_shape hs, rfl⟩
  all_goals cases h

def sums : Joining Sum Term Sign where
  op? := additive?
  mark := signToken
  op := signOp
  tokens := Sum.tokens
  tree := Sum.tree
  operandTokens := Term.tokens
  operandTree := Term.tree
  join := .join
  mark_of_op? := signToken_of_op?
  mark_inj := signToken_inj
  tokens_join c o a := by rw [Sum.tokens]
  tree_join c o a := by rw [Sum.tree]

def terms : Joining Term Power Scaling where
  op? := multiplicative?
  mark := Scaling.token
  op := Scaling.op
  tokens := Term.tokens
  tree := Term.tree
  operandTokens := Power.tokens
  operandTree := Power.tree
  join := .join
  mark_of_op? := scaling_of_op?
  mark_inj {o o'} h := by cases o <;> cases o' <;> first | rfl | (revert h; decide)
  tokens_join c o a := by rw [Term.tokens]
  tree_join c o a := by rw [Term.tree]

/-! ## What is taken -/

/-- Whatever is taken are the tokens of a phrase, and what is returned is read off the phrase. -/
def Faithful {A α : Type} (tokens : A → List Token) (tree : A → α)
    (read : List Token → Except Cause (α × List Token)) : Prop :=
  ∀ {ts e rest}, read ts = .ok (e, rest) → ∃ a, tokens a ++ rest = ts ∧ tree a = e

namespace Joining

variable {C A O : Type} (J : Joining C A O)

/-- A chain goes on the phrase before it by what its operands are. -/
theorem faithful_chain {operand : Expr.Parser}
    (h : Faithful J.operandTokens J.operandTree fun ts => taken (operand ts)) (c : C)
    {ts : List Token} {e : Expr} {rest : List Token}
    (hc : taken (chain J.op? operand (J.tree c) ts) = .ok (e, rest)) :
    ∃ c', J.tokens c' ++ rest = J.tokens c ++ ts ∧ J.tree c' = e := by
  induction hn : ts.length using Nat.strongRecOn generalizing c ts with
  | ind n ih =>
    cases ts with
    | nil =>
      rw [taken_chain_nil] at hc
      cases hc
      exact ⟨c, rfl, rfl⟩
    | cons t ts =>
      cases hop : J.op? (Token.shape t) with
      | none =>
        rw [taken_chain_stop hop] at hc
        cases hc
        exact ⟨c, rfl, rfl⟩
      | some b =>
        rw [taken_chain_step hop] at hc
        obtain ⟨⟨e₁, rest₁⟩, ha, hc⟩ := ok_of_bind hc
        obtain ⟨a, hts, rfl⟩ := h ha
        obtain ⟨o, rfl, rfl⟩ := J.mark_of_op? hop
        rw [← J.tree_join] at hc
        have hlen : rest₁.length < n := by
          have := congrArg List.length hts
          simp only [List.length_append, List.length_cons] at this hn
          omega
        obtain ⟨c', ht, htree⟩ := ih _ hlen (J.join c o a) hc rfl
        refine ⟨c', ?_, htree⟩
        rw [ht, J.tokens_join, List.append_assoc, List.cons_append, hts]

/-! ## Going on -/

/-- A phrase with more operands joined to it. -/
def extend (c : C) (xs : List (O × A)) : C := xs.foldl (fun c x => J.join c x.1 x.2) c

/-- The tokens of marked operands. -/
def markedTokens (xs : List (O × A)) : List Token :=
  xs.flatMap fun x => J.mark x.1 :: J.operandTokens x.2

theorem tokens_extend (c : C) (xs : List (O × A)) :
    J.tokens (J.extend c xs) = J.tokens c ++ J.markedTokens xs := by
  induction xs generalizing c with
  | nil => exact (List.append_nil _).symm
  | cons x xs ih =>
    show J.tokens (J.extend (J.join c x.1 x.2) xs) = _
    rw [ih, J.tokens_join]
    simp [markedTokens]

/-- Of two phrases that open the same tokens, `c` and another, one goes on the other. -/
def Overlaps (k : Nat) (c : C) : Prop :=
  ∀ c' r r', J.tokens c ++ r = J.tokens c' ++ r' → Ends k r → Ends k r' →
    ∃ xs, (c' = J.extend c xs ∧ r = J.markedTokens xs ++ r') ∨
      (c = J.extend c' xs ∧ r' = J.markedTokens xs ++ r)

variable {k : Nat}

theorem ends_markedTokens (hmark : ∀ o, (Token.shape (J.mark o)).grip ≤ k) (xs : List (O × A)) {r : List Token} (h : Ends k r) :
    Ends k (J.markedTokens xs ++ r) := by
  cases xs with
  | nil => exact h
  | cons x xs => exact ends_cons.2 (hmark x.1)

/-- An operand alone goes on nothing: any phrase that opens its tokens goes on it. -/
theorem overlaps_base (hmark : ∀ o, (Token.shape (J.mark o)).grip ≤ k) {base : A → C}
    (hbase : ∀ a, J.tokens (base a) = J.operandTokens a)
    (hextend : ∀ c, ∃ a xs, c = J.extend (base a) xs) {a : A}
    (iha : ∀ {a' r r'}, J.operandTokens a ++ r = J.operandTokens a' ++ r' → Ends k r → Ends k r' →
      a = a' ∧ r = r') : J.Overlaps k (base a) := by
  intro c' r r' h hr hr'
  obtain ⟨a', xs, rfl⟩ := hextend c'
  rw [J.tokens_extend, hbase, hbase, List.append_assoc] at h
  obtain ⟨rfl, rfl⟩ := iha h hr (J.ends_markedTokens hmark xs hr')
  exact ⟨xs, .inl ⟨rfl, rfl⟩⟩

theorem overlaps_join (hmark : ∀ o, (Token.shape (J.mark o)).grip ≤ k) {c : C} {a : A} (ihc : J.Overlaps k c)
    (iha : ∀ {a' r r'}, J.operandTokens a ++ r = J.operandTokens a' ++ r' → Ends k r → Ends k r' →
      a = a' ∧ r = r') (o : O) : J.Overlaps k (J.join c o a) := by
  intro c' r r' h hr hr'
  rw [J.tokens_join, List.append_assoc, List.cons_append] at h
  obtain ⟨xs, ⟨rfl, hx⟩ | ⟨rfl, hx⟩⟩ := ihc _ _ _ h (ends_cons.2 (hmark o)) hr'
  · cases xs with
    | nil => exact ⟨[(o, a)], .inr ⟨rfl, by simpa [markedTokens] using hx.symm⟩⟩
    | cons x xs =>
      obtain ⟨o', a'⟩ := x
      have hx' : J.mark o :: (J.operandTokens a ++ r) =
          J.mark o' :: (J.operandTokens a' ++ (J.markedTokens xs ++ r')) := by
        simpa [markedTokens] using hx
      obtain ⟨ho, hrest⟩ := List.cons.inj hx'
      obtain ⟨rfl, rfl⟩ := iha hrest hr (J.ends_markedTokens hmark xs hr')
      cases J.mark_inj ho
      exact ⟨xs, .inl ⟨rfl, rfl⟩⟩
  · refine ⟨xs ++ [(o, a)], .inr ⟨by simp [extend], ?_⟩⟩
    rw [hx]
    simp [markedTokens]

/-- Phrases that open the same tokens and do not go on are the same. -/
theorem eq_of_overlaps {j : Nat} {c c' : C} {r r' : List Token} (hc : J.Overlaps k c)
    (hj : ∀ o, ¬(Token.shape (J.mark o)).grip ≤ j) (hjk : j ≤ k)
    (h : J.tokens c ++ r = J.tokens c' ++ r') (hr : Ends j r) (hr' : Ends j r') :
    c = c' ∧ r = r' := by
  have hnil {xs : List (O × A)} {r₁ r₂ : List Token} (hx : r₁ = J.markedTokens xs ++ r₂)
      (h₁ : Ends j r₁) : xs = [] := by
    cases xs with
    | nil => rfl
    | cons x xs =>
      rw [hx] at h₁
      exact absurd (ends_cons.1 h₁) (hj x.1)
  obtain ⟨xs, ⟨rfl, hx⟩ | ⟨rfl, hx⟩⟩ := hc _ _ _ h (hr.mono hjk) (hr'.mono hjk)
  · cases hnil hx hr
    exact ⟨rfl, hx⟩
  · cases hnil hx hr'
    exact ⟨rfl, hx.symm⟩

end Joining

end ComplexExpr.Phrase
