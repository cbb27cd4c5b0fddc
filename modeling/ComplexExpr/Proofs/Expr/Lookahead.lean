import ComplexExpr.Proofs.Expr.Derivation

/-!
# One token ahead

A parser looks at most at the first token of what it leaves. So what it takes
stays taken, and where it stops it stops again, whatever else follows if that
opens with the same token (`Ahead`). Where it stops, something is missing
(`Blocked`), and what it has taken by then goes on to a phrase (`Stalls`).
Main statement:

* `ahead_levels`: the parsers of the four levels look one token ahead, and
  stop at the front of a phrase.
-/

namespace ComplexExpr.Phrase

open ComplexExpr.Expr (taken chain closing arguments callArguments callOrName taken_chain_nil
  taken_chain_stop taken_chain_step taken_closing_cons taken_arguments taken_group
  taken_callArguments taken_callOrName_cons taken_numeral_cons taken_sum_succ taken_term_succ
  taken_power_succ taken_primary_opening taken_primary_number taken_primary_unit
  taken_primary_name)

/-- Takes something off the front of the tokens. -/
abbrev Taker (α : Type) := List Token → Except Cause (α × List Token)

/-- What is said of the tokens taken before a failure, of the next token and of the cause. -/
abbrev Account := List Token → Option Token → Cause → Prop

variable {α β : Type} {stall : Account} {f : Taker α} {ts : List Token}

/-- Of what is left, no more than the first token matters, neither to what is taken nor to how
taking fails; and `stall` holds where it fails, unless the frames run out. -/
structure Ahead (stall : Account) (f : Taker α) (ts : List Token) : Prop where
  ok {a : α} {rest : List Token} : f ts = .ok (a, rest) →
    ∃ p, p ++ rest = ts ∧ ∀ u, u.head? = rest.head? → f (p ++ u) = .ok (a, u)
  error {c : Cause} : f ts = .error c → c ≠ .tooDeep .parse →
    ∃ p r, p ++ r = ts ∧ stall p r.head? c ∧ ∀ u, u.head? = r.head? → f (p ++ u) = .error c

theorem head?_append_congr {u v : List Token} (p : List Token) (h : u.head? = v.head?) :
    (p ++ u).head? = (p ++ v).head? := by
  cases p with
  | nil => exact h
  | cons t p => rfl

theorem forall_opening_nil {P : List Token → Prop} (h : P []) :
    ∀ u : List Token, u.head? = ([] : List Token).head? → P u := by
  intro u hu
  rwa [List.head?_eq_none_iff.1 hu]

theorem forall_opening_cons {P : List Token → Prop} {t : Token} (h : ∀ u, P (t :: u)) :
    ∀ u : List Token, u.head? = (t :: ts).head? → P u := by
  intro u hu
  obtain ⟨u, rfl⟩ := List.head?_eq_some_iff.1 hu
  exact h u

namespace Ahead

/-- Nothing is taken. -/
theorem pure {a : α} (h : ∀ u, u.head? = ts.head? → f u = .ok (a, u)) : Ahead stall f ts where
  ok hf := by
    rw [h ts rfl] at hf
    cases hf
    exact ⟨[], rfl, h⟩
  error hf := by
    rw [h ts rfl] at hf
    cases hf

/-- The first token is a stumbling block. -/
theorem stop {c : Cause} (h : ∀ u, u.head? = ts.head? → f u = .error c)
    (hc : stall [] ts.head? c) : Ahead stall f ts where
  ok hf := by
    rw [h ts rfl] at hf
    cases hf
  error hf _ := by
    rw [h ts rfl] at hf
    cases hf
    exact ⟨[], ts, rfl, hc, h⟩

theorem tooDeep (h : f ts = .error (.tooDeep .parse)) : Ahead stall f ts where
  ok hf := by
    rw [h] at hf
    cases hf
  error hf hc := by
    rw [h] at hf
    cases hf
    exact absurd rfl hc

/-- The first token is taken. -/
theorem cons {g : Taker α} {t : Token} (h : ∀ u, f (t :: u) = g u)
    (hg : Ahead (fun q => stall (t :: q)) g ts) : Ahead stall f (t :: ts) where
  ok hf := by
    rw [h] at hf
    obtain ⟨p, rfl, hp⟩ := hg.ok hf
    exact ⟨t :: p, rfl, fun u hu => (h _).trans (hp u hu)⟩
  error hf hc := by
    rw [h] at hf
    obtain ⟨p, r, rfl, hst, hp⟩ := hg.error hf hc
    exact ⟨t :: p, r, rfl, hst, fun u hu => (h _).trans (hp u hu)⟩

theorem congr {g : Taker α} (h : ∀ u, u.head? = ts.head? → f u = g u) (hg : Ahead stall g ts) :
    Ahead stall f ts where
  ok hf := by
    rw [h ts rfl] at hf
    obtain ⟨p, rfl, hp⟩ := hg.ok hf
    exact ⟨p, rfl, fun u hu => (h _ (head?_append_congr p hu)).trans (hp u hu)⟩
  error hf hc := by
    rw [h ts rfl] at hf
    obtain ⟨p, r, rfl, hst, hp⟩ := hg.error hf hc
    exact ⟨p, r, rfl, hst, fun u hu => (h _ (head?_append_congr p hu)).trans (hp u hu)⟩

theorem mono {stall' : Account} (hf : Ahead stall f ts)
    (h : ∀ {p n c}, stall p n c → stall' p n c) : Ahead stall' f ts where
  ok := hf.ok
  error he hc := by
    obtain ⟨p, r, hts, hst, hp⟩ := hf.error he hc
    exact ⟨p, r, hts, h hst, hp⟩

theorem map (g : α → β) (hf : Ahead stall f ts) :
    Ahead stall (fun ts => (f ts).map fun q => (g q.1, q.2)) ts where
  ok h := by
    obtain ⟨⟨a, rest⟩, hok, h⟩ := ok_of_map h
    cases h
    obtain ⟨p, hts, hp⟩ := hf.ok hok
    exact ⟨p, hts, fun u hu => congrArg _ (hp u hu)⟩
  error {c} h hc := by
    obtain ⟨p, r, hts, hst, hp⟩ := hf.error (error_of_map h) hc
    exact ⟨p, r, hts, hst, fun u hu => congrArg _ (hp u hu)⟩

/-- Two takers one after the other: the second goes on from what the first has taken. -/
theorem bind (g : α → Taker β) {stall₁ : Account} (hf : Ahead stall₁ f ts)
    (hstall : ∀ {p n c}, stall₁ p n c → stall p n c)
    (hg : ∀ a p rest, p ++ rest = ts → f ts = .ok (a, rest) →
      Ahead (fun q => stall (p ++ q)) (g a) rest) :
    Ahead stall (fun ts => f ts >>= fun r => g r.1 r.2) ts where
  ok h := by
    obtain ⟨⟨a, rest⟩, hok, h⟩ := ok_of_bind h
    obtain ⟨p, hts, hp⟩ := hf.ok hok
    obtain ⟨q, rfl, hq⟩ := (hg a p rest hts hok).ok h
    refine ⟨p ++ q, by rw [List.append_assoc, hts], fun u hu => ?_⟩
    have hfirst := hp (q ++ u) (head?_append_congr q hu)
    show (f (p ++ q ++ u) >>= _) = _
    rw [List.append_assoc, hfirst]
    exact hq u hu
  error {c} h hc := by
    cases hok : f ts with
    | error c' =>
      rw [hok] at h
      cases h
      obtain ⟨p, r, hts, hst, hp⟩ := hf.error hok hc
      refine ⟨p, r, hts, hstall hst, fun u hu => ?_⟩
      show (f (p ++ u) >>= _) = _
      rw [hp u hu]
      rfl
    | ok q =>
      obtain ⟨a, rest⟩ := q
      rw [hok] at h
      obtain ⟨p, hts, hp⟩ := hf.ok hok
      obtain ⟨q, r, rfl, hst, hq⟩ := (hg a p rest hts hok).error h hc
      refine ⟨p ++ q, r, by rw [List.append_assoc, hts], hst, fun u hu => ?_⟩
      have hfirst := hp (q ++ u) (head?_append_congr q hu)
      show (f (p ++ q ++ u) >>= _) = _
      rw [List.append_assoc, hfirst]
      exact hq u hu

end Ahead

/-! ## What is missing -/

/-- What is missing after the tokens `p`, where `next` comes and does not help: an operand, or the
parenthesis that closes a group or a call, with a sum before it. -/
inductive Blocked : Account
  | operand {p next} : Blocked p next (.invalidPrimary next)
  | group {next} {before : List Token} (h : ∀ t ∈ before.getLast?, Token.shape t ≠ .name)
      (s : Sum) : Blocked (before ++ "(" :: s.tokens) next .unclosedGroup
  | call {next} (before : List Token) (f : Name) (args : Arguments) :
      Blocked (before ++ f.token :: "(" :: args.tokens) next (.unclosedCall f.token)

/-- The tokens go on to a phrase, and something is missing after them. -/
def Stalls {A : Type} (tokens : A → List Token) : Account := fun p next c =>
  Blocked p next c ∧ ∃ a w, tokens a = p ++ w

variable {A B : Type} {tokens : A → List Token} {tokens' : B → List Token} {p : List Token}
  {next : Option Token} {c : Cause} {t : Token}

/-- What is missing is so after any tokens that do not end in a name. -/
theorem Blocked.after (h : Blocked p next c) (before : List Token) (ht : Token.shape t ≠ .name) :
    Blocked (before ++ t :: p) next c := by
  cases h with
  | operand => exact .operand
  | @group _ first hlast s =>
    have hgroup : before ++ t :: (first ++ "(" :: s.tokens) =
        (before ++ t :: first) ++ "(" :: s.tokens := by simp
    rw [hgroup]
    refine .group (fun u hu => ?_) s
    rw [List.getLast?_append, List.getLast?_cons, Option.some_or, Option.mem_some_iff] at hu
    cases hv : first.getLast? with
    | none =>
      rw [hv] at hu
      exact hu ▸ ht
    | some v =>
      rw [hv] at hu
      exact hu ▸ hlast v hv
  | call first f args =>
    have hcall : before ++ t :: (first ++ f.token :: "(" :: args.tokens) =
        (before ++ t :: first) ++ f.token :: "(" :: args.tokens := by simp
    rw [hcall]
    exact .call _ f args

theorem Stalls.after (h : Stalls tokens p next c) (before : List Token)
    (ht : Token.shape t ≠ .name) (hjoin : ∀ a, ∃ b w, tokens' b = before ++ t :: (tokens a ++ w)) :
    Stalls tokens' (before ++ t :: p) next c := by
  obtain ⟨hblocked, a, w, ha⟩ := h
  obtain ⟨b, w', hb⟩ := hjoin a
  exact ⟨hblocked.after before ht, b, w ++ w', by simp [hb, ha]⟩

theorem Stalls.lift (h : Stalls tokens p next c)
    (hlift : ∀ a, ∃ b w, tokens' b = tokens a ++ w) : Stalls tokens' p next c := by
  obtain ⟨hblocked, a, w, ha⟩ := h
  obtain ⟨b, w', hb⟩ := hlift a
  exact ⟨hblocked, b, w ++ w', by simp [hb, ha]⟩

theorem stalls_operand : Stalls Primary.tokens [] next (.invalidPrimary next) :=
  ⟨.operand, .unit, ["i"], rfl⟩

/-! ## Chains and parentheses -/

section

variable {parser : Expr.Parser}

/-- What a parser has taken are the tokens of a phrase. -/
theorem exists_of_faithful {tree : A → α} {f : Taker α} {a : α} {rest : List Token}
    (hf : Faithful tokens tree f) (hp : p ++ rest = ts) (h : f ts = .ok (a, rest)) :
    ∃ x, p = tokens x ∧ tree x = a := by
  obtain ⟨x, hx, rfl⟩ := hf h
  exact ⟨x, List.append_cancel_right (hp.trans hx.symm), rfl⟩

theorem Joining.ahead_chain {C O : Type} (J : Joining C A O) (hname : J.op? .name = none)
    (hf : Faithful J.operandTokens J.operandTree fun ts => taken (parser ts))
    (ha : ∀ ts, Ahead (Stalls J.operandTokens) (fun ts => taken (parser ts)) ts) (c : C)
    (ts : List Token) :
    Ahead (fun q => Stalls J.tokens (J.tokens c ++ q))
      (fun ts => taken (chain J.op? parser (J.tree c) ts)) ts := by
  induction hn : ts.length using Nat.strongRecOn generalizing c ts with
  | ind n ih =>
    cases ts with
    | nil =>
      exact .pure (forall_opening_nil taken_chain_nil)
    | cons t ts =>
      cases hop : J.op? (Token.shape t) with
      | none =>
        exact .pure (forall_opening_cons fun u => taken_chain_stop hop)
      | some b =>
        have hshape : Token.shape t ≠ .name := fun h => by
          rw [h, hname] at hop
          cases hop
        obtain ⟨o, rfl, rfl⟩ := J.mark_of_op? hop
        refine .cons (fun u => taken_chain_step hop) ((ha ts).bind
          (fun e ts => taken (chain J.op? parser (.binary (J.op o) (J.tree c) e) ts))
          (fun h => ?_) ?_)
        · exact h.after _ hshape fun a => ⟨J.join c o a, [], by rw [J.tokens_join, List.append_nil]⟩
        · intro a p rest hp hok
          obtain ⟨x, rfl, rfl⟩ := exists_of_faithful hf hp hok
          rw [← J.tree_join]
          have hlen : rest.length < n := by
            have hts := congrArg List.length hp
            simp only [List.length_append, List.length_cons] at hts hn
            omega
          refine (ih _ hlen (J.join c o x) rest rfl).mono fun h => ?_
          rwa [J.tokens_join, List.append_assoc, List.cons_append] at h

/-- An operand, which is a phrase by itself (`first`), and the chain that goes on from it. -/
theorem Joining.ahead {C O : Type} (J : Joining C A O) (hname : J.op? .name = none)
    (hf : Faithful J.operandTokens J.operandTree fun ts => taken (parser ts))
    (ha : ∀ ts, Ahead (Stalls J.operandTokens) (fun ts => taken (parser ts)) ts) (first : A → C)
    (htokens : ∀ a, J.tokens (first a) = J.operandTokens a)
    (htree : ∀ a, J.tree (first a) = J.operandTree a) (ts : List Token) :
    Ahead (Stalls J.tokens)
      (fun ts => taken (parser ts) >>= fun r => taken (chain J.op? parser r.1 r.2)) ts := by
  refine (ha ts).bind (fun e ts => taken (chain J.op? parser e ts))
    (fun h => h.lift fun a => ⟨first a, [], by rw [htokens, List.append_nil]⟩) ?_
  intro e p rest hp hok
  obtain ⟨a, rfl, rfl⟩ := exists_of_faithful hf hp hok
  rw [← htokens, ← htree]
  exact J.ahead_chain hname hf ha (first a) rest

theorem ahead_closing {e : Cause} (h : stall [] ts.head? e) :
    Ahead stall (fun ts => taken (closing e ts)) ts := by
  cases ts with
  | nil =>
    exact .stop (forall_opening_nil rfl) h
  | cons t ts =>
    by_cases ht : Token.shape t = .closing
    · refine .cons (g := fun u => .ok ((), u)) (fun u => ?_) (.pure fun _ _ => rfl)
      exact taken_closing_cons.trans (if_pos ht)
    · exact .stop (forall_opening_cons fun u => taken_closing_cons.trans (if_neg ht)) h

/-- The arguments after the first one, `e`. -/
def moreArguments (parser : Expr.Parser) (e : Expr) : Taker (List Expr)
  | [] => .ok ([e], [])
  | t :: rest =>
    if Token.shape t = .comma then
      (taken (arguments parser rest)).map fun q => (e :: q.1, q.2)
    else .ok ([e], t :: rest)

theorem moreArguments_comma {e : Expr} (h : Token.shape t = .comma) :
    moreArguments parser e (t :: ts) =
      (taken (arguments parser ts)).map fun q => (e :: q.1, q.2) := if_pos h

theorem moreArguments_stop {e : Expr} (h : Token.shape t ≠ .comma) :
    moreArguments parser e (t :: ts) = .ok ([e], t :: ts) := if_neg h

variable (hf : Faithful Sum.tokens Sum.tree fun ts => taken (parser ts))
  (ha : ∀ ts, Ahead (Stalls Sum.tokens) (fun ts => taken (parser ts)) ts)
include hf ha

theorem ahead_group (ts : List Token) :
    Ahead (fun q => Stalls Primary.tokens ("(" :: q)) (fun ts => taken (Expr.group parser ts))
      ts := by
  refine .congr (fun u _ => taken_group) ((ha ts).bind
    (fun e ts => (taken (closing .unclosedGroup ts)).map fun q => (e, q.2)) (fun h => ?_) ?_)
  · exact h.after [] (by rw [shape_opening]; decide) fun s =>
      ⟨.group s, [")"], by simp [Primary.tokens]⟩
  · intro a p rest hp hok
    obtain ⟨s, rfl, -⟩ := exists_of_faithful hf hp hok
    refine (ahead_closing ?_).map (fun _ => a)
    rw [List.append_nil]
    exact ⟨@Blocked.group _ [] nofun s, .group s, [")"], by simp [Primary.tokens]⟩

theorem ahead_arguments (ts : List Token) :
    Ahead (Stalls Arguments.tokens) (fun ts => taken (arguments parser ts)) ts := by
  induction hn : ts.length using Nat.strongRecOn generalizing ts with
  | ind n ih =>
    refine .congr (fun u _ => taken_arguments) ((ha ts).bind (moreArguments parser)
      (fun h => h.lift fun s => ⟨.last s, [], by rw [Arguments.tokens, List.append_nil]⟩) ?_)
    intro a p rest hp hok
    obtain ⟨s, rfl, -⟩ := exists_of_faithful hf hp hok
    cases rest with
    | nil =>
      exact .pure (forall_opening_nil rfl)
    | cons t rest =>
      by_cases ht : Token.shape t = .comma
      · cases (Token.shape_eq_iff (by decide)).1 ht
        have hlen : rest.length < n := by
          have hts := congrArg List.length hp
          simp only [List.length_append, List.length_cons] at hts
          omega
        refine .cons (fun u => moreArguments_comma ht)
          (((ih _ hlen rest rfl).mono fun h => ?_).map _)
        exact h.after _ (by rw [shape_comma]; decide) fun args =>
          ⟨.cons s args, [], by rw [Arguments.tokens, List.append_nil]⟩
      · exact .pure (forall_opening_cons fun u => moreArguments_stop ht)

theorem ahead_callArguments (f : Name) (ts : List Token) :
    Ahead (fun q => Stalls Primary.tokens (f.token :: "(" :: q))
      (fun ts => taken (callArguments parser f.token ts)) ts := by
  by_cases hclose : ∃ rest, ts = ")" :: rest
  · obtain ⟨rest, rfl⟩ := hclose
    refine .cons (g := fun u => .ok ([], u)) (fun u => ?_) (.pure fun _ _ => rfl)
    rw [taken_callArguments, taken_closing_cons, if_pos shape_closing]
  · -- no parenthesis closes at once, neither here nor in what opens with the same token
    have hargs (u : List Token) (hu : u.head? = ts.head?) :
        taken (callArguments parser f.token u) =
          taken (arguments parser u) >>= fun r =>
            (taken (closing (.unclosedCall f.token) r.2)).map fun q => (r.1, q.2) := by
      rw [taken_callArguments]
      cases u with
      | nil => rfl
      | cons t u =>
        rw [Expr.taken_closing_of_ne]
        intro ht
        cases (Token.shape_eq_iff (by decide)).1 ht
        obtain ⟨rest, rfl⟩ := List.head?_eq_some_iff.1 hu.symm
        exact hclose ⟨rest, rfl⟩
    refine .congr hargs ((ahead_arguments hf ha ts).bind
      (fun es ts => (taken (closing (.unclosedCall f.token) ts)).map fun q => (es, q.2))
      (fun h => ?_) ?_)
    · exact h.after [f.token] (by rw [shape_opening]; decide) fun args =>
        ⟨.call f args, [")"], by simp [Primary.tokens]⟩
    · intro a p rest hp hok
      obtain ⟨args, rfl, -⟩ := exists_of_faithful (faithful_arguments hf) hp hok
      refine (ahead_closing ?_).map (fun _ => a)
      rw [List.append_nil]
      exact ⟨.call [] f args, .call f args, [")"], by simp [Primary.tokens]⟩

theorem ahead_callOrName (f : Name) (ts : List Token) :
    Ahead (fun q => Stalls Primary.tokens (f.token :: q))
      (fun ts => taken (callOrName parser f.token ts)) ts := by
  cases ts with
  | nil =>
    exact .pure (forall_opening_nil rfl)
  | cons t ts =>
    by_cases ht : Token.shape t = .opening
    · cases (Token.shape_eq_iff (by decide)).1 ht
      exact .cons (fun u => taken_callOrName_cons.trans (if_pos ht))
        ((ahead_callArguments hf ha f ts).map _)
    · exact .pure (forall_opening_cons fun u => taken_callOrName_cons.trans (if_neg ht))

end

theorem ahead_numeral (n : Numeral) (ts : List Token) :
    Ahead stall (fun ts => taken (.ok (Expr.numeral n ts))) ts := by
  cases ts with
  | nil =>
    exact .pure (forall_opening_nil rfl)
  | cons t ts =>
    by_cases ht : Token.shape t = .unit
    · exact .cons (g := fun u => .ok (_, u)) (fun u => taken_numeral_cons.trans (if_pos ht))
        (.pure fun _ _ => rfl)
    · exact .pure (forall_opening_cons fun u => taken_numeral_cons.trans (if_neg ht))

/-! ## Levels -/

section

variable {room : ℕ}

theorem ahead_sum (ha : ∀ ts, Ahead (Stalls Term.tokens) (fun ts => taken (Expr.term room ts)) ts)
    (ts : List Token) :
    Ahead (Stalls Sum.tokens) (fun ts => taken (Expr.sum (room + 1) ts)) ts := by
  have hf : Faithful Term.tokens Term.tree fun ts => taken (Expr.term room ts) :=
    (faithful_levels room).2.1
  have hsum := sums.ahead rfl hf ha Sum.term (fun _ => rfl) (fun _ => rfl) ts
  exact .congr (fun u _ => taken_sum_succ) hsum

theorem ahead_term
    (ha : ∀ ts, Ahead (Stalls Power.tokens) (fun ts => taken (Expr.power room ts)) ts)
    (ts : List Token) :
    Ahead (Stalls Term.tokens) (fun ts => taken (Expr.term (room + 1) ts)) ts := by
  have hf : Faithful Power.tokens Power.tree fun ts => taken (Expr.power room ts) :=
    (faithful_levels room).2.2.1
  have hterm := terms.ahead rfl hf ha Term.power (fun _ => rfl) (fun _ => rfl) ts
  exact .congr (fun u _ => taken_term_succ) hterm

/-- The power of a base `e`, if it is raised. -/
def raisedFrom (room : ℕ) (e : Expr) : Taker Expr
  | [] => .ok (e, [])
  | t :: rest =>
    if Token.shape t = .power then
      (taken (Expr.power room rest)).map fun q => (.binary .pow e q.1, q.2)
    else .ok (e, t :: rest)

theorem raisedFrom_mark {e : Expr} (h : Token.shape t = .power) :
    raisedFrom room e (t :: ts) =
      (taken (Expr.power room ts)).map fun q => (.binary .pow e q.1, q.2) := if_pos h

theorem raisedFrom_stop {e : Expr} (h : Token.shape t ≠ .power) :
    raisedFrom room e (t :: ts) = .ok (e, t :: ts) := if_neg h

theorem ahead_power
    (hprimary : ∀ ts, Ahead (Stalls Primary.tokens) (fun ts => taken (Expr.primary room ts)) ts)
    (hpower : ∀ ts, Ahead (Stalls Power.tokens) (fun ts => taken (Expr.power room ts)) ts)
    (ts : List Token) :
    Ahead (Stalls Power.tokens) (fun ts => taken (Expr.power (room + 1) ts)) ts := by
  refine .congr (fun u _ => taken_power_succ) ((hprimary ts).bind (raisedFrom room)
    (fun h => h.lift fun p => ⟨.primary p, [], by rw [Power.tokens, List.append_nil]⟩) ?_)
  intro a p rest hp hok
  obtain ⟨base, rfl, -⟩ := exists_of_faithful (faithful_levels room).2.2.2 hp hok
  cases rest with
  | nil =>
    exact .pure (forall_opening_nil rfl)
  | cons t rest =>
    by_cases ht : Token.shape t = .power
    · obtain ⟨mark, rfl⟩ := raising_of_shape ht
      refine .cons (fun u => raisedFrom_mark ht) (((hpower rest).mono fun h => ?_).map _)
      exact h.after _ (by rw [ht]; decide) fun exponent =>
        ⟨.raise base mark exponent, [], by rw [Power.tokens, List.append_nil]⟩
    · exact .pure (forall_opening_cons fun u => raisedFrom_stop ht)

theorem ahead_primary
    (hsum : ∀ ts, Ahead (Stalls Sum.tokens) (fun ts => taken (Expr.sum room ts)) ts)
    (hprimary : ∀ ts, Ahead (Stalls Primary.tokens) (fun ts => taken (Expr.primary room ts)) ts)
    (ts : List Token) :
    Ahead (Stalls Primary.tokens) (fun ts => taken (Expr.primary (room + 1) ts)) ts := by
  have hf : Faithful Sum.tokens Sum.tree fun ts => taken (Expr.sum room ts) :=
    (faithful_levels room).1
  cases ts with
  | nil =>
    exact .stop (forall_opening_nil Expr.taken_primary_nil) stalls_operand
  | cons t ts =>
    cases hs : Token.shape t with
    | opening =>
      cases (Token.shape_eq_iff (by decide)).1 hs
      exact .cons (fun u => taken_primary_opening hs) (ahead_group hf hsum ts)
    | number n => exact .cons (fun u => taken_primary_number hs) (ahead_numeral n ts)
    | unit =>
      exact .cons (g := fun u => .ok (_, u)) (fun u => taken_primary_unit hs) (.pure fun _ _ => rfl)
    | name =>
      cases (Token.shape_eq_iff (by decide)).1 hs with
      | name hn hi =>
        exact .cons (fun u => taken_primary_name hs) (ahead_callOrName hf hsum ⟨t, hn, hi⟩ ts)
    | sign s =>
      refine .cons (fun u => taken_primary_sign hs) (((hprimary ts).mono fun h => ?_).map _)
      exact h.after [] (by rw [hs]; exact nofun) fun p =>
        ⟨.signed s p, [], by rw [Primary.tokens, signToken_of_shape hs, List.append_nil]; rfl⟩
    | _ =>
      have hno : ¬Opens (Token.shape t) := by rw [hs]; exact id
      exact .stop (forall_opening_cons fun u => taken_primary_refused hno) stalls_operand

end

/-- The parsers of the four levels look one token ahead. Where one stops, what it has taken goes on
to a phrase of its level. -/
theorem ahead_levels (room : ℕ) :
    (∀ ts, Ahead (Stalls Sum.tokens) (fun ts => taken (Expr.sum room ts)) ts) ∧
    (∀ ts, Ahead (Stalls Term.tokens) (fun ts => taken (Expr.term room ts)) ts) ∧
    (∀ ts, Ahead (Stalls Power.tokens) (fun ts => taken (Expr.power room ts)) ts) ∧
    (∀ ts, Ahead (Stalls Primary.tokens) (fun ts => taken (Expr.primary room ts)) ts) := by
  induction room with
  | zero =>
    exact ⟨fun _ => .tooDeep Expr.taken_sum_zero, fun _ => .tooDeep Expr.taken_term_zero,
      fun _ => .tooDeep Expr.taken_power_zero, fun _ => .tooDeep Expr.taken_primary_zero⟩
  | succ room ih =>
    obtain ⟨hsum, hterm, hpower, hprimary⟩ := ih
    exact ⟨ahead_sum hterm, ahead_term hpower, ahead_power hprimary hpower,
      ahead_primary hsum hprimary⟩

end ComplexExpr.Phrase
