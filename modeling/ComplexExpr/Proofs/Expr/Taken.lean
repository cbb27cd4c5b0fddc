import ComplexExpr.Expr.Parser
import ComplexExpr.Proofs.Expr.Frames

/-!
# What the parsers take

Each parser returns what it leaves together with the proof that this is
shorter. `taken` forgets the proof, and one equation for each parser says what
it takes by what the parsers below it take; nothing else needs to be known of
the definitions.
-/

namespace ComplexExpr.Expr

/-- What is taken off the front of the tokens, and what is left. -/
def taken {α : Type} {n : Nat} (r : Except Cause (Parsed Token α n)) :
    Except Cause (α × List Token) :=
  r.map fun p => (p.result, p.rest)

section

variable {op? : Token.Shape → Option BinaryOp} {operand : Parser} {left : Expr} {op : BinaryOp}
  {t : Token} {ts : List Token} {e : Cause} {name : String}

@[simp] theorem taken_error {α : Type} {n : Nat} :
    taken (.error e : Except Cause (Parsed Token α n)) = .error e := rfl

theorem taken_widen {α : Type} {m n : Nat} (h : m ≤ n) (r : Except Cause (Parsed Token α m)) :
    taken (r >>= fun p => pure (p.widen h)) = taken r := by
  cases r <;> rfl

theorem ok_bind {α β : Type} (a : α) (f : α → Except Cause β) : (Except.ok a >>= f) = f a := rfl

/-! ## Chains -/

@[simp] theorem taken_chain_nil : taken (chain op? operand left []) = .ok (left, []) := by
  rw [chain]; rfl

theorem taken_chain_stop (h : op? (Token.shape t) = none) :
    taken (chain op? operand left (t :: ts)) = .ok (left, t :: ts) := by
  rw [chain]
  simp only [h]
  rfl

theorem taken_chain_step (h : op? (Token.shape t) = some op) :
    taken (chain op? operand left (t :: ts)) =
      taken (operand ts) >>= fun r => taken (chain op? operand (.binary op left r.1) r.2) := by
  rw [chain]
  simp only [h]
  cases operand ts with
  | error e => rfl
  | ok right =>
    show taken ((chain op? operand (.binary op left right.result) right.rest) >>= _) = _
    rw [taken_widen]
    rfl

theorem taken_joined :
    taken (joined op? operand ts) =
      taken (operand ts) >>= fun r => taken (chain op? operand r.1 r.2) := by
  unfold joined
  cases operand ts with
  | error e => rfl
  | ok first =>
    show taken ((chain op? operand first.result first.rest) >>= _) = _
    rw [taken_widen]
    rfl

/-! ## Parentheses -/

@[simp] theorem taken_closing_nil : taken (closing e []) = .error e := rfl

theorem taken_closing_cons :
    taken (closing e (t :: ts)) =
      if Token.shape t = .closing then .ok ((), ts) else .error e := by
  show taken (if Token.shape t = .closing then _ else _) = _
  split <;> rfl

theorem taken_closing_of_ne (h : Token.shape t ≠ .closing) :
    taken (closing e (t :: ts)) = .error e := by
  rw [taken_closing_cons, if_neg h]

theorem taken_group :
    taken (group operand ts) =
      taken (operand ts) >>= fun r => (taken (closing .unclosedGroup r.2)).map fun q => (r.1, q.2) := by
  unfold group
  cases operand ts with
  | error e => rfl
  | ok inner =>
    show taken ((closing .unclosedGroup inner.rest) >>= _) = (taken (closing _ inner.rest)).map _
    cases closing .unclosedGroup inner.rest <;> rfl

theorem taken_arguments :
    taken (arguments operand ts) =
      taken (operand ts) >>= fun r =>
        match r.2 with
        | [] => .ok ([r.1], [])
        | t :: rest =>
          if Token.shape t = .comma then
            (taken (arguments operand rest)).map fun q => (r.1 :: q.1, q.2)
          else .ok ([r.1], t :: rest) := by
  rw [arguments]
  cases operand ts with
  | error e => rfl
  | ok first =>
    obtain ⟨x, rest, hlt⟩ := first
    cases rest with
    | nil => rfl
    | cons t rest =>
      show taken (if _ : Token.shape t = .comma then _ else _) = if Token.shape t = .comma then _ else _
      split
      · cases arguments operand rest <;> rfl
      · rfl

theorem taken_callArguments :
    taken (callArguments operand name ts) =
      match taken (closing (.unclosedCall name) ts) with
      | .ok r => .ok ([], r.2)
      | .error _ =>
        taken (arguments operand ts) >>= fun r =>
          (taken (closing (.unclosedCall name) r.2)).map fun q => (r.1, q.2) := by
  unfold callArguments
  cases closing (.unclosedCall name) ts with
  | ok close => rfl
  | error e =>
    show taken ((arguments operand ts) >>= _) = _
    cases arguments operand ts with
    | error e => rfl
    | ok args =>
      show taken ((closing (.unclosedCall name) args.rest) >>= _) = (taken (closing _ args.rest)).map _
      cases closing (.unclosedCall name) args.rest <;> rfl

@[simp] theorem taken_callOrName_nil :
    taken (callOrName operand name []) = .ok (.var name, []) := rfl

theorem taken_callOrName_cons :
    taken (callOrName operand name (t :: ts)) =
      if Token.shape t = .opening then
        (taken (callArguments operand name ts)).map fun q => (.call name q.1, q.2)
      else .ok (.var name, t :: ts) := by
  show taken (if Token.shape t = .opening then _ else _) = _
  split
  · cases callArguments operand name ts <;> rfl
  · rfl

@[simp] theorem taken_numeral_nil {n : Numeral} :
    taken (.ok (numeral n [])) = .ok (.literal ⟨n.toFloat, 0.0⟩, []) := rfl

theorem taken_numeral_cons {n : Numeral} :
    taken (.ok (numeral n (t :: ts))) =
      if Token.shape t = .unit then .ok (.literal ⟨0.0, n.toFloat⟩, ts)
      else .ok (.literal ⟨n.toFloat, 0.0⟩, t :: ts) := by
  show taken (.ok (if Token.shape t = .unit then _ else _)) = _
  split <;> rfl

end

/-! ## Levels -/

variable {t : Token} {ts : List Token} {room : Nat} {traced : Bool}

@[simp] theorem taken_sum_zero : taken (sum 0 ts) = .error (.tooDeep .parse) := by rw [sum]; rfl
@[simp] theorem taken_term_zero : taken (term 0 ts) = .error (.tooDeep .parse) := by rw [term]; rfl
@[simp] theorem taken_power_zero : taken (power 0 ts) = .error (.tooDeep .parse) := by rw [power]; rfl
@[simp] theorem taken_primary_zero : taken (primary 0 ts) = .error (.tooDeep .parse) := by
  rw [primary]; rfl

theorem taken_sum_succ :
    taken (sum (room + 1) ts) =
      taken (term room ts) >>= fun r => taken (chain additive? (term room) r.1 r.2) := by
  rw [sum]; exact taken_joined

theorem taken_term_succ :
    taken (term (room + 1) ts) =
      taken (power room ts) >>= fun r => taken (chain multiplicative? (power room) r.1 r.2) := by
  rw [term]; exact taken_joined

theorem taken_power_succ :
    taken (power (room + 1) ts) =
      taken (primary room ts) >>= fun r =>
        match r.2 with
        | [] => .ok (r.1, [])
        | t :: rest =>
          if Token.shape t = .power then
            (taken (power room rest)).map fun q => (.binary .pow r.1 q.1, q.2)
          else .ok (r.1, t :: rest) := by
  rw [power]
  show taken ((primary room ts) >>= _) = _
  cases primary room ts with
  | error e => rfl
  | ok base =>
    obtain ⟨x, rest, hlt⟩ := base
    cases rest with
    | nil => rfl
    | cons t rest =>
      show taken (if _ : Token.shape t = .power then _ else _) = if Token.shape t = .power then _ else _
      split
      · cases power room rest <;> rfl
      · rfl

@[simp] theorem taken_primary_nil :
    taken (primary (room + 1) []) = .error (.invalidPrimary none) := by rw [primary]; rfl

theorem taken_primary_cons :
    taken (primary (room + 1) (t :: ts)) =
      match Token.shape t with
      | .opening => taken (group (sum room) ts)
      | .number n => taken (.ok (numeral n ts))
      | .unit => .ok (.literal ⟨0.0, 1.0⟩, ts)
      | .name => taken (callOrName (sum room) t ts)
      | .sign .plus => taken (primary room ts)
      | .sign .minus => (taken (primary room ts)).map fun q => (.negate q.1, q.2)
      | _ => .error (.invalidPrimary (some t)) := by
  rw [primary]
  simp only
  cases Token.shape t with
  | opening => exact taken_widen _ _
  | name => rfl
  | number n => rfl
  | unit => rfl
  | sign s =>
    cases s with
    | plus => exact taken_widen _ _
    | minus => cases primary room ts <;> rfl
  | _ => rfl

/-! ## Primaries by the shape of their first token -/

theorem taken_primary_opening (h : Token.shape t = .opening) :
    taken (primary (room + 1) (t :: ts)) = taken (group (sum room) ts) := by
  rw [taken_primary_cons, h]

theorem taken_primary_number {n : Numeral} (h : Token.shape t = .number n) :
    taken (primary (room + 1) (t :: ts)) = taken (.ok (numeral n ts)) := by
  rw [taken_primary_cons, h]

theorem taken_primary_unit (h : Token.shape t = .unit) :
    taken (primary (room + 1) (t :: ts)) = .ok (.literal ⟨0.0, 1.0⟩, ts) := by
  rw [taken_primary_cons, h]

theorem taken_primary_name (h : Token.shape t = .name) :
    taken (primary (room + 1) (t :: ts)) = taken (callOrName (sum room) t ts) := by
  rw [taken_primary_cons, h]

/-! ## Whole lists of tokens -/

/-- A list of tokens is parsed if a sum takes all of it. -/
theorem parseWithin_eq :
    parseWithin room traced ts = taken (sum room ts) >>= fun r =>
      match r.2 with
      | [] => r.1.traceWithin room traced
      | rest => .error (.trailingTokens rest) := by
  unfold parseWithin
  cases sum room ts with
  | error e => rfl
  | ok p =>
    obtain ⟨e, rest, hlt⟩ := p
    cases rest <;> rfl

/-- Tokens are parsed as they are when nothing is traced, and then traced. -/
theorem parseWithin_eq_bind :
    parseWithin room traced ts = parseWithin room false ts >>= traceWithin room traced := by
  rw [parseWithin_eq, parseWithin_eq]
  cases taken (sum room ts) with
  | error e => rfl
  | ok q =>
    obtain ⟨e, rest⟩ := q
    cases rest <;> rfl

theorem ofTextWithin_eq_bind {text : String} :
    ofTextWithin room traced text = ofTextWithin room false text >>= traceWithin room traced := by
  unfold ofTextWithin
  cases Token.tokenize text with
  | error c => rfl
  | ok ts => exact parseWithin_eq_bind

end ComplexExpr.Expr
