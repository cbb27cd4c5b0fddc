import ComplexExpr.Proofs.Decimal.Typed
import ComplexExpr.Proofs.Expr.Descent
import ComplexExpr.Proofs.Expr.Lookahead
import ComplexExpr.Proofs.Value.Literal

/-!
# Readers that follow parsers

A parser is a function of the tokens that are left, and cannot but take some of
them. A reader moves a cursor over all the tokens, and nothing keeps it from
moving too far. It `Follows` the parser if from every cursor it gives what the
parser gives of the tokens from there on, ends where these are left, and throws
nothing but the parser's failures (`Agrees`).

Readers that are put together follow what is put together of the parsers that
the parts follow. Where a token has to be something, as an operand of a
conversion or the sign of an operation, its shape has just been looked at
(`conversions_of_number`, `Signs`). A loop is over in time as each of its rounds
takes a token (`agrees_arguments`, `agrees_rounds`).
-/

namespace ComplexExpr

namespace Token.Cursor

variable {c : Cursor} {t : Token} {ts : List Token} {m n : ℕ}

/-- The cursor, moved on over `n` tokens. -/
def skip (c : Cursor) (n : ℕ) : Cursor := { c with position := c.position + n }

theorem skip_skip : (c.skip m).skip n = c.skip (m + n) := by
  simp only [skip, Nat.add_assoc]

theorem remaining_skip : (c.skip n).remaining = c.remaining.drop n := by
  simp only [skip, remaining, List.drop_drop]

theorem remaining_skip_one (h : c.remaining = t :: ts) : (c.skip 1).remaining = ts := by
  rw [remaining_skip, h]
  rfl

theorem peek?_eq_head? : c.peek? = c.remaining.head? := by
  rw [peek?, remaining, List.head?_drop]

theorem peek?_eq_some (h : c.remaining = t :: ts) : c.peek? = some t := by
  rw [peek?_eq_head?, h]
  rfl

theorem peek?_eq_none (h : c.remaining = []) : c.peek? = none := by
  rw [peek?_eq_head?, h]
  rfl

end Token.Cursor

namespace Descent

open Token (Cursor)
open Phrase (Taker)
open ComplexExpr.Expr (taken)

variable {α β : Type} {c : Cursor} {t : Token} {ts : List Token} {limit : ℕ}

theorem length_lt_of_taken {n : ℕ} {r : Except Cause (Parsed Token α n)} {a : α}
    {rest : List Token} (h : taken r = .ok (a, rest)) : rest.length < n := by
  obtain ⟨p, -, hp⟩ := ok_of_map h
  cases hp
  exact p.rest_lt

theorem map_bind {γ : Type} (x : Except Cause α) (f : α → Except Cause β) (g : β → γ) :
    (x >>= f).map g = x >>= fun a => (f a).map g := by
  cases x <;> rfl

/-- From a cursor, an outcome that is what is taken off the tokens from there on: the cursor has
been moved over the tokens that are taken, and only failures are thrown. -/
inductive Agrees (c : Cursor) :
    Except Thrown (α × Cursor) → Except Cause (α × List Token) → Prop
  | throws (e : Cause) : Agrees c (.error (.failure e)) (.error e)
  | returns (a : α) {n : ℕ} (h : n ≤ c.remaining.length) :
      Agrees c (.ok (a, c.skip n)) (.ok (a, (c.skip n).remaining))

/-- At every cursor with fewer tokens before it than a loop is watched for, a reader ends as a taker
does on these tokens. -/
def Follows (limit : ℕ) (m : Reader α) (f : Taker α) : Prop :=
  ∀ c : Cursor, c.remaining.length < limit → Agrees c (m c) (f c.remaining)

/-! ## Steps -/

section

variable {m : Reader α} {k : α → Reader β}

theorem bind_of_ok {a : α} {c' : Cursor} (h : m c = .ok (a, c')) : (m >>= k) c = k a c' := by
  show Except.bind (m c) _ = _
  rw [h]
  rfl

theorem bind_of_error {e : Thrown} (h : m c = .error e) : (m >>= k) c = .error e := by
  show Except.bind (m c) _ = _
  rw [h]
  rfl

theorem peek_bind {k : Option Token → Reader β} : (peek >>= k) c = k c.peek? c := rfl

theorem advance_bind {k : Option Token → Reader β} :
    (advance >>= k) c = k c.peek? (c.skip 1) := rfl

theorem expect_eq (h : c.peek? = some t) : expect t c = .ok ((), c.skip 1) := by
  unfold expect
  rw [Cursor.expect, if_pos h]
  rfl

namespace Agrees

variable {o : Except Thrown (α × Cursor)} {r : Except Cause (α × List Token)}

/-- What agrees from a place further on agrees. -/
theorem after {n : ℕ} (hn : n ≤ c.remaining.length) (h : Agrees (c.skip n) o r) :
    Agrees c o r := by
  cases h with
  | throws e => exact .throws e
  | @returns a j hj =>
    rw [Cursor.remaining_skip, List.length_drop] at hj
    rw [Cursor.skip_skip]
    exact .returns a (by omega)

theorem cons (hc : c.remaining = t :: ts) (h : Agrees (c.skip 1) o r) : Agrees c o r :=
  h.after (by rw [hc]; exact Nat.succ_pos _)

theorem here (h : c.remaining = ts) (a : α) : Agrees c (.ok (a, c)) (.ok (a, ts)) :=
  h ▸ .returns (n := 0) a (Nat.zero_le _)

theorem bind {g : α × List Token → Except Cause (β × List Token)} (h : Agrees c (m c) r)
    (hk : ∀ a n, n ≤ c.remaining.length → r = .ok (a, (c.skip n).remaining) →
      Agrees (c.skip n) (k a (c.skip n)) (g (a, (c.skip n).remaining))) :
    Agrees c ((m >>= k) c) (r >>= g) := by
  generalize ho : m c = o at h
  cases h with
  | throws e =>
    rw [bind_of_error ho]
    exact .throws e
  | returns a hn =>
    rw [bind_of_ok ho]
    exact (hk a _ hn rfl).after hn

theorem map (f : α → β) (h : Agrees c (m c) r) :
    Agrees c ((m >>= fun a => pure (f a)) c) (r.map fun q => (f q.1, q.2)) := by
  generalize ho : m c = o at h
  cases h with
  | throws e =>
    rw [bind_of_error ho]
    exact .throws e
  | returns a hn =>
    rw [bind_of_ok ho]
    exact .returns (f a) hn

end Agrees

end

/-! ## Marks -/

/-- The tokens that a reader looks for by themselves, and their shapes. -/
def soughtMarks : List (Token × Token.Shape) :=
  [("(", .opening), (")", .closing), (",", .comma), ("i", .unit), ("+", .sign .plus),
    ("-", .sign .minus)]

section

variable {mark : Token} {s : Token.Shape} (hmark : (mark, s) ∈ soughtMarks)
include hmark

theorem shape_eq_iff_of_mark : Token.shape t = s ↔ t = mark := by
  simp only [soughtMarks, List.mem_cons, Prod.mk.injEq, List.not_mem_nil, or_false] at hmark
  obtain ⟨rfl, rfl⟩ | ⟨rfl, rfl⟩ | ⟨rfl, rfl⟩ | ⟨rfl, rfl⟩ | ⟨rfl, rfl⟩ | ⟨rfl, rfl⟩ := hmark
  all_goals
    refine (Token.shape_eq_iff (by decide)).trans ⟨fun h => by cases h; rfl, ?_⟩
    rintro rfl
    constructor

/-- The next token is a mark iff it has its shape. -/
theorem peek?_eq_mark (hc : c.remaining = t :: ts) : c.peek? = some mark ↔ Token.shape t = s := by
  rw [Cursor.peek?_eq_some hc, Option.some_inj, shape_eq_iff_of_mark hmark]

/-- A reader that looks whether a mark is next: there is no token, or one of another shape, or it
is the mark. -/
theorem agrees_if_next {go stop : Reader α} {f : Taker α}
    (hnil : c.remaining = [] → Agrees c (stop c) (f []))
    (hother : ∀ t ts, c.remaining = t :: ts → Token.shape t ≠ s → Agrees c (stop c) (f (t :: ts)))
    (hgo : ∀ t ts, c.remaining = t :: ts → Token.shape t = s → c.peek? = some mark →
      Agrees c (go c) (f (t :: ts))) :
    Agrees c ((if c.peek? = some mark then go else stop) c) (f c.remaining) := by
  cases hc : c.remaining with
  | nil =>
    rw [Cursor.peek?_eq_none hc, if_neg nofun]
    exact hnil hc
  | cons t ts =>
    have hnext : c.peek? = some mark ↔ Token.shape t = s := peek?_eq_mark hmark hc
    by_cases ht : Token.shape t = s
    · rw [if_pos (hnext.2 ht)]
      exact hgo t ts hc ht (hnext.2 ht)
    · rw [if_neg (mt hnext.1 ht)]
      exact hother t ts hc ht

end

theorem agrees_close (e : Cause) (c : Cursor) :
    Agrees c (close e c) (taken (Expr.closing e c.remaining)) := by
  rw [close, peek_bind]
  refine agrees_if_next (s := .closing) (f := fun ts => taken (Expr.closing e ts)) (by decide)
    (fun _ => ?_) (fun t ts _ ht => ?_) fun t ts hc ht hpeek => ?_
  · exact .throws e
  · rw [Expr.taken_closing_of_ne ht]
    exact .throws e
  · rw [expect_eq hpeek, Expr.taken_closing_cons, if_pos ht]
    exact .cons hc (.here (Cursor.remaining_skip_one hc) ())

/-! ## Operands in parentheses -/

section

variable {m : Reader Expr} {parser : Expr.Parser}

variable (h : Follows limit m fun ts => taken (parser ts))
include h

theorem agrees_group (hc : c.remaining = "(" :: ts) (hlimit : ts.length < limit) :
    Agrees c (group m c) (taken (Expr.group parser ts)) := by
  rw [← Cursor.remaining_skip_one hc] at hlimit ⊢
  rw [group, bind_of_ok (expect_eq (Cursor.peek?_eq_some hc)), Expr.taken_group]
  refine .cons hc ((h _ hlimit).bind fun e n _ _ => ?_)
  exact (agrees_close .unclosedGroup _).map fun _ => e

theorem agrees_arguments {left : ℕ} (args : List Expr) (c : Cursor)
    (hleft : c.remaining.length < left) (hlimit : left ≤ limit) :
    Agrees c (arguments m left args c)
      ((taken (Expr.arguments parser c.remaining)).map fun q => (args ++ q.1, q.2)) := by
  induction left generalizing args c with
  | zero => exact absurd hleft (Nat.not_lt_zero _)
  | succ left ih =>
    rw [arguments, Expr.taken_arguments, map_bind]
    refine (h c (hleft.trans_le hlimit)).bind fun e n hn hr => ?_
    have hlen := length_lt_of_taken hr
    have hcomma : (",", .comma) ∈ soughtMarks := by decide
    rw [peek_bind]
    refine agrees_if_next hcomma (f := fun rest => (Phrase.moreArguments parser e rest).map
      fun q => (args ++ q.1, q.2)) (fun hnil => ?_) (fun t ts hrest ht => ?_)
      fun t ts hrest ht hpeek => ?_
    · exact .here hnil (args ++ [e])
    · rw [Phrase.moreArguments_stop ht]
      exact .here hrest (args ++ [e])
    · have hnext : ((c.skip n).skip 1).remaining = ts := Cursor.remaining_skip_one hrest
      have hshort : ts.length < left := by
        rw [hrest, List.length_cons] at hlen
        omega
      have hmore := ih (args ++ [e]) ((c.skip n).skip 1) (hnext ▸ hshort) (by omega)
      have hjoin : ((taken (Expr.arguments parser ts)).map fun q => (e :: q.1, q.2)).map
            (fun q => (args ++ q.1, q.2)) =
          (taken (Expr.arguments parser ts)).map fun q => (args ++ [e] ++ q.1, q.2) := by
        cases taken (Expr.arguments parser ts) with
        | error _ => rfl
        | ok q => simp only [Except.map, List.append_assoc, List.singleton_append]
      rw [hnext] at hmore
      rw [bind_of_ok (expect_eq hpeek), Phrase.moreArguments_comma ht, hjoin]
      exact .cons hrest hmore

theorem agrees_callArguments (name : Token) (c : Cursor) (hlimit : c.remaining.length < limit) :
    Agrees c (callArguments limit m name c)
      (taken (Expr.callArguments parser name c.remaining)) := by
  have hclose (args : List Expr) (c : Cursor) :
      Agrees c ((close (.unclosedCall name) >>= fun _ => pure args) c)
        ((taken (Expr.closing (.unclosedCall name) c.remaining)).map fun q => (args, q.2)) :=
    (agrees_close (.unclosedCall name) c).map fun _ => args
  rw [callArguments, peek_bind, Expr.taken_callArguments]
  by_cases hpeek : c.peek? = some ")"
  · obtain ⟨ts, hc⟩ := List.head?_eq_some_iff.1 (Cursor.peek?_eq_head?.symm.trans hpeek)
    have hempty := hclose [] c
    have hnow : taken (Expr.closing (.unclosedCall name) (")" :: ts)) = .ok ((), ts) :=
      Expr.taken_closing_cons.trans (if_pos Phrase.shape_closing)
    rw [hc, hnow] at hempty
    rw [if_pos hpeek, hc, hnow]
    exact hempty
  · have hlater : taken (Expr.closing (.unclosedCall name) c.remaining) =
        .error (.unclosedCall name) := by
      cases hc : c.remaining with
      | nil => rfl
      | cons t ts => exact Expr.taken_closing_of_ne (mt (peek?_eq_mark (by decide) hc).2 hpeek)
    have hargs := agrees_arguments h [] c hlimit (Nat.le_refl limit)
    have hall : (taken (Expr.arguments parser c.remaining)).map (fun q => ([] ++ q.1, q.2)) =
        taken (Expr.arguments parser c.remaining) := by
      cases taken (Expr.arguments parser c.remaining) <;> rfl
    rw [hall] at hargs
    rw [if_neg hpeek, hlater]
    exact hargs.bind fun args n _ _ => hclose args (c.skip n)

theorem agrees_callOrName {name : Token} (hc : c.remaining = name :: ts)
    (hlimit : ts.length < limit) :
    Agrees c (callOrName limit m c) (taken (Expr.callOrName parser name ts)) := by
  have hnext : (c.skip 1).remaining = ts := Cursor.remaining_skip_one hc
  have htext : text (some name) (c.skip 1) = .ok (name, c.skip 1) := rfl
  rw [callOrName, advance_bind, Cursor.peek?_eq_some hc, bind_of_ok htext, peek_bind]
  subst hnext
  refine .cons hc (agrees_if_next (s := .opening)
    (f := fun ts => taken (Expr.callOrName parser name ts)) (by decide) (fun hnil => ?_)
    (fun t ts hts ht => ?_) fun t ts hts ht hpeek => ?_)
  · exact .here hnil (Expr.var name)
  · rw [Expr.taken_callOrName_cons, if_neg ht]
    exact .here hts (Expr.var name)
  · have hnext : ((c.skip 1).skip 1).remaining = ts := Cursor.remaining_skip_one hts
    rw [hts] at hlimit
    have hargs := agrees_callArguments h name ((c.skip 1).skip 1)
      (hnext ▸ Nat.lt_of_succ_lt hlimit)
    rw [hnext] at hargs
    rw [bind_of_ok (expect_eq hpeek), Expr.taken_callOrName_cons, if_pos ht]
    exact .cons hts (hargs.map (Expr.call name))

end

/-! ## Numbers -/

/-- A token that is a number converts to a number, and so does the text of its multiple of `i`. -/
theorem conversions_of_number {n : Numeral} (hn : Token.shape t = .number n) :
    Typed.readFloat? t = some n.toFloat ∧ Value.ofText (t ++ "i") = .ok ⟨0.0, n.toFloat⟩ := by
  have hshape : Token.HasShape t (.number n) := (Token.shape_eq_iff (by nofun)).1 hn
  cases hshape with
  | number hwf _ =>
    have hliteral : (String.ofList n.toChars ++ "i").toList =
        (Value.Literal.imaginary (.numeral n hwf)).text := by
      rw [String.toList_append, String.toList_ofList]
      rfl
    exact ⟨Typed.readFloat?_toChars hwf, Value.ofText_text hliteral⟩

theorem agrees_numeral {n : Numeral} (hn : Token.shape t = .number n) (hc : c.remaining = t :: ts) :
    Agrees c (numeral c) (taken (.ok (Expr.numeral n ts))) := by
  have hnext : (c.skip 1).remaining = ts := Cursor.remaining_skip_one hc
  have htext : text (some t) (c.skip 1) = .ok (t, c.skip 1) := rfl
  obtain ⟨hreal, himaginary⟩ := conversions_of_number hn
  rw [numeral, advance_bind, Cursor.peek?_eq_some hc, bind_of_ok htext, peek_bind, hreal, himaginary]
  subst hnext
  refine .cons hc (agrees_if_next (s := .unit) (f := fun ts => taken (.ok (Expr.numeral n ts)))
    (by decide) (fun hnil => ?_) (fun t ts hts ht => ?_) fun t ts hts ht hpeek => ?_)
  · exact .here hnil (Expr.literal ⟨n.toFloat, 0.0⟩)
  · rw [Expr.taken_numeral_cons, if_neg ht]
    exact .here hts (Expr.literal ⟨n.toFloat, 0.0⟩)
  · rw [bind_of_ok (expect_eq hpeek), Expr.taken_numeral_cons, if_pos ht]
    exact .cons hts (.here (Cursor.remaining_skip_one hts) (Expr.literal ⟨0.0, n.toFloat⟩))

/-! ## Units and signs -/

theorem agrees_unit (ht : Token.shape t = .unit) (hc : c.remaining = t :: ts) :
    Agrees c (unit c) (.ok (.literal ⟨0.0, 1.0⟩, ts)) := by
  rw [unit, bind_of_ok (expect_eq ((peek?_eq_mark (by decide) hc).2 ht))]
  exact .cons hc (.here (Cursor.remaining_skip_one hc) (Expr.literal ⟨0.0, 1.0⟩))

theorem agrees_signed {m : Reader Expr} {f : Taker Expr} (h : Follows limit m f) {s : Sign}
    (hs : Token.shape t = .sign s) (hc : c.remaining = t :: ts) (hlimit : ts.length < limit) :
    Agrees c (signed m c) ((f ts).map fun q => (Phrase.signed s q.1, q.2)) := by
  have hnext : (c.skip 1).remaining = ts := Cursor.remaining_skip_one hc
  have hoperand : Agrees (c.skip 1) (m (c.skip 1)) (f ts) := hnext ▸ h _ (by rwa [hnext])
  have hreturn : signed m c = (m >>= fun e => pure (Phrase.signed s e)) (c.skip 1) := by
    rw [signed, advance_bind, Cursor.peek?_eq_some hc]
    have hshape : Token.HasShape t (.sign s) := (Token.shape_eq_iff (by nofun)).1 hs
    cases hshape <;> rfl
  rw [hreturn]
  exact .cons hc (hoperand.map (Phrase.signed s))

/-! ## Loops -/

/-- The marks of a loop are the tokens whose shapes stand for operations, and give these. -/
structure Signs (marks : List Token) (op : Option Token → Except Thrown BinaryOp)
    (op? : Token.Shape → Option BinaryOp) : Prop where
  mem_iff {t : Token} : t ∈ marks ↔ ∃ b, op? (Token.shape t) = some b
  op_eq {t : Token} {b : BinaryOp} : op? (Token.shape t) = some b → op (some t) = .ok b

theorem Signs.of_joining {C A O : Type} (J : Phrase.Joining C A O) (os : List O)
    (hos : ∀ o, o ∈ os) (hop : ∀ o, J.op? (Token.shape (J.mark o)) = some (J.op o))
    (hoperator : ∀ o, operator (some (J.mark o)) = .ok (J.op o)) :
    Signs (os.map J.mark) operator J.op? where
  mem_iff {t} := by
    rw [List.mem_map]
    constructor
    · rintro ⟨o, -, rfl⟩
      exact ⟨J.op o, hop o⟩
    · rintro ⟨b, hb⟩
      obtain ⟨o, rfl, -⟩ := J.mark_of_op? hb
      exact ⟨o, hos o, rfl⟩
  op_eq h := by
    obtain ⟨o, rfl, rfl⟩ := J.mark_of_op? h
    exact hoperator o

theorem signs_additive : Signs ["+", "-"] operator Expr.additive? :=
  .of_joining Phrase.sums [.plus, .minus] (fun s => by cases s <;> simp)
    Phrase.additive?_signToken fun s => by cases s <;> rfl

theorem signs_multiplicative : Signs ["*", "/"] operator Expr.multiplicative? :=
  .of_joining Phrase.terms [.times, .over] (fun m => by cases m <;> simp)
    Phrase.multiplicative?_token fun m => by cases m <;> rfl

section

variable {m : Reader Expr} {marks : List Token} {op : Option Token → Except Thrown BinaryOp}
  {op? : Token.Shape → Option BinaryOp} {left : Expr} {b : BinaryOp}

theorem rounds_stop (h : ∀ t ∈ c.remaining.head?, t ∉ marks) :
    rounds marks op m (limit + 1) left c = (0, .ok (left, c)) := by
  have hnone : ¬c.peek?.any (· ∈ marks) := by
    rw [Cursor.peek?_eq_head?, Option.any_eq_true]
    rintro ⟨t, ht, hmem⟩
    exact h t ht (of_decide_eq_true hmem)
  rw [rounds, if_neg hnone]

/-- A round, and the rounds after it. -/
theorem rounds_go (hc : c.remaining = t :: ts) (ht : t ∈ marks) (hb : op (some t) = .ok b) :
    rounds marks op m (limit + 1) left c =
      match m (c.skip 1) with
      | .error e => (1, .error e)
      | .ok (right, c) =>
        ((rounds marks op m limit (.binary b left right) c).1 + 1,
          (rounds marks op m limit (.binary b left right) c).2) := by
  have hany : c.peek?.any (· ∈ marks) := by
    rw [Cursor.peek?_eq_some hc]
    exact decide_eq_true ht
  have hop : op c.advance.1 = .ok b := (congrArg op (Cursor.peek?_eq_some hc)).trans hb
  rw [rounds, if_pos hany, hop]
  rfl

theorem rounds_go_snd (hc : c.remaining = t :: ts) (ht : t ∈ marks) (hb : op (some t) = .ok b) :
    (rounds marks op m (limit + 1) left c).2 =
      (m >>= fun right c => (rounds marks op m limit (.binary b left right) c).2) (c.skip 1) := by
  rw [rounds_go hc ht hb]
  cases h : m (c.skip 1) with
  | error e => rw [bind_of_error h]
  | ok r => rw [bind_of_ok h]

theorem agrees_rounds {parser : Expr.Parser} (hs : Signs marks op op?)
    (h : Follows limit m fun ts => taken (parser ts)) {rest : ℕ} (left : Expr) (c : Cursor)
    (hrest : c.remaining.length < rest) (hlimit : rest ≤ limit) :
    Agrees c (rounds marks op m rest left c).2
      (taken (Expr.chain op? parser left c.remaining)) := by
  induction rest generalizing left c with
  | zero => exact absurd hrest (Nat.not_lt_zero _)
  | succ rest ih =>
    cases hc : c.remaining with
    | nil =>
      rw [rounds_stop (by rw [hc]; exact nofun), Expr.taken_chain_nil]
      exact .here hc left
    | cons t ts =>
      cases hop : op? (Token.shape t) with
      | none =>
        have hstop : t ∉ marks := fun ht => by
          obtain ⟨b, hb⟩ := hs.mem_iff.1 ht
          rw [hop] at hb
          cases hb
        rw [rounds_stop (by rw [hc]; rintro _ ⟨⟩; exact hstop), Expr.taken_chain_stop hop]
        exact .here hc left
      | some b =>
        have hnext : (c.skip 1).remaining = ts := Cursor.remaining_skip_one hc
        have hshort : ts.length < rest := by
          rw [hc, List.length_cons] at hrest
          omega
        rw [rounds_go_snd hc (hs.mem_iff.2 ⟨b, hop⟩) (hs.op_eq hop), Expr.taken_chain_step hop,
          ← hnext]
        refine .cons hc ((h _ (by rw [hnext]; omega)).bind fun e n hn hr => ?_)
        have hlen := length_lt_of_taken hr
        rw [hnext] at hlen
        exact ih (.binary b left e) ((c.skip 1).skip n) (by omega) (by omega)

end

end Descent

end ComplexExpr
