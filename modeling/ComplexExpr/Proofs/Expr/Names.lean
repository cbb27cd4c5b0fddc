import ComplexExpr.Proofs.Expr.Dependence
import ComplexExpr.Proofs.Expr.Derivation

/-!
# Names in tokens

Which names an expression has can be read off its tokens, one by one: a name
that a parenthesis opens after is a function's, and any other is a variable's.
`Occurs` says that a name stands in a list of tokens in the one way or in the
other, and `Mentions` that it is in an expression in that way. A phrase's
tokens and its expression agree on both (`Sum.occurs_iff` and its like):

* `parse_names`: the variables and the functions of what is parsed are the
  names among its tokens.
-/

namespace ComplexExpr

namespace Token

/-- The name stands among the tokens: before an opening parenthesis if `called`, and otherwise
before another token or at the end. -/
def Occurs (called : Bool) (x : Token) : List Token → Prop
  | [] => False
  | t :: ts =>
    (t = x ∧ shape t = .name ∧ decide (ts.head? = some "(") = called) ∨ Occurs called x ts

variable {called : Bool} {x t : Token} {ts rest : List Token}

theorem not_occurs_nil : ¬Occurs called x [] := id

theorem occurs_cons : Occurs called x (t :: ts) ↔
    (t = x ∧ shape t = .name ∧ decide (ts.head? = some "(") = called) ∨ Occurs called x ts := .rfl

theorem occurs_cons_of_shape (h : shape t ≠ .name) :
    Occurs called x (t :: ts) ↔ Occurs called x ts :=
  occurs_cons.trans (or_iff_right fun hname => h hname.2.1)

/-- Tokens that no parenthesis follows have their names for themselves. -/
theorem occurs_append (h : rest.head? ≠ some "(") :
    Occurs called x (ts ++ rest) ↔ Occurs called x ts ∨ Occurs called x rest := by
  induction ts with
  | nil => exact (or_iff_right not_occurs_nil).symm
  | cons t ts ih =>
    have hnext : decide ((ts ++ rest).head? = some "(") = decide (ts.head? = some "(") := by
      rcases ts with _ | ⟨u, ts⟩
      · simpa using h
      · rfl
    rw [List.cons_append, occurs_cons, occurs_cons, ih, hnext, or_assoc]

theorem shape_eq_name_iff : shape t = .name ↔ isName t.toList ∧ t ≠ "i" := by
  rw [shape_eq_iff (by decide)]
  refine ⟨fun h => ?_, fun h => .name h.1 h.2⟩
  cases h with
  | name hn hi => exact ⟨hn, hi⟩

theorem occurs_iff_exists : Occurs called x ts ↔ ∃ k, ts[k]? = some x ∧
    (isName x.toList ∧ x ≠ "i") ∧ decide (ts[k + 1]? = some "(") = called := by
  induction ts with
  | nil => simp [not_occurs_nil]
  | cons t ts ih =>
    rw [← Nat.or_exists_add_one, occurs_cons]
    refine or_congr ?_ ih
    rw [List.getElem?_cons_zero, Option.some.injEq, List.head?_eq_getElem?, List.getElem?_cons_succ]
    refine and_congr_right ?_
    rintro rfl
    rw [shape_eq_name_iff]

end Token

namespace Expr

/-- The name is that of a function called, or of a variable. -/
def Mentions (called : Bool) (x : String) (e : Expr) : Prop :=
  x ∈ bif called then e.functions else e.vars

/-- The name is in an argument. -/
def MentionsAll (called : Bool) (x : String) (es : List Expr) : Prop :=
  x ∈ bif called then functionsAll es else varsAll es

variable {called : Bool} {x : String}

@[simp] theorem mentions_literal {z : Value} : ¬Mentions called x (.literal z) := by
  cases called <;> exact NameSet.not_mem_empty

@[simp] theorem mentions_var {y : String} :
    Mentions called x (.var y) ↔ y = x ∧ false = called := by
  cases called with
  | false => exact NameSet.mem_singleton.trans (eq_comm.trans (and_iff_left rfl).symm)
  | true => exact iff_of_false NameSet.not_mem_empty nofun

@[simp] theorem mentions_negate {e : Expr} :
    Mentions called x (.negate e) ↔ Mentions called x e := by
  cases called <;> rfl

@[simp] theorem mentions_binary {op : BinaryOp} {l r : Expr} :
    Mentions called x (.binary op l r) ↔ Mentions called x l ∨ Mentions called x r := by
  cases called <;> exact NameSet.mem_union

@[simp] theorem mentions_call {f : String} {es : List Expr} :
    Mentions called x (.call f es) ↔ (f = x ∧ true = called) ∨ MentionsAll called x es := by
  cases called with
  | false => exact (or_iff_right nofun).symm
  | true =>
    refine NameSet.mem_insert.trans (or_congr_left ?_)
    exact eq_comm.trans (and_iff_left rfl).symm

@[simp] theorem mentionsAll_nil : ¬MentionsAll called x [] := by
  cases called <;> exact NameSet.not_mem_empty

@[simp] theorem mentionsAll_cons {e : Expr} {es : List Expr} :
    MentionsAll called x (e :: es) ↔ Mentions called x e ∨ MentionsAll called x es := by
  cases called <;> exact NameSet.mem_union

end Expr

namespace Phrase

open Token (Occurs not_occurs_nil occurs_cons occurs_append occurs_cons_of_shape)

variable {called : Bool} {x : String}

/-- A mark between two phrases, and what comes after it. -/
theorem occurs_mark {t : Token} {ts rest : List Token} (h : Token.shape t ≠ .name) (ho : t ≠ "(") :
    Occurs called x (ts ++ t :: rest) ↔ Occurs called x ts ∨ Occurs called x rest := by
  rw [occurs_append (by simpa using ho), occurs_cons_of_shape h]

theorem occurs_name (y : Name) {ts : List Token} :
    Occurs called x (y.token :: ts) ↔
      (y.token = x ∧ decide (ts.head? = some "(") = called) ∨ Occurs called x ts := by
  simp [occurs_cons, shape_name]

theorem occurs_opening {ts : List Token} : Occurs called x ("(" :: ts) ↔ Occurs called x ts :=
  occurs_cons_of_shape (by rw [shape_opening]; decide)

theorem occurs_closing {ts : List Token} : Occurs called x (ts ++ [")"]) ↔ Occurs called x ts := by
  rw [occurs_mark (by rw [shape_closing]; decide) (by decide)]
  exact or_iff_left not_occurs_nil

theorem shape_signToken_ne (sign : Sign) :
    Token.shape (signToken sign) ≠ .name ∧ signToken sign ≠ "(" := by
  rw [shape_signToken]
  cases sign <;> decide

theorem shape_scaling_ne (m : Scaling) : Token.shape m.token ≠ .name ∧ m.token ≠ "(" := by
  cases m <;> decide

theorem shape_raising_ne (m : Raising) : Token.shape m.token ≠ .name ∧ m.token ≠ "(" := by
  rw [shape_raising]
  cases m <;> decide

mutual

theorem Sum.occurs_iff (s : Sum) : Occurs called x s.tokens ↔ s.tree.Mentions called x := by
  cases s with
  | term t => rw [Sum.tokens, Sum.tree, t.occurs_iff]
  | join s sign t =>
    have hsign := shape_signToken_ne sign
    rw [Sum.tokens, Sum.tree, occurs_mark hsign.1 hsign.2, s.occurs_iff, t.occurs_iff,
      Expr.mentions_binary]

theorem Term.occurs_iff (t : Term) : Occurs called x t.tokens ↔ t.tree.Mentions called x := by
  cases t with
  | power p => rw [Term.tokens, Term.tree, p.occurs_iff]
  | join t mark p =>
    have hmark := shape_scaling_ne mark
    rw [Term.tokens, Term.tree, occurs_mark hmark.1 hmark.2, t.occurs_iff, p.occurs_iff,
      Expr.mentions_binary]

theorem Power.occurs_iff (p : Power) : Occurs called x p.tokens ↔ p.tree.Mentions called x := by
  cases p with
  | primary p => rw [Power.tokens, Power.tree, p.occurs_iff]
  | raise base mark exponent =>
    have hmark := shape_raising_ne mark
    rw [Power.tokens, Power.tree, occurs_mark hmark.1 hmark.2, base.occurs_iff, exponent.occurs_iff,
      Expr.mentions_binary]

theorem Primary.occurs_iff (p : Primary) :
    Occurs called x p.tokens ↔ p.tree.Mentions called x := by
  cases p with
  | group s => rw [Primary.tokens, Primary.tree, occurs_opening, occurs_closing, s.occurs_iff]
  | number n => simp [Primary.tokens, Primary.tree, occurs_cons, not_occurs_nil, shape_number]
  | imaginary n =>
    simp [Primary.tokens, Primary.tree, occurs_cons, not_occurs_nil, shape_number, shape_unit]
  | unit => simp [Primary.tokens, Primary.tree, occurs_cons, not_occurs_nil, shape_unit]
  | name y => simp [Primary.tokens, Primary.tree, occurs_name, not_occurs_nil]
  | callEmpty f =>
    rw [Primary.tokens, Primary.tree, occurs_name, occurs_opening,
      occurs_cons_of_shape (by rw [shape_closing]; decide)]
    simp [not_occurs_nil]
  | call f args =>
    rw [Primary.tokens, Primary.tree, occurs_name, occurs_opening, occurs_closing, args.occurs_iff,
      Expr.mentions_call]
    simp
  | signed sign p =>
    rw [Primary.tokens, Primary.tree, occurs_cons_of_shape (shape_signToken_ne sign).1,
      p.occurs_iff]
    cases sign <;> simp [signed]

theorem Arguments.occurs_iff (args : Arguments) :
    Occurs called x args.tokens ↔ Expr.MentionsAll called x args.trees := by
  cases args with
  | last s => simp [Arguments.tokens, Arguments.trees, s.occurs_iff]
  | cons s args =>
    rw [Arguments.tokens, Arguments.trees, occurs_mark (by rw [shape_comma]; decide) (by decide),
      s.occurs_iff, args.occurs_iff, Expr.mentionsAll_cons]

end

/-- If tokens are parsed, the variables of the expression, if they are not too deep to be collected,
are the names among the tokens, other than `i`, that no opening parenthesis follows at once, and its
functions are the names that one follows. -/
theorem parse_names {room : ℕ} {traced : Bool} {ts : List Token} {e : Expr}
    (h : Expr.parseWithin room traced ts = .ok e) :
    (∀ names, e.freeVariablesWithin room = .ok names → ∀ x, x ∈ names ↔
      ∃ k, ts[k]? = some x ∧ (Token.isName x.toList ∧ x ≠ "i") ∧ ts[k + 1]? ≠ some "(") ∧
    ∀ f, f ∈ e.functions ↔
      ∃ k, ts[k]? = some f ∧ (Token.isName f.toList ∧ f ≠ "i") ∧ ts[k + 1]? = some "(" := by
  obtain ⟨s, rfl, rfl⟩ := exists_sum_of_parse h
  refine ⟨fun names hnames x => ?_, fun f => ?_⟩
  · obtain rfl := Expr.vars_of_freeVariables hnames
    show s.tree.Mentions false x ↔ _
    rw [← s.occurs_iff, Token.occurs_iff_exists]
    simp only [decide_eq_false_iff_not, ne_eq]
  · show s.tree.Mentions true f ↔ _
    rw [← s.occurs_iff, Token.occurs_iff_exists]
    simp only [decide_eq_true_eq]

/-- In `-f(x, 2 i) ** y` the names `x` and `y` are variables, `i` is none, and `f` is a function. -/
theorem parse_names_call :
    ∃ e names, Expr.parse ["-", "f", "(", "x", ",", "2", "i", ")", "**", "y"] = .ok e ∧
      e.freeVariables = .ok names ∧ "x" ∈ names ∧ "y" ∈ names ∧ "i" ∉ names ∧
      "f" ∈ e.functions := by
  obtain ⟨hparse, -⟩ := parse_sampleSum
  obtain ⟨hvars, hfunctions⟩ := parse_names hparse
  refine ⟨_, _, hparse, rfl, ?_⟩
  rw [hvars _ rfl, hvars _ rfl, hvars _ rfl, hfunctions]
  refine ⟨⟨3, by decide⟩, ⟨9, by decide⟩, ?_, ⟨1, by decide⟩⟩
  rintro ⟨k, -, ⟨-, hi⟩, -⟩
  exact hi rfl

end Phrase

end ComplexExpr
