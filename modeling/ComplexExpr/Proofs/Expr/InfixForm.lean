import ComplexExpr.Proofs.Expr.Derivation
import ComplexExpr.Proofs.Expr.Spread

/-!
# The infix form

`Infix` is an expression with the way its literals and powers are written.
`Infix.tokens` prints it with operators between their operands, and with
parentheses only where an operand's level is below what its place requires:

| operator   | level | left | right |
| ---------- | ----- | ---- | ----- |
| `+` `-`    | 1     | 1    | 2     |
| `*` `/`    | 2     | 2    | 3     |
| `**` `^`   | 3     | 4    | 3     |

Everything else has level 4, an operand of a negation needs level 4, and an
argument, like the whole expression, level 1. What is printed in a place is a
phrase of the place's level (`Infix.derives`). Main statement:

* `Infix.parse_printed`: what is printed is parsed as the expression, from its
  tokens and from texts, unless the frames do not suffice.
-/

namespace ComplexExpr

namespace Phrase

/-! ## Phrases of a level -/

/-- A phrase of the level has these tokens, this expression and these frames. -/
inductive Derives : ℕ → List Token → Expr → ℕ → Prop
  | sum (s : Sum) : Derives 1 s.tokens s.tree s.frames
  | term (t : Term) : Derives 2 t.tokens t.tree t.frames
  | power (p : Power) : Derives 3 p.tokens p.tree p.frames
  | primary (p : Primary) : Derives 4 p.tokens p.tree p.frames

namespace Derives

variable {k level n : ℕ} {ts : List Token} {e : Expr}

theorem step (hk : 0 < k) (h : Derives (k + 1) ts e n) : Derives k ts e (n + 1) := by
  cases h with
  | sum s => exact absurd hk (lt_irrefl 0)
  | term t => exact .sum (.term t)
  | power p => exact .term (.power p)
  | primary p => exact .power (.primary p)

/-- A phrase is a phrase of each lower level. -/
theorem lower (hk : 0 < k) (hle : k ≤ level) (h : Derives level ts e n) :
    Derives k ts e (n + (level - k)) := by
  obtain ⟨d, rfl⟩ := Nat.exists_eq_add_of_le hle
  rw [Nat.add_sub_cancel_left]
  induction d generalizing n with
  | zero => exact h
  | succ d ih =>
    have h' := ih (Nat.le_add_right k d) (h.step (Nat.add_pos_left hk d))
    rwa [Nat.add_right_comm, Nat.add_assoc] at h'

theorem group (h : Derives 1 ts e n) : Derives 4 ("(" :: (ts ++ [")"])) e (n + 1) := by
  cases h with
  | sum s => exact .primary (.group s)

theorem negate (h : Derives 4 ts e n) : Derives 4 ("-" :: ts) (.negate e) (n + 1) := by
  cases h with
  | primary p => exact .primary (.signed .minus p)

theorem exists_sum (h : Derives 1 ts e n) : ∃ s : Sum, s.tokens = ts ∧ s.tree = e ∧ s.frames = n := by
  cases h with
  | sum s => exact ⟨s, rfl, rfl, rfl⟩

end Derives

end Phrase

open Phrase (Arguments Derives Name Number Raising Scaling signOp signToken)
open Token (Blanks spread)

/-- An operator as it is written. -/
inductive Operator
  | sum (sign : Sign)
  | scale (mark : Scaling)
  | raise (mark : Raising)

namespace Operator

def token : Operator → Token
  | sum sign => signToken sign
  | scale mark => mark.token
  | raise mark => mark.token

def op : Operator → BinaryOp
  | sum sign => signOp sign
  | scale mark => mark.op
  | raise _ => .pow

def level : Operator → ℕ
  | sum _ => 1
  | scale _ => 2
  | raise _ => 3

/-- The level that the left operand needs. -/
def left : Operator → ℕ
  | sum _ => 1
  | scale _ => 2
  | raise _ => 4

/-- The level that the right operand needs. -/
def right : Operator → ℕ
  | sum _ => 2
  | scale _ => 3
  | raise _ => 3

/-- The frames that an operation takes, from those of its operands in their places. -/
def frames (op : Operator) (l r : ℕ) : ℕ :=
  match op with
  | sum _ | scale _ => max l (r + 1)
  | raise _ => max l r + 1

end Operator

/-- An expression as it is written. -/
inductive Infix
  | number (n : Number)
  | imaginary (n : Number)
  | unit
  | name (x : Name)
  | negate (operand : Infix)
  | binary (op : Operator) (left right : Infix)
  | call (f : Name) (args : List Infix)

namespace Infix

mutual

/-- The expression that is written. -/
def tree : Infix → Expr
  | .number n => .literal ⟨n.numeral.toFloat, 0.0⟩
  | .imaginary n => .literal ⟨0.0, n.numeral.toFloat⟩
  | .unit => .literal ⟨0.0, 1.0⟩
  | .name x => .var x.token
  | .negate e => .negate e.tree
  | .binary op l r => .binary op.op l.tree r.tree
  | .call f es => .call f.token (trees es)

def trees : List Infix → List Expr
  | [] => []
  | e :: es => e.tree :: trees es

end

def level : Infix → ℕ
  | .binary op .. => op.level
  | _ => 4

/-- Tokens of the given level in a place that requires another. -/
def inPlace (required level : ℕ) (ts : List Token) : List Token :=
  if level < required then "(" :: (ts ++ [")"]) else ts

mutual

/-- The tokens of an expression without parentheses around it. -/
def bare : Infix → List Token
  | .number n => [n.token]
  | .imaginary n => [n.token, "i"]
  | .unit => ["i"]
  | .name x => [x.token]
  | .negate e => "-" :: inPlace 4 e.level e.bare
  | .binary op l r => inPlace op.left l.level l.bare ++ op.token :: inPlace op.right r.level r.bare
  | .call f es => f.token :: "(" :: (argTokens es ++ [")"])

/-- Arguments with commas between them. -/
def argTokens : List Infix → List Token
  | [] => []
  | [e] => inPlace 1 e.level e.bare
  | e :: e' :: es => inPlace 1 e.level e.bare ++ "," :: argTokens (e' :: es)

end

/-- The tokens of an expression. -/
def tokens (e : Infix) : List Token := inPlace 1 e.level e.bare

/-- The frames that reading takes in a place: one for each level between, and parentheses go down
to the lowest level and take one themselves. -/
def framesInPlace (required level frames : ℕ) : ℕ :=
  if level < required then frames + level + (4 - required) else frames + (level - required)

mutual

/-- The frames that reading the bare tokens takes. -/
def bareFrames : Infix → ℕ
  | .number _ | .imaginary _ | .unit | .name _ => 1
  | .negate e => framesInPlace 4 e.level e.bareFrames + 1
  | .binary op l r =>
    op.frames (framesInPlace op.left l.level l.bareFrames)
      (framesInPlace op.right r.level r.bareFrames)
  | .call _ es => argFrames es + 1

def argFrames : List Infix → ℕ
  | [] => 0
  | e :: es => max (framesInPlace 1 e.level e.bareFrames) (argFrames es)

end

/-- The frames that reading an expression takes. -/
def frames (e : Infix) : ℕ := framesInPlace 1 e.level e.bareFrames

/-! ## What is printed -/

/-- A phrase, in parentheses where it needs them, is a phrase of the level that is required. -/
theorem derives_inPlace {level required : ℕ} (hl : 0 < level) (hr : 0 < required) (hr' : required ≤ 4)
    {ts : List Token} {e : Expr} {n : ℕ} (h : Derives level ts e n) :
    Derives required (Infix.inPlace required level ts) e (framesInPlace required level n) := by
  unfold Infix.inPlace framesInPlace
  split
  next =>
    have h' := (h.lower Nat.one_pos hl).group.lower hr hr'
    have hn : n + (level - 1) + 1 + (4 - required) = n + level + (4 - required) := by omega
    rwa [hn] at h'
  next hlevel => exact h.lower hr (Nat.le_of_not_lt hlevel)

theorem level_pos (e : Infix) : 0 < e.level := by
  cases e with
  | binary op l r => cases op <;> exact Nat.succ_pos _
  | _ => exact Nat.succ_pos 3

/-- Operands in their places make up a phrase of the operator's level. -/
theorem derives_binary {op : Operator} {tsl tsr : List Token} {l r : Expr} {m n : ℕ}
    (hl : Derives op.left tsl l m) (hr : Derives op.right tsr r n) :
    Derives op.level (tsl ++ op.token :: tsr) (.binary op.op l r) (op.frames m n) := by
  cases op with
  | sum sign =>
    cases hl with
    | sum s =>
      cases hr with
      | term t => exact .sum (.join s sign t)
  | scale mark =>
    cases hl with
    | term t =>
      cases hr with
      | power p => exact .term (.join t mark p)
  | raise mark =>
    cases hl with
    | primary base =>
      cases hr with
      | power exponent => exact .power (.raise base mark exponent)

theorem operator_places (op : Operator) :
    (0 < op.left ∧ op.left ≤ 4) ∧ 0 < op.right ∧ op.right ≤ 4 := by
  cases op <;> simp only [Operator.left, Operator.right] <;> decide

mutual

/-- The bare tokens of an expression are a phrase of its level. -/
theorem derives : (e : Infix) → Derives e.level e.bare e.tree e.bareFrames
  | .number n => .primary (.number n)
  | .imaginary n => .primary (.imaginary n)
  | .unit => .primary .unit
  | .name x => .primary (.name x)
  | .negate e => (derives_inPlace e.level_pos (by decide) (Nat.le_refl 4) e.derives).negate
  | .binary op l r => by
    obtain ⟨⟨hl, hl'⟩, hr, hr'⟩ := operator_places op
    rw [bare, tree, bareFrames]
    exact derives_binary (derives_inPlace l.level_pos hl hl' l.derives)
      (derives_inPlace r.level_pos hr hr' r.derives)
  | .call f [] => .primary (.callEmpty f)
  | .call f (e :: es) => by
    obtain ⟨args, ht, htree, hf⟩ := exists_arguments (e :: es) (List.cons_ne_nil e es)
    rw [bare, tree, bareFrames, ← ht, ← htree, ← hf]
    exact .primary (.call f args)

/-- The printed arguments are the arguments of a phrase. -/
theorem exists_arguments : (es : List Infix) → es ≠ [] → ∃ args : Arguments,
    args.tokens = argTokens es ∧ args.trees = trees es ∧ args.frames = argFrames es
  | [], h => absurd rfl h
  | [e], _ => by
    obtain ⟨s, ht, htree, hf⟩ :=
      (derives_inPlace e.level_pos Nat.one_pos (by decide) e.derives).exists_sum
    refine ⟨.last s, ht, by rw [Arguments.trees, htree, trees, trees], ?_⟩
    rw [Arguments.frames, hf, argFrames, argFrames, Nat.max_zero]
  | e :: e' :: es, _ => by
    obtain ⟨s, ht, htree, hf⟩ :=
      (derives_inPlace e.level_pos Nat.one_pos (by decide) e.derives).exists_sum
    obtain ⟨args, hts, htrees, hfs⟩ := exists_arguments (e' :: es) (List.cons_ne_nil e' es)
    refine ⟨.cons s args, ?_, ?_, ?_⟩
    · rw [Arguments.tokens, ht, hts, argTokens]
    · rw [Arguments.trees, htree, htrees, trees.eq_def (e :: _)]
    · rw [Arguments.frames, hf, hfs, argFrames.eq_def (e :: _)]

end

/-! ## Reading what is printed -/

/-- The tokens of an expression are a sum. -/
theorem exists_sum (e : Infix) :
    ∃ s : Phrase.Sum, s.tokens = e.tokens ∧ s.tree = e.tree ∧ s.frames = e.frames :=
  (derives_inPlace e.level_pos Nat.one_pos (by decide) e.derives).exists_sum

/-- What is printed is parsed as the expression, or else its frames do not suffice, or those of the
expression where it is traced, and nothing but that is reported. The same comes of a text with the
tokens in it, if blanks stand between any two of them. The limit of the program is
`Expr.frameLimit`. -/
theorem parse_printed (e : Infix) (room : ℕ) (traced : Bool) :
    Expr.parseWithin room traced e.tokens =
        (if e.frames ≤ room then e.tree.traceWithin room traced else .error (.tooDeep .parse)) ∧
      ∀ gaps : ℕ → Blanks, (∀ i, i + 1 < e.tokens.length → (gaps (i + 1)).chars ≠ []) →
        Expr.ofTextWithin room traced (String.ofList (spread gaps (e.tokens.map String.toList))) =
          if e.frames ≤ room then e.tree.traceWithin room traced else .error (.tooDeep .parse) := by
  obtain ⟨s, ht, htree, hf⟩ := e.exists_sum
  rw [← ht, ← htree, ← hf]
  exact ⟨s.parse_tokens room traced,
    fun gaps hg => s.ofText_spread fun i hi hnil => absurd hnil (hg i hi)⟩

/-- The power of a negated difference, with a negated call as its exponent. -/
def sample : Infix :=
  .binary (.raise .caret) (.negate (.binary (.sum .minus) (.name .x) (.number Phrase.two)))
    (.negate (.call ⟨"sqrt", by decide, by decide⟩ [.imaginary Phrase.two, .unit]))

/-- One blank. -/
def blank : Blanks := ⟨[' '], List.forall_mem_singleton.2 (by decide)⟩

theorem parse_sample :
    Expr.ofText " - ( x - 2 ) ^ - sqrt ( 2 i , i ) " = .ok sample.tree := by
  have h := (sample.parse_printed Expr.frameLimit false).2 (fun _ => blank)
    fun _ _ => List.cons_ne_nil _ _
  rw [if_pos (by decide)] at h
  have htext : String.ofList (spread (fun _ => blank) (sample.tokens.map String.toList)) =
      " - ( x - 2 ) ^ - sqrt ( 2 i , i ) " := by decide
  rwa [htext] at h

end Infix

end ComplexExpr
