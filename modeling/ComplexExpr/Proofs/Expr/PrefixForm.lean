import ComplexExpr.Proofs.Expr.Derivation
import ComplexExpr.Proofs.Value.Written

/-!
# Prefix forms determine expressions

The prefix form of a parsed expression can be read in one way only, except that
a number too large for a double is written as the name `inf` or `infi`. So two
prefix forms are equal iff the expressions agree once these numbers have become
names (`named`, `agrees`). Main statements:

* `built_of_parse`: the literals of a parsed expression are finite, or the
  infinity in one part with zero in the other, and no name in it is `i`;
* `Built.readable`: in front of a blank, a parenthesis or the end, a text opens
  with the prefix form of one expression at most;
* `render_eq_iff`: two texts are rendered alike iff their expressions agree.
-/

namespace ComplexExpr

open Text (Stops stops_cons stops_nil run_append_inj)
open Value (isWordChar)

namespace Expr

mutual

/-- An expression with each literal that is written like a name made that name. -/
def named : Expr → Expr
  | .literal z =>
    if z.re == Decimal.infinity && z.im == 0.0 then .var "inf"
    else if z.re == 0.0 && z.im == Decimal.infinity then .var "infi"
    else .literal z
  | .var x => .var x
  | .negate e => .negate e.named
  | .binary op l r => .binary op l.named r.named
  | .call f es => .call f (namedAll es)

def namedAll : List Expr → List Expr
  | [] => []
  | e :: es => e.named :: namedAll es

end

mutual

/-- The expressions are the same tree, with numerically equal literals. -/
def agrees : Expr → Expr → Bool
  | .literal z, .literal w => z.re == w.re && z.im == w.im
  | .var x, .var y => x == y
  | .negate e, .negate e' => e.agrees e'
  | .binary op l r, .binary op' l' r' => op == op' && l.agrees l' && r.agrees r'
  | .call f es, .call g es' => f == g && agreesAll es es'
  | _, _ => false

def agreesAll : List Expr → List Expr → Bool
  | [], [] => true
  | e :: es, e' :: es' => e.agrees e' && agreesAll es es'
  | _, _ => false

end

/-- Every literal is one of those that `lit` holds of, and every name is a name other than the
imaginary unit's. -/
inductive Built (lit : Value → Prop) : Expr → Prop
  | literal {z} (h : lit z) : Built lit (.literal z)
  | var (x : Phrase.Name) : Built lit (.var x.token)
  | negate {e} (h : Built lit e) : Built lit (.negate e)
  | binary (op) {l r} (hl : Built lit l) (hr : Built lit r) : Built lit (.binary op l r)
  | call (f : Phrase.Name) {es} (h : ∀ e ∈ es, Built lit e) : Built lit (.call f.token es)

/-- Both parts are finite. -/
structure Finite (z : Value) : Prop where
  re : z.re.isFinite
  im : z.im.isFinite

/-- Both parts are finite, or one is the infinity and the other zero. -/
inductive Written : Value → Prop
  | finite {z} (h : Finite z) : Written z
  | infinity : Written ⟨Decimal.infinity, 0.0⟩
  | imaginaryInfinity : Written ⟨0.0, Decimal.infinity⟩

end Expr

/-! ## Parsed expressions -/

namespace Phrase

open ComplexExpr.Expr (Built Written)

theorem Number.written (n : Number) :
    Written ⟨n.numeral.toFloat, 0.0⟩ ∧ Written ⟨0.0, n.numeral.toFloat⟩ := by
  have hzero : (0.0 : Float).isFinite := by decide
  rcases Binary.toFloat_of_unsigned n.plain.1 with h | h
  · exact ⟨.finite ⟨h, hzero⟩, .finite ⟨hzero, h⟩⟩
  · rw [h]
    exact ⟨.infinity, .imaginaryInfinity⟩

mutual

theorem Sum.built : ∀ s : Sum, Built Written s.tree
  | .term t => t.built
  | .join s _ t => .binary _ s.built t.built

theorem Term.built : ∀ t : Term, Built Written t.tree
  | .power p => p.built
  | .join t _ p => .binary _ t.built p.built

theorem Power.built : ∀ p : Power, Built Written p.tree
  | .primary p => p.built
  | .raise base _ exponent => .binary _ base.built exponent.built

theorem Primary.built : ∀ p : Primary, Built Written p.tree
  | .group s => s.built
  | .number n => .literal n.written.1
  | .imaginary n => .literal n.written.2
  | .unit => .literal (.finite ⟨by decide, by decide⟩)
  | .name x => .var x
  | .callEmpty f => .call f nofun
  | .call f args => .call f args.built
  | .signed .plus p => p.built
  | .signed .minus p => .negate p.built

theorem Arguments.built : ∀ args : Arguments, ∀ e ∈ args.trees, Built Written e
  | .last s => List.forall_mem_singleton.2 s.built
  | .cons s args => List.forall_mem_cons.2 ⟨s.built, args.built⟩

end

end Phrase

namespace Expr

theorem built_of_parse {room : ℕ} {traced : Bool} {ts : List Token} {e : Expr}
    (h : parseWithin room traced ts = .ok e) : Built Written e := by
  obtain ⟨s, -, rfl⟩ := Phrase.exists_sum_of_parse h
  exact s.built

/-! ## Literals written like names -/

theorem Written.named {z : Value} (h : Written z) :
    Built Finite (named (.literal z)) ∧ prefixForm (named (.literal z)) = z.toText := by
  cases h with
  | finite h =>
    have hre := Value.beq_infinity_of_isFinite h.re
    have him := Value.beq_infinity_of_isFinite h.im
    have hnamed : Expr.named (.literal z) = .literal z := by simp [Expr.named, hre, him]
    rw [hnamed]
    exact ⟨.literal h, rfl⟩
  | infinity =>
    have hnamed : Expr.named (.literal ⟨Decimal.infinity, 0.0⟩) = .var "inf" := if_pos (by decide)
    rw [hnamed, Value.toText_infinity]
    exact ⟨.var ⟨"inf", by decide, by decide⟩, rfl⟩
  | imaginaryInfinity =>
    have hnamed : Expr.named (.literal ⟨0.0, Decimal.infinity⟩) = .var "infi" :=
      (if_neg (by decide)).trans (if_pos (by decide))
    rw [hnamed, Value.toText_imaginary_infinity]
    exact ⟨.var ⟨"infi", by decide, by decide⟩, rfl⟩

theorem namedAll_eq_map (es : List Expr) : namedAll es = es.map named := by
  induction es with
  | nil => rfl
  | cons e es ih => rw [namedAll, ih, List.map_cons]

theorem prefixArgs_congr {es : List Expr} (h : ∀ e ∈ es, e.named.prefixForm = e.prefixForm) :
    prefixArgs (namedAll es) = prefixArgs es := by
  induction es with
  | nil => rfl
  | cons e es ih =>
    obtain ⟨he, hes⟩ := List.forall_mem_cons.1 h
    rw [namedAll, prefixArgs, prefixArgs, he, ih hes]

/-- Only finite literals are left, and the prefix form is the same. -/
theorem Built.named {e : Expr} (h : Built Written e) :
    Built Finite e.named ∧ e.named.prefixForm = e.prefixForm := by
  induction h with
  | literal h => exact h.named
  | var x => exact ⟨.var x, rfl⟩
  | negate _ ih => exact ⟨.negate ih.1, by rw [Expr.named, prefixForm, ih.2, prefixForm]⟩
  | binary op _ _ ihl ihr =>
    exact ⟨.binary op ihl.1 ihr.1, by rw [Expr.named, prefixForm, ihl.2, ihr.2, prefixForm]⟩
  | @call f es _ ih =>
    refine ⟨.call f ?_, ?_⟩
    · rw [namedAll_eq_map]
      exact List.forall_mem_map.2 fun e he => (ih e he).1
    · rw [Expr.named, prefixForm, prefixArgs_congr fun e he => (ih e he).2, prefixForm]

/-! ## Nodes with and without parentheses -/

/-- What stands after the opening parenthesis of a node, and the operands that follow it. -/
def form? : Expr → Option (String × List Expr)
  | .literal _ | .var _ => none
  | .negate e => some ("-", [e])
  | .binary op l r => some (op.symbol, [l, r])
  | .call f es => some (f, es)

/-- The text of a list of operands, each after a blank. -/
def operands : List Expr → List Char
  | [] => []
  | e :: es => ' ' :: (e.prefixForm.toList ++ operands es)

theorem toList_prefixArgs (es : List Expr) : (prefixArgs es).toList = operands es := by
  induction es with
  | nil => rfl
  | cons e es ih =>
    rw [prefixArgs, operands, String.toList_append, String.toList_append, ih]
    rfl

section

variable {e e' : Expr} {head : String} {es es' : List Expr} {rest rest' : List Char}

theorem toList_prefixForm (h : e.form? = some (head, es)) :
    e.prefixForm.toList = '(' :: (head.toList ++ (operands es ++ [')'])) := by
  cases e with
  | literal z => cases h
  | var x => cases h
  | negate e => cases h; simp [prefixForm, operands]
  | binary op l r => cases h; simp [prefixForm, operands]
  | call f es => cases h; simp [prefixForm, toList_prefixArgs]

theorem isWordChar_head (h : Built Finite e) (hf : e.form? = some (head, es)) :
    ∀ c ∈ head.toList, isWordChar c := by
  cases h with
  | literal h => cases hf
  | var x => cases hf
  | negate h => cases hf; exact List.all_eq_true.1 rfl
  | binary op hl hr => cases hf; cases op <;> exact List.all_eq_true.1 rfl
  | call f h => cases hf; exact Value.isWordChar_of_isName f.isName

theorem Built.operands (h : Built Finite e) (hf : e.form? = some (head, es)) :
    ∀ x ∈ es, Built Finite x := by
  cases h with
  | literal h => cases hf
  | var x => cases hf
  | negate h => cases hf; exact List.forall_mem_singleton.2 h
  | binary op hl hr =>
    cases hf
    exact List.forall_mem_cons.2 ⟨hl, List.forall_mem_singleton.2 hr⟩
  | call f h => cases hf; exact h

theorem name_ne_symbol (f : Phrase.Name) (op : BinaryOp) : f.token ≠ op.symbol := by
  intro h
  have hname := f.isName
  rw [h] at hname
  cases op <;> exact absurd hname (by decide)

theorem symbol_inj {op op' : BinaryOp} (h : op.symbol = op'.symbol) : op = op' := by
  revert h
  cases op <;> cases op' <;> decide

/-- Two nodes with the same head and operands that agree are of one kind: a negation has one
operand and a subtraction two. -/
theorem agrees_of_form {p q : String × List Expr} (h : Built Finite e) (h' : Built Finite e')
    (hf : e.form? = some p) (hf' : e'.form? = some q) (hhead : p.1 = q.1)
    (hes : agreesAll p.2 q.2) : e.agrees e' := by
  cases h with
  | literal h => cases hf
  | var x => cases hf
  | negate h =>
    cases hf
    cases h' with
    | literal h' => cases hf'
    | var x => cases hf'
    | negate h' => cases hf'; simpa [agrees, agreesAll] using hes
    | binary op' hl' hr' => cases hf'; simp [agreesAll] at hes
    | call g h' => cases hf'; exact absurd hhead.symm (name_ne_symbol g .sub)
  | binary op hl hr =>
    cases hf
    cases h' with
    | literal h' => cases hf'
    | var x => cases hf'
    | negate h' => cases hf'; simp [agreesAll] at hes
    | binary op' hl' hr' => cases hf'; simpa [agrees, agreesAll, symbol_inj hhead] using hes
    | call g h' => cases hf'; exact absurd hhead.symm (name_ne_symbol g op)
  | call f h =>
    cases hf
    cases h' with
    | literal h' => cases hf'
    | var x => cases hf'
    | negate h' => cases hf'; exact absurd hhead (name_ne_symbol f .sub)
    | binary op' hl' hr' => cases hf'; exact absurd hhead (name_ne_symbol f op')
    | call g h' => cases hf'; simp [agrees, show f.token = g.token from hhead, hes]

theorem isWordChar_atom (h : Built Finite e) (hf : e.form? = none) :
    ∀ c ∈ e.prefixForm.toList, isWordChar c := by
  cases h with
  | literal h => exact Value.isWordChar_toText h.re h.im
  | var x => exact Value.isWordChar_of_isName x.isName
  | _ => cases hf

theorem atom_ne_nil (h : Built Finite e) (hf : e.form? = none) : e.prefixForm.toList ≠ [] := by
  cases h with
  | literal h => exact Value.toText_ne_nil h.re h.im
  | var x =>
    intro hnil
    have hname := x.isName
    rw [show x.token.toList = [] from hnil] at hname
    cases hname
  | _ => cases hf

/-- No literal is written like a name that may stand in an expression. -/
theorem toText_ne_name {z : Value} (h : Finite z) (x : Phrase.Name) : z.toText ≠ x.token := by
  intro heq
  refine Value.not_isName_toText h.re h.im ?_ ?_
  · rw [heq]
    exact x.ne_unit
  · rw [heq]
    exact x.isName

theorem agrees_of_atom (h : Built Finite e) (h' : Built Finite e') (hf : e.form? = none)
    (hf' : e'.form? = none) (heq : e.prefixForm = e'.prefixForm) : e.agrees e' := by
  cases h with
  | literal h =>
    cases h' with
    | literal h' =>
      rw [agrees, Bool.and_eq_true]
      exact (Value.toText_eq_iff h.re h.im h'.re h'.im).1 heq
    | var x => exact absurd heq (toText_ne_name h x)
    | _ => cases hf'
  | var x =>
    cases h' with
    | literal h' => exact absurd heq.symm (toText_ne_name h' x)
    | var y =>
      rw [agrees, beq_iff_eq]
      exact heq
    | _ => cases hf'
  | _ => cases hf

/-! ## Unique readability -/

/-- In front of anything that ends a word, only what agrees with `e` has the text of `e`. -/
def Readable (e : Expr) : Prop :=
  ∀ e' rest rest', Built Finite e' → Stops isWordChar rest → Stops isWordChar rest' →
    e.prefixForm.toList ++ rest = e'.prefixForm.toList ++ rest' → e.agrees e' ∧ rest = rest'

/-- A node without parentheses does not open with one. -/
theorem atom_append_ne (h : Built Finite e) (hf : e.form? = none) (rest cs : List Char) :
    e.prefixForm.toList ++ rest ≠ '(' :: cs := by
  have hword := isWordChar_atom h hf
  obtain ⟨c, text, htext⟩ := List.exists_cons_of_ne_nil (atom_ne_nil h hf)
  rw [htext] at hword ⊢
  intro heq
  cases heq
  exact absurd (hword '(' List.mem_cons_self) (by decide)

theorem readable_atom (h : Built Finite e) (hf : e.form? = none) : Readable e := by
  intro e' rest rest' h' hrest hrest' heq
  cases hf' : e'.form? with
  | none =>
    obtain ⟨htext, hrests⟩ := run_append_inj (isWordChar_atom h hf) (isWordChar_atom h' hf')
      hrest hrest' heq
    exact ⟨agrees_of_atom h h' hf hf' (String.toList_inj.1 htext), hrests⟩
  | some form =>
    obtain ⟨head, es⟩ := form
    rw [toList_prefixForm hf', List.cons_append] at heq
    exact absurd heq (atom_append_ne h hf rest _)

theorem stops_operands (es : List Expr) (rest : List Char) :
    Stops isWordChar (operands es ++ ')' :: rest) := by
  cases es with
  | nil => exact stops_cons.2 (by decide)
  | cons e es => exact stops_cons.2 (by decide)

/-- Operands up to a closing parenthesis are read one after the other. -/
theorem agreesAll_of_operands (hes : ∀ x ∈ es, Readable x) (hes' : ∀ x ∈ es', Built Finite x)
    (heq : operands es ++ ')' :: rest = operands es' ++ ')' :: rest') :
    agreesAll es es' ∧ rest = rest' := by
  induction es generalizing es' with
  | nil =>
    cases es' with
    | nil => exact ⟨rfl, (List.cons.inj heq).2⟩
    | cons e' es' => exact absurd (List.cons.inj heq).1 (by decide)
  | cons e es ih =>
    cases es' with
    | nil => exact absurd (List.cons.inj heq).1 (by decide)
    | cons e' es' =>
      obtain ⟨he, hes⟩ := List.forall_mem_cons.1 hes
      obtain ⟨he', hes'⟩ := List.forall_mem_cons.1 hes'
      have htail : e.prefixForm.toList ++ (operands es ++ ')' :: rest) =
          e'.prefixForm.toList ++ (operands es' ++ ')' :: rest') := by
        simpa [operands] using heq
      obtain ⟨hagree, htail⟩ :=
        he e' _ _ he' (stops_operands es rest) (stops_operands es' rest') htail
      obtain ⟨hagrees, hrest⟩ := ih hes hes' htail
      exact ⟨by rw [agreesAll, hagree, hagrees, Bool.and_self], hrest⟩

theorem readable_form (h : Built Finite e) (hf : e.form? = some (head, es))
    (hes : ∀ x ∈ es, Readable x) : Readable e := by
  intro e' rest rest' h' hrest hrest' heq
  cases hf' : e'.form? with
  | none =>
    rw [toList_prefixForm hf, List.cons_append] at heq
    exact absurd heq.symm (atom_append_ne h' hf' rest' _)
  | some form =>
    obtain ⟨head', es'⟩ := form
    rw [toList_prefixForm hf, toList_prefixForm hf'] at heq
    simp only [List.cons_append, List.append_assoc, List.nil_append] at heq
    obtain ⟨hhead, hoperands⟩ := run_append_inj (isWordChar_head h hf) (isWordChar_head h' hf')
      (stops_operands es rest) (stops_operands es' rest') (List.cons.inj heq).2
    obtain rfl := String.toList_inj.1 hhead
    obtain ⟨hagrees, hrests⟩ := agreesAll_of_operands hes (h'.operands hf') hoperands
    exact ⟨agrees_of_form h h' hf hf' rfl hagrees, hrests⟩

theorem Built.readable (h : Built Finite e) : Readable e := by
  induction h with
  | literal h => exact readable_atom (.literal h) rfl
  | var x => exact readable_atom (.var x) rfl
  | negate h ih => exact readable_form (.negate h) rfl (List.forall_mem_singleton.2 ih)
  | binary op hl hr ihl ihr =>
    exact readable_form (.binary op hl hr) rfl
      (List.forall_mem_cons.2 ⟨ihl, List.forall_mem_singleton.2 ihr⟩)
  | call f h ih => exact readable_form (.call f h) rfl ih

/-! ## Agreement gives the prefix form -/

theorem prefixArgs_eq_of_agreesAll
    (h : ∀ x ∈ es, ∀ x', Built Finite x' → x.agrees x' → x.prefixForm = x'.prefixForm)
    (hes' : ∀ x ∈ es', Built Finite x) (hagrees : agreesAll es es') :
    prefixArgs es = prefixArgs es' := by
  induction es generalizing es' with
  | nil =>
    cases es' with
    | nil => rfl
    | cons e' es' => cases hagrees
  | cons e es ih =>
    cases es' with
    | nil => cases hagrees
    | cons e' es' =>
      obtain ⟨he, hes⟩ := List.forall_mem_cons.1 h
      obtain ⟨he', hes'⟩ := List.forall_mem_cons.1 hes'
      rw [agreesAll, Bool.and_eq_true] at hagrees
      rw [prefixArgs, prefixArgs, he e' he' hagrees.1, ih hes hes' hagrees.2]

/-- Expressions that agree have the same prefix form. -/
theorem Built.prefixForm_eq (h : Built Finite e) :
    ∀ e', Built Finite e' → e.agrees e' → e.prefixForm = e'.prefixForm := by
  induction h with
  | literal h =>
    intro e' h' hagree
    cases h' with
    | literal h' =>
      rw [agrees, Bool.and_eq_true] at hagree
      exact (Value.toText_eq_iff h.re h.im h'.re h'.im).2 hagree
    | _ => cases hagree
  | var x =>
    intro e' h' hagree
    cases h' with
    | var y =>
      rw [agrees, beq_iff_eq] at hagree
      exact hagree
    | _ => cases hagree
  | negate h ih =>
    intro e' h' hagree
    cases h' with
    | negate h' =>
      rw [agrees] at hagree
      rw [prefixForm, prefixForm, ih _ h' hagree]
    | _ => cases hagree
  | binary op hl hr ihl ihr =>
    intro e' h' hagree
    cases h' with
    | binary op' hl' hr' =>
      rw [agrees, Bool.and_eq_true, Bool.and_eq_true, beq_iff_eq] at hagree
      obtain ⟨⟨rfl, hleft⟩, hright⟩ := hagree
      rw [prefixForm, prefixForm, ihl _ hl' hleft, ihr _ hr' hright]
    | _ => cases hagree
  | call f h ih =>
    intro e' h' hagree
    cases h' with
    | call g h' =>
      rw [agrees, Bool.and_eq_true, beq_iff_eq] at hagree
      rw [prefixForm, prefixForm, hagree.1, prefixArgs_eq_of_agreesAll ih h' hagree.2]
    | _ => cases hagree

end

/-! ## Rendered texts -/

variable {room : ℕ} {traced : Bool} {text text' s s' : String} {e e' : Expr}

theorem built_of_ofText (h : ofTextWithin room traced text = .ok e) : Built Written e := by
  obtain ⟨ts, -, h⟩ := ok_of_bind h
  exact built_of_parse h

/-- Two texts are rendered alike iff their expressions are the same tree, with numerically equal
literals, once each number that is too large for a double has become the name it is written as. The
limit of the program is `frameLimit`. -/
theorem render_eq_iff (he : ofTextWithin room traced text = .ok e)
    (he' : ofTextWithin room traced text' = .ok e') (hs : e.renderWithin room = .ok s)
    (hs' : e'.renderWithin room = .ok s') : s = s' ↔ e.named.agrees e'.named := by
  obtain ⟨hbuilt, hform⟩ := (built_of_ofText he).named
  obtain ⟨hbuilt', hform'⟩ := (built_of_ofText he').named
  rw [← (renderWithin_eq_ok_iff.1 hs).2, ← (renderWithin_eq_ok_iff.1 hs').2, ← hform, ← hform']
  refine ⟨fun h => ?_, hbuilt.prefixForm_eq _ hbuilt'⟩
  exact (hbuilt.readable _ [] [] hbuilt' stops_nil stops_nil (by rw [h])).1

/-- A number raised to `-x`. -/
def raised (n : Phrase.Number) (mark : Phrase.Raising) : Phrase.Sum :=
  .term (.power (.raise (.number n) mark (.primary (.signed .minus (.name .x)))))

theorem parse_raised (n : Phrase.Number) (mark : Phrase.Raising) :
    parse [n.token, mark.token, "-", "x"] = .ok (raised n mark).tree :=
  ((raised n mark).parse_tokens frameLimit false).trans (if_pos (show 6 ≤ 985 by decide))

/-- The number `2.0`. -/
def decimalTwo : Phrase.Number where
  numeral := ⟨none, ['2'], some ['0'], none⟩
  wellFormed := ((@Numeral.read?_eq_some_iff "2.0".toList _).1 (by decide)).1
  plain := by decide

/-- The literals `2` and `2.0` are numerically equal, and both marks of a power make one tree. -/
theorem render_raised :
    ofText "2 ** -x" = .ok (raised Phrase.two .stars).tree ∧
      ofText "2.0^-x" = .ok (raised decimalTwo .caret).tree ∧
      (raised Phrase.two .stars).tree.render = .ok "(** 2 (- x))" ∧
      (raised decimalTwo .caret).tree.render = .ok "(** 2 (- x))" ∧
      (raised Phrase.two .stars).tree.named.agrees (raised decimalTwo .caret).tree.named := by
  have ht : Token.tokenize "2 ** -x" = .ok ["2", "**", "-", "x"] := by decide +kernel
  have ht' : Token.tokenize "2.0^-x" = .ok ["2.0", "^", "-", "x"] := by decide +kernel
  have he : ofText "2 ** -x" = .ok (raised Phrase.two .stars).tree := by
    rw [ofText, ofTextWithin, ht]
    exact parse_raised Phrase.two .stars
  have he' : ofText "2.0^-x" = .ok (raised decimalTwo .caret).tree := by
    rw [ofText, ofTextWithin, ht']
    exact parse_raised decimalTwo .caret
  have hs : (raised Phrase.two .stars).tree.render = .ok "(** 2 (- x))" := by decide +kernel
  have hs' : (raised decimalTwo .caret).tree.render = .ok "(** 2 (- x))" := by decide +kernel
  exact ⟨he, he', hs, hs', (render_eq_iff he he' hs hs').1 rfl⟩

end Expr

end ComplexExpr
