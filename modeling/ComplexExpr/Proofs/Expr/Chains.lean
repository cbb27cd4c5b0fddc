import ComplexExpr.Proofs.Expr.Derivation

/-!
# Chains of operands

Operands joined from the left make a tree as deep as the chain is long, but reading
them takes no more frames than reading the costliest of them (`Sum.frames_join`,
`Term.frames_join`). So a chain is read however long it is (`parse_linked_add`,
`parse_linked_scale`). It is only where expressions are traced that the length
tells: the tree is written out, and that takes a frame for each link
(`length_add_le_frames_nested`). Main statements:

* `parse_chain`: what is parsed can be continued with any number of operands that
  are parsed, the tree is nested to the left, and nothing goes wrong with it but
  that it is too deep to be traced;
* `parse_traced_chain`: a chain that fails for that, although its operands do not.
-/

namespace ComplexExpr.Phrase

open ComplexExpr.Expr (parseWithin parseWithin_eq_bind traceWithin_eq traceWithin_eq_ok_iff)

variable {O : Type} {p q ts : List Token} {e f : Expr} {room : ℕ} {traced : Bool}

/-! ## Frames -/

/-- A sum takes no more frames than its costliest operand. -/
theorem Sum.frames_join (s : Sum) (sign : Sign) (t : Term) :
    (Sum.join s sign t).frames = max s.frames (Sum.term t).frames := by
  rw [Sum.frames, Sum.frames]

/-- A term takes no more frames than its costliest operand. -/
theorem Term.frames_join (t : Term) (mark : Scaling) (p : Power) :
    (Sum.term (.join t mark p)).frames =
      max (Sum.term t).frames (Sum.term (.power p)).frames := by
  rw [Sum.frames, Sum.frames, Sum.frames, Term.frames, Term.frames, Nat.add_max_add_right]

/-- When nothing is traced, a sum is parsed iff its frames suffice. -/
theorem Sum.parse_eq_ok_iff (s : Sum) :
    parseWithin room false s.tokens = .ok e ↔ s.tree = e ∧ s.frames ≤ room := by
  rw [s.parse_tokens]
  split
  next h =>
    rw [traceWithin_eq_ok_iff, and_iff_left Bool.false_ne_true.elim, and_iff_left h]
  next h => exact iff_of_false nofun fun hs => h hs.2

/-! ## Tracing -/

/-- What is parsed when it is traced is also parsed when it is not. -/
theorem parse_untraced (h : parseWithin room traced ts = .ok e) :
    parseWithin room false ts = .ok e := by
  rw [parseWithin_eq_bind] at h
  obtain ⟨e', hparse, htrace⟩ := ok_of_bind h
  rwa [(traceWithin_eq_ok_iff.1 htrace).1] at hparse

/-- What is parsed when it is not traced fails when it is traced iff it is too deep for that. -/
theorem parse_traced (h : parseWithin room false ts = .ok e) (traced : Bool) :
    parseWithin room traced ts =
      if traced ∧ room < e.frames then .error (.tooDeep .render) else .ok e := by
  rw [parseWithin_eq_bind, h]
  exact traceWithin_eq e

/-! ## One operand more -/

/-- The tokens are parsed, and they are a term. -/
def ParsedTerm (room : ℕ) (traced : Bool) (ts : List Token) (e : Expr) : Prop :=
  parseWithin room traced ts = .ok e ∧ ∃ t : Term, t.tokens = ts

/-- The tokens are parsed, and they are a power. -/
def ParsedPower (room : ℕ) (traced : Bool) (ts : List Token) (e : Expr) : Prop :=
  parseWithin room traced ts = .ok e ∧ ∃ p : Power, p.tokens = ts

theorem ParsedTerm.untraced (h : ParsedTerm room traced ts e) : ParsedTerm room false ts e :=
  h.imp_left parse_untraced

theorem ParsedPower.untraced (h : ParsedPower room traced ts e) : ParsedPower room false ts e :=
  h.imp_left parse_untraced

theorem parse_add (sign : Sign) (hp : parseWithin room false p = .ok e)
    (hq : ParsedTerm room false q f) :
    parseWithin room false (p ++ signToken sign :: q) = .ok (.binary (signOp sign) e f) := by
  obtain ⟨s, rfl, -⟩ := exists_sum_of_parse hp
  obtain ⟨rfl, hs⟩ := s.parse_eq_ok_iff.1 hp
  obtain ⟨hq, t, rfl⟩ := hq
  obtain ⟨rfl, ht⟩ := (Sum.term t).parse_eq_ok_iff.1 hq
  have hframes : (Sum.join s sign t).frames ≤ room := by
    rw [Sum.frames_join]
    exact Nat.max_le.2 ⟨hs, ht⟩
  have hjoin := (Sum.join s sign t).parse_eq_ok_iff.2 ⟨rfl, hframes⟩
  rwa [Sum.tokens, Sum.tree] at hjoin

theorem parse_scale (mark : Scaling) (hp : ParsedTerm room false p e)
    (hq : ParsedPower room false q f) :
    ParsedTerm room false (p ++ mark.token :: q) (.binary mark.op e f) := by
  obtain ⟨hp, t, rfl⟩ := hp
  obtain ⟨rfl, ht⟩ := (Sum.term t).parse_eq_ok_iff.1 hp
  obtain ⟨hq, r, rfl⟩ := hq
  obtain ⟨rfl, hr⟩ := (Sum.term (.power r)).parse_eq_ok_iff.1 hq
  have hframes : (Sum.term (.join t mark r)).frames ≤ room := by
    rw [Term.frames_join]
    exact Nat.max_le.2 ⟨ht, hr⟩
  have hjoin := (Sum.term (.join t mark r)).parse_eq_ok_iff.2 ⟨rfl, hframes⟩
  rw [Sum.tokens, Term.tokens, Sum.tree, Term.tree] at hjoin
  exact ⟨hjoin, .join t mark r, by rw [Term.tokens]⟩

/-! ## Any number of operands -/

/-- What continues a chain: a mark, and the tokens of an operand with their expression. -/
structure Link (O : Type) where
  mark : O
  tokens : List Token
  tree : Expr

/-- The tokens of a chain. -/
def linked (mark : O → Token) (ts : List Token) (xs : List (Link O)) : List Token :=
  ts ++ xs.flatMap fun x => mark x.mark :: x.tokens

/-- The expression of a chain, nested to the left. -/
def nested (op : O → BinaryOp) (e : Expr) (xs : List (Link O)) : Expr :=
  xs.foldl (fun left x => .binary (op x.mark) left x.tree) e

/-- What one operand more keeps, a chain of operands keeps. -/
theorem linked_induction {mark : O → Token} {op : O → BinaryOp}
    (Chain : List Token → Expr → Prop) {Operand : List Token → Expr → Prop}
    (step : ∀ {p q e f} o, Chain p e → Operand q f → Chain (p ++ mark o :: q) (.binary (op o) e f))
    {xs : List (Link O)} (hp : Chain p e) (hxs : ∀ x ∈ xs, Operand x.tokens x.tree) :
    Chain (linked mark p xs) (nested op e xs) := by
  induction xs generalizing p e with
  | nil =>
    rw [linked, List.flatMap_nil, List.append_nil]
    exact hp
  | cons x xs ih =>
    obtain ⟨hx, hxs⟩ := List.forall_mem_cons.1 hxs
    have hrest := ih (step x.mark hp hx) hxs
    rw [linked, List.append_assoc] at hrest
    rw [linked, List.flatMap_cons]
    exact hrest

theorem parse_linked_add {xs : List (Link Sign)} (hp : parseWithin room false p = .ok e)
    (hxs : ∀ x ∈ xs, ParsedTerm room false x.tokens x.tree) :
    parseWithin room false (linked signToken p xs) = .ok (nested signOp e xs) :=
  linked_induction (fun ts e => parseWithin room false ts = .ok e) parse_add hp hxs

theorem parse_linked_scale {xs : List (Link Scaling)} (hp : ParsedTerm room false p e)
    (hxs : ∀ x ∈ xs, ParsedPower room false x.tokens x.tree) :
    ParsedTerm room false (linked Scaling.token p xs) (nested Scaling.op e xs) :=
  linked_induction (ParsedTerm room false) parse_scale hp hxs

/-- The tree of a chain takes a frame for each link, besides those of the first operand. -/
theorem length_add_le_frames_nested (op : O → BinaryOp) (e : Expr) (xs : List (Link O)) :
    xs.length + e.frames ≤ (nested op e xs).frames := by
  induction xs generalizing e with
  | nil => exact (Nat.zero_add _).le
  | cons x xs ih =>
    have hrest := ih (.binary (op x.mark) e x.tree)
    rw [Expr.frames] at hrest
    show _ ≤ (nested op (.binary (op x.mark) e x.tree) xs).frames
    rw [List.length_cons]
    omega

theorem lt_frames_nested {xs : List (Link O)} (h : room < xs.length) (op : O → BinaryOp) (e : Expr) :
    room < (nested op e xs).frames :=
  Nat.lt_of_lt_of_le h (Nat.le_of_add_right_le (length_add_le_frames_nested op e xs))

/-- Whatever is parsed can be continued by a sign and a term that is parsed alone, and a term that
is parsed by `*` or `/` and a power that is parsed alone: the result is the operation on the two
expressions. A chain of any length, of operands that are each parsed alone, is parsed as the tree
that is nested to the left. None of this fails, but for a tree that is traced and takes more frames
than there are. The limit of the program is `Expr.frameLimit`. -/
theorem parse_chain (room : ℕ) (traced : Bool) :
    (∀ p q e f (sign : Sign), parseWithin room traced p = .ok e → ParsedTerm room traced q f →
      parseWithin room traced (p ++ signToken sign :: q) =
        if traced ∧ room < (Expr.binary (signOp sign) e f).frames then .error (.tooDeep .render)
        else .ok (.binary (signOp sign) e f)) ∧
    (∀ p q e f (mark : Scaling), ParsedTerm room traced p e → ParsedPower room traced q f →
      parseWithin room traced (p ++ mark.token :: q) =
        if traced ∧ room < (Expr.binary mark.op e f).frames then .error (.tooDeep .render)
        else .ok (.binary mark.op e f)) ∧
    (∀ p e (xs : List (Link Sign)), parseWithin room traced p = .ok e →
      (∀ x ∈ xs, ParsedTerm room traced x.tokens x.tree) →
      parseWithin room traced (linked signToken p xs) =
        if traced ∧ room < (nested signOp e xs).frames then .error (.tooDeep .render)
        else .ok (nested signOp e xs)) ∧
    ∀ p e (xs : List (Link Scaling)), ParsedTerm room traced p e →
      (∀ x ∈ xs, ParsedPower room traced x.tokens x.tree) →
      (∃ t : Term, t.tokens = linked Scaling.token p xs) ∧
      parseWithin room traced (linked Scaling.token p xs) =
        if traced ∧ room < (nested Scaling.op e xs).frames then .error (.tooDeep .render)
        else .ok (nested Scaling.op e xs) := by
  refine ⟨fun p q e f sign hp hq => ?_, fun p q e f mark hp hq => ?_, fun p e xs hp hxs => ?_,
    fun p e xs hp hxs => ?_⟩
  · exact parse_traced (parse_add sign (parse_untraced hp) hq.untraced) traced
  · exact parse_traced (parse_scale mark hp.untraced hq.untraced).1 traced
  · exact parse_traced (parse_linked_add (parse_untraced hp) fun x hx => (hxs x hx).untraced) traced
  · obtain ⟨hparse, hterm⟩ := parse_linked_scale hp.untraced fun x hx => (hxs x hx).untraced
    exact ⟨hterm, parse_traced hparse traced⟩

/-! ## Chains that are longer than there are frames -/

/-- A number alone is parsed, in either mode. -/
theorem parse_number (n : Number) (h : 4 ≤ room) (traced : Bool) :
    parseWithin room traced [n.token] = .ok (.literal ⟨n.numeral.toFloat, 0.0⟩) := by
  have hparse : parseWithin room false [n.token] = .ok (.literal ⟨n.numeral.toFloat, 0.0⟩) :=
    (Sum.term (.power (.primary (.number n)))).parse_eq_ok_iff.2 ⟨rfl, h⟩
  rw [parse_traced hparse traced, if_neg]
  rintro ⟨-, hdeep⟩
  rw [Expr.frames] at hdeep
  omega

theorem parsedTerm_number (n : Number) (h : 4 ≤ room) (traced : Bool) :
    ParsedTerm room traced [n.token] (.literal ⟨n.numeral.toFloat, 0.0⟩) :=
  ⟨parse_number n h traced, .power (.primary (.number n)), rfl⟩

theorem parsedPower_number (n : Number) (h : 4 ≤ room) (traced : Bool) :
    ParsedPower room traced [n.token] (.literal ⟨n.numeral.toFloat, 0.0⟩) :=
  ⟨parse_number n h traced, .primary (.number n), rfl⟩

/-- From a number, another is subtracted three thousand times: more often than there are frames. The
chain is parsed, unless it is traced. -/
theorem parse_long_chain :
    Expr.parse ("2" :: (List.replicate 3000 ["-", "2"]).flatten) =
        .ok (nested signOp (.literal ⟨two.numeral.toFloat, 0.0⟩)
          (List.replicate 3000 ⟨.minus, ["2"], .literal ⟨two.numeral.toFloat, 0.0⟩⟩)) ∧
      parseWithin Expr.frameLimit true ("2" :: (List.replicate 3000 ["-", "2"]).flatten) =
        .error (.tooDeep .render) := by
  have hlimit : 4 ≤ Expr.frameLimit := by decide
  have h (traced : Bool) := (parse_chain Expr.frameLimit traced).2.2.1 ["2"] _
    (List.replicate 3000 ⟨.minus, ["2"], _⟩) (parse_number two hlimit traced)
    fun y hy => List.eq_of_mem_replicate hy ▸ parsedTerm_number two hlimit traced
  simp only [linked, List.flatMap_replicate] at h
  refine ⟨(h false).trans (if_neg nofun), (h true).trans (if_pos ⟨rfl, lt_frames_nested ?_ _ _⟩)⟩
  rw [List.length_replicate]
  decide

/-- The number `0`. -/
def zero : Number where
  numeral := ⟨none, ['0'], none, none⟩
  wellFormed := ⟨by decide, List.forall_mem_singleton.2 (by decide), by simp, by simp⟩
  plain := by decide

/-- In `2 / 2 / … / 2 / 0`, with 2100 divisions, each operand is parsed when it is traced, and the
chain is not, though it is parsed when it is not traced. -/
theorem parse_traced_chain :
    (∃ e, ParsedTerm Expr.frameLimit true ["2"] e) ∧
      (∃ e, ParsedPower Expr.frameLimit true ["2"] e) ∧
      (∃ e, ParsedPower Expr.frameLimit true ["0"] e) ∧
      (∃ e, Expr.parse (["2"] ++ (List.replicate 2099 ["/", "2"]).flatten ++ ["/", "0"]) = .ok e) ∧
      parseWithin Expr.frameLimit true
          (["2"] ++ (List.replicate 2099 ["/", "2"]).flatten ++ ["/", "0"]) =
        .error (.tooDeep .render) := by
  have hlimit : 4 ≤ Expr.frameLimit := by decide
  have htwo := parsedPower_number two hlimit
  have hzero := parsedPower_number zero hlimit
  refine ⟨⟨_, parsedTerm_number two hlimit true⟩, ⟨_, htwo true⟩, ⟨_, hzero true⟩, ?_⟩
  have htwos : ParsedTerm Expr.frameLimit false
      (linked Scaling.token ["2"] (List.replicate 2099 ⟨.over, ["2"], _⟩)) _ :=
    parse_linked_scale (parsedTerm_number two hlimit false)
      fun y hy => List.eq_of_mem_replicate hy ▸ htwo false
  rw [linked, List.flatMap_replicate] at htwos
  obtain ⟨hparse, -⟩ := parse_scale .over htwos (hzero false)
  have hdeep : Expr.frameLimit < (nested Scaling.op (.literal ⟨two.numeral.toFloat, 0.0⟩)
      (List.replicate 2099 ⟨.over, ["2"], .literal ⟨two.numeral.toFloat, 0.0⟩⟩)).frames := by
    refine lt_frames_nested ?_ _ _
    rw [List.length_replicate]
    decide
  refine ⟨⟨_, hparse⟩, (parse_traced hparse true).trans (if_pos ⟨rfl, ?_⟩)⟩
  rw [Expr.frames]
  omega

end ComplexExpr.Phrase
