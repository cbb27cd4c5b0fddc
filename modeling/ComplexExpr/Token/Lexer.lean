import ComplexExpr.Failure
import ComplexExpr.Token.Basic

/-!
# Tokens of a text

`lexeme?` takes the longest token off the front of a text: a name, a number, a
power sign or one of the other signs. `scan` does so until nothing but blanks
is left, or stops where no token starts; `tokenize` is `scan` on strings.
-/

namespace ComplexExpr.Token

/-- The longest number at the front of a text that opens with a digit: a point belongs to it only
if a digit follows. -/
def spanNumber (cs : List Char) : List Char × List Char :=
  let whole := cs.takeWhile Char.isDigit
  match cs.dropWhile Char.isDigit with
  | '.' :: rest =>
    match rest.takeWhile Char.isDigit with
    | [] => (whole, '.' :: rest)
    | fraction => (whole ++ '.' :: fraction, rest.dropWhile Char.isDigit)
  | rest => (whole, rest)

/-- The characters that are tokens by themselves. -/
def isMark (c : Char) : Bool :=
  c == '(' || c == ')' || c == '+' || c == '-' || c == '*' || c == '/' || c == '^' || c == ','

/-- The longest token at the front of a text, and the text after it. -/
def lexeme? : List Char → Option (List Char × List Char)
  | [] => none
  | '*' :: '*' :: rest => some (['*', '*'], rest)
  | '.' :: rest =>
    match rest.takeWhile Char.isDigit with
    | [] => none
    | fraction => some ('.' :: fraction, rest.dropWhile Char.isDigit)
  | c :: rest =>
    if Text.isNameStart c then
      some (c :: rest.takeWhile Text.isNameChar, rest.dropWhile Text.isNameChar)
    else if c.isDigit then some (spanNumber (c :: rest))
    else if isMark c then some ([c], rest)
    else none

theorem length_dropWhile_le (p : Char → Bool) (cs : List Char) :
    (cs.dropWhile p).length ≤ cs.length :=
  (List.dropWhile_suffix p).length_le

theorem spanNumber_append (cs : List Char) : (spanNumber cs).1 ++ (spanNumber cs).2 = cs := by
  have h := List.takeWhile_append_dropWhile (p := Char.isDigit) (l := cs)
  unfold spanNumber
  dsimp only
  split
  next rest hd =>
    rw [hd] at h
    have hr := List.takeWhile_append_dropWhile (p := Char.isDigit) (l := rest)
    split
    · exact h
    next hf =>
      rw [List.append_assoc, List.cons_append, hr, h]
  next hd => exact h

/-- A token and the text after it make up the text. -/
theorem lexeme?_append {cs t rest : List Char} (h : lexeme? cs = some (t, rest)) :
    t ++ rest = cs := by
  unfold lexeme? at h
  split at h
  · cases h
  · cases h; rfl
  next r =>
    have hr := List.takeWhile_append_dropWhile (p := Char.isDigit) (l := r)
    split at h
    · cases h
    next hf => cases h; rw [List.cons_append, hr]
  next c r hc hd =>
    split at h
    · cases h
      rw [List.cons_append, List.takeWhile_append_dropWhile]
    · split at h
      · have happ := spanNumber_append (c :: r)
        rw [Option.some.inj h] at happ
        exact happ
      · split at h
        · cases h; rfl
        · cases h

theorem spanNumber_ne_nil {c : Char} (hc : c.isDigit) (cs : List Char) :
    (spanNumber (c :: cs)).1 ≠ [] := by
  unfold spanNumber
  dsimp only
  split
  · split <;> simp [hc]
  · simp [hc]

theorem lexeme?_ne_nil {cs t rest : List Char} (h : lexeme? cs = some (t, rest)) : t ≠ [] := by
  unfold lexeme? at h
  split at h
  · cases h
  · cases h; simp
  · split at h
    · cases h
    · cases h; simp
  next c r hc hd =>
    split at h
    · cases h; simp
    · split at h
      next hdig =>
        have hne := spanNumber_ne_nil hdig r
        rw [Option.some.inj h] at hne
        exact hne
      · split at h
        · cases h; simp
        · cases h

theorem length_lt_of_lexeme? {cs t rest : List Char} (h : lexeme? cs = some (t, rest)) :
    rest.length < cs.length := by
  have := congrArg List.length (lexeme?_append h)
  have := List.length_pos_iff.2 (lexeme?_ne_nil h)
  rw [List.length_append] at *
  omega

/-- The tokens of a text, or the text from where no token starts. -/
def scan (cs : List Char) : Except (List Char) (List (List Char)) :=
  match hd : cs.dropWhile Text.isBlank with
  | [] => .ok []
  | c :: rest =>
    match hl : lexeme? (c :: rest) with
    | none => .error (c :: rest)
    | some (t, rest') =>
      have : rest'.length < cs.length :=
        Nat.lt_of_lt_of_le (length_lt_of_lexeme? hl) (hd ▸ length_dropWhile_le Text.isBlank cs)
      match scan rest' with
      | .ok ts => .ok (t :: ts)
      | .error e => .error e
termination_by cs.length

/-- The tokens of a text. -/
def tokenize (text : String) : Except Cause (List Token) :=
  match scan text.toList with
  | .ok ts => .ok (ts.map String.ofList)
  | .error rest => .error (.invalidToken (String.ofList (rest.take 20)))

end ComplexExpr.Token
