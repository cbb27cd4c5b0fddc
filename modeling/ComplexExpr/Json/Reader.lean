import ComplexExpr.Decimal.Numeral
import ComplexExpr.Json.Basic
import ComplexExpr.Parsed
import ComplexExpr.Table

/-!
# Reading settings files

The value that a text denotes (`Json.read`). Beside the standard notation the
words `NaN`, `Infinity` and `-Infinity` are doubles. Of a key that comes twice
the first place and the last value count. Containers may be nested up to a
limit, and whole numbers may have up to 4300 digits.
-/

namespace ComplexExpr.Json

/-- Why a text denotes no value. -/
inductive Fault
  | malformed
  | longNumber
  | tooDeep
deriving DecidableEq, Repr

/-- Takes something off the front of a text. -/
abbrev Reader (α : Type) := (cs : List Char) → Except Fault (Parsed Char α cs.length)

/-- A blank between two pieces of notation. -/
def isGap (c : Char) : Bool := c == ' ' || c == '\t' || c == '\n' || c == '\r'

def skip (cs : List Char) : List Char := cs.dropWhile isGap

theorem length_skip_le (cs : List Char) : (skip cs).length ≤ cs.length :=
  (List.dropWhile_suffix isGap).length_le

/-- The value of a hexadecimal digit. -/
def hexValue? (c : Char) : Option Nat :=
  if c.isDigit then some (c.toNat - 0x30)
  else if 'a' ≤ c ∧ c ≤ 'f' then some (c.toNat - 0x57)
  else if 'A' ≤ c ∧ c ≤ 'F' then some (c.toNat - 0x37)
  else none

/-- The number of four hexadecimal digits. -/
def hex4? (a b c d : Char) : Option Nat := do
  return ((← hexValue? a) * 16 + (← hexValue? b)) * 256 + ((← hexValue? c) * 16 + (← hexValue? d))

/-- The character that two surrogates stand for. -/
def charOfPair (high low : Nat) : Char :=
  Char.ofNat (0x10000 + (high - 0xD800) * 0x400 + (low - 0xDC00))

/-- The low surrogate that is written next, with what follows it. -/
def lowSurrogate? : (cs : List Char) → Option (Parsed Char Nat cs.length)
  | '\\' :: 'u' :: a :: b :: c :: d :: rest => do
    let n ← hex4? a b c d
    if 0xDC00 ≤ n ∧ n < 0xE000 then some ⟨n, rest, by simp only [List.length_cons]; omega⟩
    else none
  | _ => none

/-- The code point of four hexadecimal digits, or of two surrogates of four each. -/
def unicodeEscape : Reader CodePoint
  | a :: b :: c :: d :: rest =>
    match hex4? a b c d with
    | none => .error .malformed
    | some n =>
      match (if 0xD800 ≤ n ∧ n < 0xDC00 then lowSurrogate? rest else none) with
      | some low =>
        .ok ((low.map fun k => .char (charOfPair n k)).widen (by
          simp only [List.length_cons]; omega))
      | none => .ok ⟨.ofUnit n, rest, by simp only [List.length_cons]; omega⟩
  | _ => .error .malformed

/-- The character that a letter after a backslash stands for. -/
def escaped? : Char → Option Char
  | '"' => some '"'
  | '\\' => some '\\'
  | '/' => some '/'
  | 'b' => some '\x08'
  | 'f' => some '\x0c'
  | 'n' => some '\n'
  | 'r' => some '\r'
  | 't' => some '\t'
  | _ => none

/-- What stands after a backslash. -/
def escape : Reader CodePoint
  | [] => .error .malformed
  | c :: rest =>
    if c = 'u' then (unicodeEscape rest).map fun p => p.widen (by simp)
    else match escaped? c with
      | some d => .ok ⟨.char d, rest, by simp⟩
      | none => .error .malformed

/-- The code points up to the closing quote. -/
def stringRest : Reader WideText
  | [] => .error .malformed
  | c :: rest =>
    if c = '"' then .ok ⟨[], rest, by simp⟩
    else if c = '\\' then do
      let d ← escape rest
      have := d.rest_lt
      let ds ← stringRest d.rest
      return (d.followedBy (· :: ·) ds).widen (by simp)
    else if c.toNat < 0x20 then .error .malformed
    else do
      let ds ← stringRest rest
      return (ds.map (.char c :: ·)).widen (by simp)
termination_by cs => cs.length

/-- The words that are values. -/
def words : List (List Char × Json) :=
  [("null".toList, .null), ("true".toList, .bool true), ("false".toList, .bool false),
   ("NaN".toList, .real Decimal.nan), ("Infinity".toList, .real Decimal.infinity),
   ("-Infinity".toList, .real (-Decimal.infinity))]

/-- The word at the front, and what follows it. -/
def word? (cs : List Char) : Option (Json × List Char) :=
  words.findSome? fun (w, v) => if w.isPrefixOf cs then some (v, cs.drop w.length) else none

/-- The whole part of a number at the front: no digit follows an opening zero. -/
def scanWhole : List Char → List Char × List Char
  | '0' :: cs => (['0'], cs)
  | cs => (cs.takeWhile Char.isDigit, cs.dropWhile Char.isDigit)

/-- The point with digits after it at the front: without digits there is none. -/
def scanFraction (cs : List Char) : Option (List Char) × List Char :=
  match Numeral.scanFraction cs with
  | (some (d :: ds), rest) => (some (d :: ds), rest)
  | _ => (none, cs)

/-- The longest number at the front, and what follows it; no plus sign opens a number. -/
def number? (cs : List Char) : Option (Numeral × List Char) :=
  let (sign, cs) := Sign.scan cs
  let (whole, cs) := scanWhole cs
  let (fraction, cs) := scanFraction cs
  let (power, cs) := PowerOfTen.scan cs
  if whole = [] ∨ sign = some .plus then none else some (⟨sign, whole, fraction, power⟩, cs)

/-- The most digits that a whole number may have. -/
def digitLimit : Nat := 4300

/-- A number: whole if it is written without point and power of ten. -/
def ofNumeral (n : Numeral) : Except Fault Json :=
  if n.fraction.isNone && n.power.isNone then
    if digitLimit < n.whole.length then .error .longNumber
    else
      let k : Int := Decimal.ofDigits n.whole
      .ok (.int (if n.sign = some .minus then -k else k))
  else .ok (.real n.toFloat)

/-- Takes a word or a number. -/
def scalar : Reader Json := fun cs =>
  match word? cs with
  | some (v, rest) => if h : rest.length < cs.length then .ok ⟨v, rest, h⟩ else .error .malformed
  | none => match number? cs with
    | some (n, rest) =>
      if h : rest.length < cs.length then (ofNumeral n).map fun v => ⟨v, rest, h⟩
      else .error .malformed
    | none => .error .malformed

/-- Takes items with commas between them, one at least, and the bracket that closes them. -/
def separated {α : Type} (close : Char) (item : Reader α) (cs : List Char) :
    Except Fault (Parsed Char (List α) cs.length) := do
  let first ← item cs
  have hf := first.rest_lt
  have hs := length_skip_le first.rest
  match hr : skip first.rest with
  | [] => throw .malformed
  | c :: rest =>
    have hlt : rest.length < cs.length := by rw [hr, List.length_cons] at hs; omega
    if c = close then return ⟨[first.result], rest, hlt⟩
    else if c = ',' then
      have hle := length_skip_le rest
      let others ← separated close item (skip rest)
      return (others.map (first.result :: ·)).widen (by omega)
    else throw .malformed
termination_by cs.length
decreasing_by omega

/-- Takes what follows an opening bracket: nothing or items, and the closing bracket. -/
def container {α : Type} (close : Char) (item : Reader α) : Reader (List α) := fun cs =>
  match hr : skip cs with
  | [] => .error .malformed
  | c :: rest =>
    have hs := length_skip_le cs
    if c = close then .ok ⟨[], rest, by rw [hr, List.length_cons] at hs; omega⟩
    else (separated close item (c :: rest)).map fun p => p.widen (by rw [hr] at hs; exact hs)

/-- Takes a key and its value. -/
def member (value : Reader Json) : Reader (WideText × Json)
  | [] => .error .malformed
  | q :: cs =>
    if q = '"' then do
      let key ← stringRest cs
      have hk := key.rest_lt
      have hs := length_skip_le key.rest
      match hr : skip key.rest with
      | [] => throw .malformed
      | c :: rest =>
        if c = ':' then
          have hle := length_skip_le rest
          let v ← value (skip rest)
          return (v.map (key.result, ·)).widen (by
            rw [hr, List.length_cons] at hs; simp only [List.length_cons]; omega)
        else throw .malformed
    else .error .malformed

/-- Takes a value; the values in a container are taken by `inner`. -/
def valueWith (inner : Option (Reader Json)) : Reader Json
  | [] => .error .malformed
  | c :: cs =>
    if c = '"' then
      (stringRest cs).map fun p => (p.map .text).widen (by simp)
    else if c = '[' then
      match inner with
      | none => .error .tooDeep
      | some value => (container ']' value cs).map fun p => (p.map .list).widen (by simp)
    else if c = '{' then
      match inner with
      | none => .error .tooDeep
      | some value =>
        (container '}' (member value) cs).map fun p =>
          (p.map fun ms => .object (Table.ofList ms).entries).widen (by simp)
    else scalar (c :: cs)

/-- Takes a value with containers nested up to `room` deep. -/
def value : Nat → Reader Json
  | 0 => valueWith none
  | room + 1 => valueWith (some (value room))

/-- The depth to which containers may be nested. -/
def depthLimit : Nat := 985

/-- The value that a text denotes. -/
def read (text : String) : Except Fault Json := do
  let v ← value depthLimit (skip text.toList)
  if skip v.rest = [] then return v.result else throw .malformed

end ComplexExpr.Json
