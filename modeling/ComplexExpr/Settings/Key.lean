import ComplexExpr.Decimal.Binary
import ComplexExpr.Json.Writer

/-!
# Keys of settings

The key of a setting is a text. A file that lists its entries in pairs may
also have keys of other types. Keys are the same if they denote the same
(`Key.Identity`): a truth value denotes one or zero, and a number itself, in
whatever way it is written.
-/

namespace ComplexExpr.Settings

inductive Key
  | text (value : WideText)
  | null
  | bool (value : Bool)
  | int (value : Int)
  | real (value : Float)

namespace Key

/-- What a key denotes. -/
inductive Identity
  | text (value : WideText)
  | null
  | whole (n : Int)
  /-- A double that is no whole number. -/
  | real (x : Binary)
deriving DecidableEq

def identity : Key → Identity
  | text s => .text s
  | null => .null
  | bool b => .whole (if b then 1 else 0)
  | int n => .whole n
  | real x => match (Binary.ofFloat x).toInt? with
    | some n => .whole n
    | none => .real (Binary.ofFloat x)

instance : BEq Key := ⟨fun j k => decide (j.identity = k.identity)⟩

theorem beq_iff {j k : Key} : (j == k) = true ↔ j.identity = k.identity := decide_eq_true_iff

instance : EquivBEq Key where
  rfl := beq_iff.2 rfl
  symm h := beq_iff.2 (beq_iff.1 h).symm
  trans h₁ h₂ := beq_iff.2 ((beq_iff.1 h₁).trans (beq_iff.1 h₂))

def ofString (s : String) : Key := .text (.ofString s)

/-- A key as a value. -/
def toJson : Key → Json
  | text s => .text s
  | null => .null
  | bool b => .bool b
  | int n => .int n
  | real x => .real x

/-- The key that a value is, if it is not a container. -/
def ofJson? : Json → Option Key
  | .text s => some (text s)
  | .null => some null
  | .bool b => some (bool b)
  | .int n => some (int n)
  | .real x => some (real x)
  | .list _ | .object _ => none

/-- The text that stands for a key in a settings file. -/
def fileText : Key → WideText
  | text s => s
  | k => .ofString k.toJson.write

end Key

end ComplexExpr.Settings
