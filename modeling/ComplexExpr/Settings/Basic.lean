import ComplexExpr.Decimal.Typed
import ComplexExpr.Defect
import ComplexExpr.Failure
import ComplexExpr.Json.Display
import ComplexExpr.Json.Reader
import ComplexExpr.Settings.Key

/-!
# Settings

The settings in use are the defaults with the entries of the settings file put
over them (`Settings.ofFile`). A file that is missing or malformed changes
nothing; one that holds a value other than an object counts if it is a list of
pairs, and is a defect if it is not. `Settings.validate` reads a new value for
a setting from text and checks it.
-/

namespace ComplexExpr

/-- A value for each setting, in order. -/
abbrev Settings := Table Settings.Key Json

namespace Settings

/-- The settings without a file, by their names. -/
def standard : List (String × Json) :=
  [("equivalence_trials", .int 12), ("equivalence_epsilon", .real 1e-6),
   ("sample_range", .real 5.0), ("approx_epsilon", .real 1e-8), ("debug", .bool false)]

/-- The settings without a file. -/
def defaults : Settings := Table.ofList (standard.map fun (name, v) => (.ofString name, v))

/-- The entry that an item of a list stands for: a list of two, a text of two code points, or the
two keys of an object. -/
def entryOf : Json → Except Defect (Key × Json)
  | .list [k, v] => match Key.ofJson? k with
    | some k => .ok (k, v)
    | none => .error .wrongType
  | .list _ => .error .wrongSize
  | .text [k, v] => .ok (.text [k], .text [v])
  | .text _ => .error .wrongSize
  | .object [(k, _), (v, _)] => .ok (.text k, .text v)
  | .object _ => .error .wrongSize
  | .null | .bool _ | .int _ | .real _ => .error .wrongType

/-- The entries of a settings file. -/
def entriesOf : Json → Except Defect (List (Key × Json))
  | .object members => .ok (members.map fun (k, v) => (.text k, v))
  | .list items => items.mapM entryOf
  | .text s => if s.isEmpty then .ok [] else .error .wrongSize
  | .null | .bool _ | .int _ | .real _ => .error .wrongType

/-- The entries in the text of a settings file; a malformed one has none. -/
def readEntries (text : String) : Except Defect (List (Key × Json)) :=
  match Json.read text with
  | .ok v => entriesOf v
  | .error .malformed => .ok []
  | .error .longNumber => .error .longNumber
  | .error .tooDeep => .error .tooDeep

/-- The settings in use, by the text of the settings file if there is one. -/
def ofFile (text : Option String) : Except Defect Settings :=
  match text with
  | none => .ok defaults
  | some text => (readEntries text).map defaults.update

/-- The value of a setting, or nothing. -/
def value (s : Settings) (key : String) : Json := (s.get? (.ofString key)).getD .null

/-- The truth value that a text spells, in capitals or small letters. -/
def readBool? (text : String) : Option Bool :=
  match ((Text.trim text.toList).map Char.toLower) with
  | ['t', 'r', 'u', 'e'] => some true
  | ['f', 'a', 'l', 's', 'e'] => some false
  | _ => none

/-- The value that a text has for a setting with this default. -/
def readLike (default : Json) (raw : String) : Option Json :=
  match default with
  | .bool _ => (readBool? raw).map .bool
  | .int _ => (Typed.readInt? raw).map .int
  | _ => (Typed.readFloat? raw).map .real

/-- A number of trials is one at least, and every double is positive or not a number. -/
def checked (key : String) : Json → Except Cause Json
  | .int n => if n < 1 then .error (.tooFewTrials key) else .ok (.int n)
  | .real x => if x ≤ 0.0 then .error (.notPositive key) else .ok (.real x)
  | v => .ok v

/-- The value that a text has for a setting. -/
def validate (key raw : String) : Except Cause Json :=
  match standard.lookup key with
  | none => .error (.unknownSetting key)
  | some default => match readLike default raw with
    | none => .error (.invalidSetting key raw)
    | some v => checked key v

/-- The text of a settings file. -/
def toFile (s : Settings) : String :=
  Json.write (.object (s.entries.map fun (k, v) => (k.fileText, v)))

/-- The text that people are shown of all settings together. -/
def display (s : Settings) : String :=
  "\x7b" ++ ", ".intercalate (s.entries.map fun (k, v) => k.toJson.shown ++ ": " ++ v.shown) ++
    "\x7d"

/-- Anything but nothing, zero and what is empty counts as true. -/
def isTrue : Json → Bool
  | .null => false
  | .bool b => b
  | .int n => n != 0
  | .real x => x != 0.0
  | .text s => !s.isEmpty
  | .list items => !items.isEmpty
  | .object members => !members.isEmpty

/-- A value as a double, unless it is a whole number. -/
def toFloat : Json → Except Defect Float
  | .real x => .ok x
  | .bool b => .ok (if b then 1.0 else 0.0)
  | _ => .error .wrongType

/-- A value as the bound of an interval around zero, whose width has to be a double too if the
bound is a whole number. -/
def toRange : Json → Except Defect Float
  | .int n => if (Float.ofInt (2 * n)).isFinite then .ok (Float.ofInt n) else .error .tooLarge
  | v => toFloat v

/-- A value as a bound that doubles stay below. -/
def toBound : Json → Except Defect Float
  | .int n => .ok (Binary.leastDouble n)
  | v => toFloat v

end Settings

end ComplexExpr
