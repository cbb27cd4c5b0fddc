import ComplexExpr.Decimal.Typed

/-!
# Arguments

How a row of arguments is read as options and operands (`Form.read`). Options
may stand anywhere up to the argument `--`; a long option may be shortened as
long as it is the only one that fits, and may hold its value after an equals
sign. An argument that looks like a negative number, or holds a blank and is no
option, is an operand. Reading ends early where help is asked for or an option
is misused, whichever comes first.
-/

namespace ComplexExpr.Command

/-- What an option is for. -/
inductive Role
  | help
  | flag
  | text
  | integer
deriving DecidableEq, Repr

/-- A place for an operand. -/
inductive Slot
  | required
  | optional
deriving DecidableEq, Repr

/-- The options, by their spellings, and the places for operands that a command has. -/
structure Form where
  options : List (String × Role)
  slots : List Slot

/-- Why the arguments are not carried out. -/
inductive Halt
  | help
  | misuse
deriving DecidableEq, Repr

/-- An option as it is found in an argument. -/
structure Found where
  spelling : String
  role : Role
  /-- What the argument holds after the equals sign, or right behind a single letter. -/
  attached : Option String

/-- What an argument is. -/
inductive Mark
  | operand
  | dashes
  /-- An option, if it is one that is known. -/
  | option (found : Option Found)

/-- An argument with what it is. -/
abbrev Marked := Mark × String

def Marked.isDashes : Marked → Bool
  | (.dashes, _) => true
  | _ => false

def Marked.isOption : Marked → Bool
  | (.option _, _) => true
  | _ => false

/-- The texts before and after the first equals sign. -/
def splitEquals (s : String) : Option (String × String) :=
  let cs := s.toList
  match cs.dropWhile (· != '=') with
  | [] => none
  | _ :: after => some (String.ofList (cs.takeWhile (· != '=')), String.ofList after)

/-- A text without the new line at its end. -/
def dropLineEnd (cs : List Char) : List Char :=
  if cs.getLast? = some '\n' then cs.dropLast else cs

/-- The text is a minus sign and digits, or a minus sign, digits, a point and digits. A new line
may end it. -/
def isNegativeNumber (s : String) : Bool :=
  let isDigit := fun c => (Text.digitValue? c).isSome
  match dropLineEnd s.toList with
  | '-' :: cs =>
    match cs.dropWhile isDigit with
    | [] => cs != []
    | '.' :: fraction => fraction != [] && fraction.all isDigit
    | _ => false
  | _ => false

namespace Form

/-- The option of exactly this spelling. -/
def spelled? (form : Form) (spelling : String) (attached : Option String) : Option Found :=
  (form.options.lookup spelling).map fun role => ⟨spelling, role, attached⟩

/-- The options that an argument may be short for: long ones that it begins, or one of a single
letter with more letters behind. -/
def candidates (form : Form) (arg : String) : List Found :=
  match arg.toList with
  | '-' :: '-' :: _ =>
    let (name, attached) := match splitEquals arg with
      | some (name, value) => (name, some value)
      | none => (arg, none)
    (form.options.filter fun o => name.toList.isPrefixOf o.1.toList).map fun o =>
      ⟨o.1, o.2, attached⟩
  | cs =>
    (form.options.filter fun o => o.1.toList = cs.take 2).map fun o =>
      ⟨o.1, o.2, some (String.ofList (cs.drop 2))⟩

/-- What an argument is; it is an error for it to be short for several options. -/
def mark (form : Form) (arg : String) : Except Halt Mark :=
  match arg.toList with
  | '-' :: _ :: _ =>
    let whole := form.spelled? arg none
    let valued := (splitEquals arg).bind fun (name, value) => form.spelled? name (some value)
    match whole.or valued with
    | some found => .ok (.option found)
    | none => match form.candidates arg with
      | [found] => .ok (.option found)
      | [] =>
        if isNegativeNumber arg || arg.toList.contains ' ' then .ok .operand else .ok (.option none)
      | _ => .error .misuse
  | _ => .ok .operand

/-- All arguments with what they are: after the first `--` all are operands. -/
def markAll (form : Form) : List String → Except Halt (List Marked)
  | [] => .ok []
  | "--" :: args => .ok ((.dashes, "--") :: args.map (.operand, ·))
  | arg :: args => return (← form.mark arg, arg) :: (← markAll form args)

end Form

/-- What has been read so far. -/
structure Reading where
  /-- The places that are still free. -/
  slots : List Slot
  operands : List (Option String) := []
  /-- The options that have been given, each with its value. -/
  options : List (String × Option String) := []
  /-- All arguments so far have had a use. -/
  clean : Bool := true

namespace Reading

/-- The values of an option, in order. -/
def values (r : Reading) (spelling : String) : List (Option String) :=
  (r.options.filter fun o => o.1 = spelling).map Prod.snd

/-- The operand among the arguments of one place: what is left without the first `--`. -/
def operandOf (args : List String) : Option String := (args.erase "--").head?

/-- The arguments that one place takes: an operand with the `--` before or after it. -/
def takeSlot (slot : Slot) (ts : List Marked) : Option (List String × List Marked) :=
  let before := (ts.takeWhile Marked.isDashes).map Prod.snd
  match slot, ts.dropWhile Marked.isDashes with
  | _, (.operand, arg) :: rest =>
    some (before ++ arg :: (rest.takeWhile Marked.isDashes).map Prod.snd,
      rest.dropWhile Marked.isDashes)
  | .optional, rest => some (before, rest)
  | .required, _ => none

/-- As many of the places filled from the front of the arguments as can be. -/
def fillSlots (r : Reading) : List Slot → List Marked → Reading × List Marked
  | [], ts => ({ r with slots := [] }, ts)
  | slot :: slots, ts =>
    match takeSlot slot ts with
    | none => ({ r with slots := slot :: slots }, ts)
    | some (args, rest) =>
      fillSlots { r with operands := r.operands ++ [operandOf args] } slots rest

/-- As many of the free places filled as can be. -/
def fill (r : Reading) (ts : List Marked) : Reading × List Marked := r.fillSlots r.slots ts

def addOption (r : Reading) (spelling : String) (value : Option String) : Reading :=
  { r with options := r.options ++ [(spelling, value)] }

/-- Help asked for by its single letter may be asked for again in the same argument; anything
else attached to it is misuse. -/
def helpHalt (found : Found) : Halt :=
  match found.attached with
  | none => .help
  | some text =>
    if found.spelling = "-h" ∧ text ≠ "" ∧ text.toList.all (· = 'h') then .help else .misuse

/-- The value of an option that needs one: two minus signs stand for none. -/
def optionValue (role : Role) (text : String) : Except Halt (Option String) :=
  if text = "--" then .ok none
  else if role = .integer ∧ (Typed.readInt? text).isNone then .error .misuse
  else .ok (some text)

/-- An option with its value, which may be the next argument, and whether it is. -/
def takeOption (r : Reading) (found : Found) (next : Option Marked) :
    Except Halt (Reading × Bool) :=
  match found.role, found.attached, next with
  | .help, _, _ => .error (helpHalt found)
  | .flag, none, _ => .ok (r.addOption found.spelling none, false)
  | .flag, some _, _ => .error .misuse
  | role, some text, _ => return (r.addOption found.spelling (← optionValue role text), false)
  | role, none, some (.operand, text) =>
    return (r.addOption found.spelling (← optionValue role text), true)
  | _, none, _ => .error .misuse

/-- The rest of the arguments: options where they stand, and operands between them. -/
def readAll (r : Reading) : (ts : List Marked) → Except Halt Reading
  | [] => .ok r
  | (.option none, _) :: ts => readAll { r with clean := false } ts
  | (.option (some found), _) :: ts => do
    let (r, used) ← r.takeOption found ts.head?
    match used, ts with
    | true, _ :: ts => readAll r ts
    | _, ts => readAll r ts
  | t :: ts =>
    let (r', rest) := r.fill (t :: ts)
    if rest.length ≤ ts.length then readAll r' rest
    else
      have : (ts.dropWhile fun t => !t.isOption).length ≤ ts.length :=
        (List.dropWhile_suffix _).length_le
      readAll { r' with clean := false } (ts.dropWhile fun t => !t.isOption)
termination_by ts => ts.length
decreasing_by
  all_goals
    simp only [List.length_cons]
    omega

end Reading

/-- A row of arguments read: all places that need an operand have one. -/
def Form.read (form : Form) (args : List String) : Except Halt Reading := do
  let r ← Reading.readAll { slots := form.slots } (← form.markAll args)
  let (r, _) := r.fill []
  if r.slots.isEmpty then return r else throw .misuse

end ComplexExpr.Command
