import ComplexExpr.Settings.Basic

/-!
# Where settings are kept

A settings file has a text or is missing; in a directory that does not exist
there is none and none can be made (`Place`). `Place.change` reads a new value
for one setting and saves all of them.
-/

namespace ComplexExpr.Settings

inductive Place
  /-- A file, with its text if it is there. -/
  | file (text : Option String)
  /-- A path in a directory that does not exist. -/
  | nowhere (path : String)

namespace Place

/-- The text found at a place. -/
def text? : Place → Option String
  | file text => text
  | nowhere _ => none

def load (p : Place) : Except Defect Settings := ofFile p.text?

/-- The place after the settings have been saved there. -/
def save (p : Place) (s : Settings) : Except Cause Place :=
  match p with
  | file _ => .ok (.file (some s.toFile))
  | nowhere path =>
    .error (.unsaved path ("[Errno 2] No such file or directory: '" ++ path ++ "'"))

/-- The settings with one of them changed, and the place where all are saved. -/
def change (p : Place) (s : Settings) (key raw : String) : Except Cause (Settings × Place) := do
  let s := s.set (.ofString key) (← validate key raw)
  return (s, ← p.save s)

end Place

end ComplexExpr.Settings
