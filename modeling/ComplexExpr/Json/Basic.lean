import ComplexExpr.Text.CodePoint

/-!
# Data of settings files

The values that a settings file may hold. Whole numbers are told from doubles,
and the members of an object stand in order, one for each key. Texts are rows
of code points, since a file may write surrogates that stand alone.
-/

namespace ComplexExpr

inductive Json
  | null
  | bool (value : Bool)
  | int (value : Int)
  | real (value : Float)
  | text (value : WideText)
  | list (items : List Json)
  | object (members : List (WideText × Json))

namespace Json

instance : Inhabited Json := ⟨.null⟩

def ofString (s : String) : Json := .text (.ofString s)

end Json

end ComplexExpr
