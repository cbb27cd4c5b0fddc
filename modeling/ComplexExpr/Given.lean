/-!
# What is given

Something that may be left out, or be called for without saying what it is
(`Given`).
-/

namespace ComplexExpr

inductive Given (α : Type)
  | omitted
  /-- It is called for, and its value is missing. -/
  | blank
  | value (a : α)
deriving DecidableEq, Repr

end ComplexExpr
