/-!
# Defects

What stops a command without a report: values of the settings file, or of an
option, that cannot be used where they are needed (`Defect`).
-/

namespace ComplexExpr

inductive Defect
  /-- A value is of a type that cannot be used in its place. -/
  | wrongType
  /-- A value is missing where a text is needed. -/
  | noText
  /-- An entry is not a pair. -/
  | wrongSize
  /-- A whole number has too many digits to be read. -/
  | longNumber
  /-- A whole number lies beyond all doubles. -/
  | tooLarge
  /-- Values are nested too deeply. -/
  | tooDeep
deriving DecidableEq, Repr

end ComplexExpr
