/-!
# Required files

The files that have to stand beside the program (`RequiredFiles.all`), and
what is said of those that do not.
-/

namespace ComplexExpr.RequiredFiles

/-- The files, each by its directory and name. -/
def all : List (String × String) :=
  [("complex_calculator/", "MathEngine.py"), ("complex_calculator/", "ComplexNumber.py"),
   ("complex_calculator/", "ScientificEngine.py"), ("complex_calculator/", "EquivalenceEngine.py"),
   ("complex_calculator/", "config_manager.py"), ("", "config.json")]

/-- The names on the way that a path describes. -/
def steps (path : String) : List String :=
  (path.splitOn "/").foldl (fun names step =>
    if step = "" ∨ step = "." then names
    else if step = ".." then names.dropLast
    else names ++ [step]) []

/-- There is something at a path if a file has this path or lies below it. -/
def isPresent (present : List String) (path : String) : Bool :=
  present.any fun p => (steps path).isPrefixOf (steps p)

/-- The names of the files that are not among those present, given by their paths. -/
def missing (present : List String) : List String :=
  (all.filter fun (directory, name) => !isPresent present (directory ++ name)).map Prod.snd

/-- What is said of missing files; with none missing nothing is said. -/
def lines (present : List String) : List String :=
  match missing present with
  | [] => []
  | names =>
    "Error: The following files are missing or in the wrong location:" :: names.map ("- " ++ ·)

end ComplexExpr.RequiredFiles
