/-!
# Names and paths

Declarations are found by paths: names joined by `/`. A declaration without a name of its own gets
one from its type and a number.
-/

namespace LayoutMarkup.Name

/-- The character between the names of a path. -/
def separator : Char := '/'

/-- The pieces of a list of characters between the separators, empty ones included. -/
def pieces (cs : List Char) : List (List Char) :=
  cs.splitOn separator

/-- The names of a path, without the empty ones. -/
def splitPath (path : String) : List String :=
  ((pieces path.toList).filter (!·.isEmpty)).map String.ofList

/-- The path that a list of names makes. -/
def joinPath (names : List String) : String :=
  "/".intercalate names

/-- The name of the `n`-th declaration that has only a stem to be named by. -/
def numbered (stem : String) (n : Nat) : String :=
  s!"{stem}_{n}"

end LayoutMarkup.Name
