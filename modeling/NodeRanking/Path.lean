/-!
# Paths

The names on the way to a file, between slashes.

1. An empty name and a single point stay where they are and are left out, so two paths may differ in
   their text and still be the same way.
2. A path that ends in one of these can lead to a directory only.
3. The extension is what follows the last point of the last name.
-/

namespace NodeRanking

/-- A way to a file or directory. -/
structure Path where
  /-- Whether the way starts at the root. -/
  fromRoot : Bool
  names : List String
  /-- Whether the way may lead to a file. -/
  toFile : Bool
deriving DecidableEq

namespace Path

/-- Whether a name stays where it is. -/
def stays (name : String) : Bool := name = "" || name = "."

/-- The path of a text. -/
def ofText (s : String) : Path :=
  let names := (s.toList.splitOn '/').map String.ofList
  { fromRoot := s.toList.head? = some '/'
    names := names.filter (!stays ·)
    toFile := names.getLast?.any (!stays ·) }

/-- The last name. Two points lead up and name nothing. -/
def fileName? (path : Path) : Option String := path.names.getLast?.filter (· ≠ "..")

/-- What follows the last point of a file name. A point at the very start does not count. -/
def extension? (path : Path) : Option String := do
  let name ← path.fileName?
  let reversed := name.toList.reverse
  let stem := (reversed.dropWhile (· ≠ '.')).drop 1
  guard (stem ≠ [])
  return String.ofList (reversed.takeWhile (· ≠ '.')).reverse

end Path

end NodeRanking
