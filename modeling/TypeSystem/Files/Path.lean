import TypeSystem.Text.Split

/-!
# Paths

A path is text: names with slashes between them. It is kept as it was given, because messages show it so,
and taken apart only to be looked up. An absolute path has an empty first name.
-/

namespace TypeSystem

namespace Path

/-- The names of a path. -/
def names (path : String) : List String :=
  (Text.split '/' path.toList).map String.ofList

/-- The path of some names. -/
def ofNames (names : List String) : String := String.intercalate "/" names

/-- The path of something in a directory. -/
def child (directory name : String) : String :=
  if directory.toList.getLast? = some '/' then directory ++ name else directory ++ "/" ++ name

/-- The part of a file's name after its last dot. A name without a dot, or with only one at its very
beginning, has no such part. -/
def extension? (path : String) : Option String :=
  let name := ((Text.split '/' path.toList).getLast?).getD []
  match (Text.split '.' name).reverse with
  | [] | [_] | [_, []] => none
  | last :: _ => some (String.ofList last)

end Path

end TypeSystem
