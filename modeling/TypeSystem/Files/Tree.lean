import TypeSystem.Files.Path
import TypeSystem.Table

/-!
# File trees

A file tree is what paths are looked up in: directories, files with their bytes, and symbolic links. It
lists its entries by place, and a place is the list of names from a top directory down, none of them a link
(`Place`). Only this list is kept, so the order in which a tree was made shows nowhere but in the list itself.

`FileTree.trace` follows a path to a place, if it may be a path at all (`FileTree.checkPath`). Names are taken
one by one, and every name but the first asks that the place reached so far is a directory. A link is replaced
by the path that it leads to; no more than `FileTree.maxLinks` links are followed on the way, which is also
why the way ends. So a way can be broken off at any name and taken up again with the links that are left
(`FileTree.follow_append`).
-/

namespace TypeSystem

/-- Why nothing can be done with a path. -/
inductive FileError where
  | notFound
  | notDirectory
  | isDirectory
  | nameTooLong
  | tooManyLinks
  /-- A name with a NUL character in it. -/
  | nulCharacter
  /-- A file that was to be text and is not UTF-8. -/
  | notText
deriving DecidableEq, Repr

namespace FileError

/-- The error as a message names it. -/
def message : FileError → String
  | notFound => "No such file or directory (os error 2)"
  | notDirectory => "Not a directory (os error 20)"
  | isDirectory => "Is a directory (os error 21)"
  | nameTooLong => "File name too long (os error 36)"
  | tooManyLinks => "Too many levels of symbolic links (os error 40)"
  | nulCharacter => "file name contained an unexpected NUL byte"
  | notText => "stream did not contain valid UTF-8"

end FileError

/-- Where something is: the names from a top directory down. What holds the top directories has none. -/
abbrev Location := List String

/-- A place to which a path has led. -/
structure Spot where
  location : Location
  /-- How many links may still be followed from there on. -/
  links : Nat
deriving DecidableEq, Repr

/-- What is at a place. -/
inductive Entry where
  | directory
  | file (content : List UInt8)
  /-- A symbolic link, with the names of the path that it leads to. -/
  | link (target : List String)
deriving DecidableEq, Repr

/-- Directories, files and links. -/
structure FileTree where
  /-- Everything there is, by place. -/
  entries : Table Location Entry
  /-- Where a path begins that does not begin with a top directory. -/
  current : Location
deriving DecidableEq, Repr

/-- What happens at the last name of a path. -/
inductive Purpose where
  /-- A link is looked at itself. -/
  | inspect
  /-- A link is followed. -/
  | use
  /-- A link is followed, and a file is going to be there: a path that ends in a slash is refused. -/
  | create
  /-- A link is followed, and the path of the place itself is wanted: no place on the way may have a path that
  is too long. -/
  | locate
deriving DecidableEq, Repr

namespace FileTree

/-- The tree of one empty top directory. Paths that do not begin with it begin at the place that holds it. -/
def single (top : String) : FileTree :=
  ⟨.ofEntries [([], .directory), ([top], .directory)], []⟩

/-- The tree of an empty root directory, in which all paths begin. -/
def root : FileTree := ⟨.ofEntries [([""], .directory)], [""]⟩

/-- What is at a place. -/
def get? (tree : FileTree) (location : Location) : Option Entry := tree.entries.find? location

/-- The places where something is. -/
def locations (tree : FileTree) : List Location := tree.entries.keys

/-- The tree with something at a place, whatever was there. -/
def put (tree : FileTree) (location : Location) (entry : Entry) : FileTree :=
  { tree with entries := tree.entries.put location entry }

/-- What was put at a place is there, and all else is as it was. -/
theorem get?_put (tree : FileTree) (location other : Location) (entry : Entry) :
    (tree.put location entry).get? other =
      if other = location then some entry else tree.get? other :=
  tree.entries.find?_put location entry other

/-- The names in a directory, in order. -/
def namesIn (tree : FileTree) (directory : Location) : List String :=
  (tree.locations.filterMap fun location ↦
    if location.dropLast = directory then location.getLast? else none).mergeSort

/-- The directory above. The root, which is the top directory with an empty name, is its own. -/
def above (location : Location) : Location :=
  if location = [""] then location else location.dropLast

/-! ### Following paths -/

/-- How many links are followed on the way to a place. -/
def maxLinks : Nat := 40

/-- How many bytes a name may have. -/
def maxNameBytes : Nat := 255

/-- How many bytes a path may have, as it is written. -/
def maxPathBytes : Nat := 4095

/-- Whether names make a path of too many bytes. -/
def isTooLong (path : List String) : Bool := (Path.ofNames path).utf8ByteSize > maxPathBytes

/-- Whether names make a path that can be looked up, whatever there is in a tree. -/
def checkPath (path : List String) : Except FileError Unit :=
  if path.any fun name ↦ name.toList.contains '\x00' then .error .nulCharacter
  else if isTooLong path then .error .nameTooLong
  else .ok ()

/-- Whether a name stands for the directory in which it is looked up. -/
def isHere (name : String) : Bool := name = "" || name = "."

/-- Whether something at a place can be passed through, on the way down. -/
def enter (tree : FileTree) (location : Location) : Except FileError Unit :=
  match tree.get? location with
  | some .directory => .ok ()
  | some _ => .error .notDirectory
  | none => .error .notFound

/-- The place where a path begins, and the names that are left of it. A path that does not begin with a
top directory begins at `base`. -/
def start (tree : FileTree) (base : Location) : List String → Location × List String
  | [] => (base, [])
  | name :: names =>
    match tree.get? [name] with
    | some .directory => ([name], names)
    | _ => (base, name :: names)

/-- Follows names from a place on, with so many links left to follow. The place reached need not have
anything in it, but the one above it is a directory. -/
def follow (tree : FileTree) (purpose : Purpose) (links : Nat) (location : Location) :
    List String → Except FileError Spot
  | [] => .ok ⟨location, links⟩
  | name :: names =>
    match tree.enter location with
    | .error e => .error e
    | .ok () =>
      if isHere name then tree.follow purpose links location names
      else if name = ".." then tree.follow purpose links (above location) names
      else if purpose = .create ∧ names ≠ [] ∧ names.all (· = "") then .error .isDirectory
      else if name.utf8ByteSize > maxNameBytes then .error .nameTooLong
      else if purpose = .locate ∧ isTooLong (location ++ [name]) then .error .nameTooLong
      else
        match tree.get? (location ++ [name]) with
        | some (.link target) =>
          if names = [] ∧ purpose = .inspect then .ok ⟨location ++ [name], links⟩
          else
            match links with
            | 0 => .error .tooManyLinks
            | links + 1 =>
              let (first, others) := tree.start location target
              tree.follow purpose links first (others ++ names)
        | _ => tree.follow purpose links (location ++ [name]) names
termination_by names => (links, names.length)

/-- A way can be broken off at any name and taken up again with the links that are left. -/
theorem follow_append (tree : FileTree) (links : Nat) (location : Location)
    (names more : List String) :
    tree.follow .use links location (names ++ more) =
      tree.follow .use links location names >>= fun spot ↦
        tree.follow .use spot.links spot.location more := by
  fun_induction follow tree .use links location names
  all_goals first
    | rfl
    | (rw [List.cons_append, follow]
       simp_all [Nat.not_lt.2, List.append_assoc, bind, Except.bind])

/-- Where a path leads to. -/
def trace (tree : FileTree) (purpose : Purpose) (path : List String) : Except FileError Spot := do
  checkPath path
  let (first, names) := tree.start tree.current path
  tree.follow purpose maxLinks first names

/-- The place that a path leads to. -/
def resolve (tree : FileTree) (purpose : Purpose) (path : List String) : Except FileError Location :=
  (tree.trace purpose path).map Spot.location

/-- The place that a path leads to, and what is there. -/
def find (tree : FileTree) (purpose : Purpose) (path : List String) :
    Except FileError (Location × Entry) := do
  let location ← tree.resolve purpose path
  match tree.get? location with
  | some entry => return (location, entry)
  | none => throw .notFound

/-- The place that a path leads to, if it and every place on the way can be looked up by a path of its own.
The path that is given may have any length, as it is not looked up as a whole. -/
def locate (tree : FileTree) (path : List String) : Except FileError Location :=
  let (first, names) := tree.start tree.current path
  (tree.follow .locate maxLinks first names).map Spot.location

/-! ### Files -/

/-- The bytes of a file. -/
def read (tree : FileTree) (path : List String) : Except FileError (List UInt8) := do
  match ← tree.find .use path with
  | (_, .file content) => return content
  | _ => throw .isDirectory

/-- The tree with other bytes in a file, which is made if it is missing. -/
def write (tree : FileTree) (path : List String) (content : List UInt8) :
    Except FileError FileTree := do
  let location ← tree.resolve .create path
  match tree.get? location with
  | some .directory => throw .isDirectory
  | _ => return tree.put location (.file content)

/-! ### Making trees -/

/-- The tree with a directory at a place, if nothing is there. -/
def makeDirectory (tree : FileTree) (location : Location) : FileTree :=
  if (tree.get? location).isSome then tree else tree.put location .directory

/-- The tree with every directory along names from a place on, as far as they lead somewhere, with so many
links left to follow. -/
def makeAlong (tree : FileTree) (links : Nat) (location : Location) : List String → FileTree
  | [] => tree
  | name :: names =>
    match tree.follow .use links location [name] with
    | .error _ => tree
    | .ok spot => (tree.makeDirectory spot.location).makeAlong spot.links spot.location names

/-- The tree with every directory along a path. -/
def makeDirectories (tree : FileTree) (path : List String) : FileTree :=
  match checkPath path with
  | .error _ => tree
  | .ok () =>
    let (first, names) := tree.start tree.current path
    tree.makeAlong maxLinks first names

/-- The tree with a link at a path, if nothing is there. -/
def makeLink (tree : FileTree) (path target : List String) : FileTree :=
  match tree.resolve .inspect path with
  | .error _ => tree
  | .ok location => if (tree.get? location).isSome then tree else tree.put location (.link target)

end FileTree

end TypeSystem
