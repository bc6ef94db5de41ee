import TypeSystem.Files.Walk
import TypeSystem.Text.Quoted

/-!
# Scans

A scan walks over every path it is given and keeps the files with one of the wanted extensions, in the order
in which they are met; all others it counts. A single path to a file that has another extension is taken to
be meant, and kept all the same. A file is kept under the path of its place, if it can be located.
-/

namespace TypeSystem.Command

/-- What a scan has found. -/
structure Scan where
  /-- Where the files are that were kept. -/
  kept : List Location
  /-- How many files were not kept. -/
  skipped : Nat
deriving DecidableEq, Repr

/-- Why a scan ended early. -/
inductive ScanError where
  /-- The walk over a path cannot go on. -/
  | walk (path : String) (cause : WalkError)
  /-- A file that is to be kept cannot be located. -/
  | locate (cause : FileError)
deriving DecidableEq, Repr

namespace ScanError

/-- The error and, if it is one of a walk, where it comes from. -/
def message : ScanError → String
  | walk path cause =>
    "Error while walking filesystem entries at/under " ++ Text.inDoubleQuotes path ++ ": " ++
      cause.message
  | locate cause => cause.message

end ScanError

namespace Scan

/-- Before the first file. -/
def none : Scan := ⟨[], 0⟩

/-- Extensions as they are compared: without the dots that they may be given with. -/
def wanted (extensions : List String) : List String :=
  extensions.map fun ext ↦ String.ofList (ext.toList.dropWhile (· = '.'))

/-- Whether a file has one of the wanted extensions. -/
def isWanted (extensions : List String) (visit : Visit) : Bool :=
  match Path.extension? visit.path with
  | some ext => (wanted extensions).contains ext
  | .none => false

/-- The scan with a file kept. -/
def keep (tree : FileTree) (scan : Scan) (visit : Visit) : Except ScanError Scan :=
  match tree.locate (Path.names visit.path) with
  | .ok _ => .ok { scan with kept := scan.kept ++ [visit.location] }
  | .error e => .error (.locate e)

/-- The scan with one more file. -/
def add (tree : FileTree) (extensions : List String) (scan : Scan) (visit : Visit) :
    Except ScanError Scan :=
  if isWanted extensions visit then keep tree scan visit
  else .ok { scan with skipped := scan.skipped + 1 }

/-- The scan with every file at or under one more path. -/
def addPath (tree : FileTree) (extensions : List String) (scan : Scan) (path : String) :
    Except ScanError Scan := do
  let walk := tree.walk path
  let scan ← walk.visits.foldlM (add tree extensions) scan
  match walk.failure with
  | some e => throw (.walk path e)
  | .none => return scan

/-- Where the file is that a path leads to, if it leads to one. -/
def file? (tree : FileTree) (path : String) : Option Location :=
  match tree.find .use (Path.names path) with
  | .ok (location, .file _) => some location
  | _ => .none

/-- The scan with the file of a single path kept, if nothing is kept yet. -/
def orSingleFile (tree : FileTree) (scan : Scan) : List String → Except ScanError Scan
  | [path] =>
    match scan.kept, file? tree path with
    | [], some location => keep tree { scan with skipped := scan.skipped - 1 } ⟨path, location⟩
    | _, _ => .ok scan
  | _ => .ok scan

/-- The scan of some paths. -/
def ofPaths (tree : FileTree) (extensions paths : List String) : Except ScanError Scan := do
  let scan ← paths.foldlM (addPath tree extensions) none
  scan.orSingleFile tree paths

end Scan

end TypeSystem.Command
