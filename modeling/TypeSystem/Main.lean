import TypeSystem.Command.Validate

/-!
# The program

Looks at the files that the arguments lead to, runs the command on what it has seen of them, prints the
response and, if a schema was to be written, writes it. What the command decides, it decides in `Command.run`.
-/

namespace TypeSystem.Program

open Command

/-- The place of an absolute path in which no name is a link. -/
def locationOf (path : String) : Location :=
  "" :: (Path.names path).filter (· ≠ "")

/-- The names of a path that leads nowhere: no file has such a name. -/
def nowhere : List String := ["", "\x00"]

/-- The path of some names, where none means the working directory. -/
def pathText (names : List String) : String :=
  match names with
  | [] => "."
  | [""] => "/"
  | names => Path.ofNames names

/-- The names that a link leads to. -/
def targetOf (path : String) : IO (List String) := do
  try
    return locationOf (← IO.FS.realPath path).toString
  catch _ => return nowhere

/-- The content of a file, as far as it can matter. -/
def contentOf (options : ValidateOptions) (path : String) : IO (List UInt8) := do
  if Scan.isWanted options.extensions ⟨path, []⟩ || options.paths.length = 1 then
    return (← IO.FS.readBinFile path).data.toList
  else return []

/-- Puts what is at a path into a tree, and gives the paths that are to be looked at next. No name of the path
but the last is a link. -/
def look (options : ValidateOptions) (tree : FileTree) (path : String) :
    IO (FileTree × List String) := do
  let location := locationOf path
  let spot := tree.makeDirectories location.dropLast
  try
    let real ← IO.FS.realPath (pathText location.dropLast)
    match (← (real / location.getLast?.getD "").symlinkMetadata).type with
    | .dir =>
      let entries ← (real / location.getLast?.getD "").readDir
      return (spot.put location .directory, entries.toList.map fun e ↦ path ++ "/" ++ e.fileName)
    | .symlink =>
      let target ← targetOf path
      return (spot.put location (.link target), [pathText target])
    | .file => return (spot.put location (.file (← contentOf options path)), [])
    | .other => return (spot, [])
  catch _ => return (tree, [])

/-- Puts what is at some paths, under them, and where links lead to into a tree. -/
partial def lookAll (options : ValidateOptions) (tree : FileTree) (seen : List String) :
    List String → IO FileTree
  | [] => return tree
  | path :: paths => do
    if seen.contains path then lookAll options tree seen paths
    else
      let (tree, more) ← look options tree path
      lookAll options tree (path :: seen) (more ++ paths)

/-- The real path of the directory above the last name of a path, and that name after it. A path that ends in
no name of its own is made real as a whole. -/
def spotOf (names : List String) : IO String := do
  match names.getLast? with
  | none | some "" | some "." | some ".." => return (← IO.FS.realPath (pathText names)).toString
  | some name => return ((← IO.FS.realPath (pathText names.dropLast)) / name).toString

/-- Puts every directory and link on the way along a path into a tree. -/
def lookAlong (options : ValidateOptions) (tree : FileTree) (path : String) : IO FileTree := do
  let names := Path.names path
  (List.range names.length).foldlM (fun tree n ↦ do
    try
      return (← look options tree (← spotOf (names.take (n + 1)))).1
    catch _ => return tree) tree

/-- What the file system holds as far as it concerns some options. -/
def treeFor (options : ValidateOptions) : IO FileTree := do
  let current := locationOf (← IO.FS.realPath ".").toString
  let top := { FileTree.root.makeDirectories current with current := current }
  let along ← (options.paths ++ options.output.toList).foldlM (lookAlong options) top
  options.paths.foldlM (fun tree path ↦ do
    try
      lookAll options tree [] [← spotOf (Path.names path)]
    catch _ => return tree) along

/-- How the program is called. -/
def usage : String :=
  "Usage: [--verbose] validate [--emit-schema PATH] [--graphql-file-exts EXTENSIONS] PATHS"

/-- Prints a response. -/
def report : Response → IO Unit
  | .usage .helpRequested | .usage .versionRequested | .overview _ => IO.println usage
  | .usage _ => IO.eprintln usage
  | .outcome outcome => do
    outcome.stdout.forM IO.println
    outcome.stderr.forM IO.eprintln
  | .crash .widthOutOfRange => IO.eprintln "Formatting argument out of range"

/-- Writes a schema where the options ask for it, if the command has come to the point of writing it. -/
def store (options : ValidateOptions) (response : Response) (tree : FileTree) : IO Unit := do
  match options.output with
  | some path =>
    if response.exitCode = 0 then
      match tree.read (Path.names path) with
      | .ok content => IO.FS.writeBinFile path ⟨content.toArray⟩
      | .error _ => return
  | none => return

end TypeSystem.Program

open TypeSystem TypeSystem.Command TypeSystem.Program in
/-- Runs the program. -/
def main (arguments : List String) : IO UInt32 := do
  let options := match Request.read arguments with
    | .ok (.validate _ options) => options
    | _ => ⟨[], [], none⟩
  let (response, tree) := run arguments (← treeFor options)
  store options response tree
  report response
  return response.exitCode.toUInt32
