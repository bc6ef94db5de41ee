import TypeSystem.Binary.Schema
import TypeSystem.Command.Arguments
import TypeSystem.Command.Scan

/-!
# The command `validate`

The command scans the paths for files, reads them as sources, builds the schema of all of them together and,
if asked to, writes it as bytes. The first step that fails ends it; only the last step changes the file tree,
so a failure before that leaves every file as it was.
-/

namespace TypeSystem.Command

/-- Why `validate` failed. -/
inductive Failure where
  /-- The paths cannot be scanned. -/
  | scan (error : ScanError)
  /-- A file cannot be read. -/
  | read (location : Location) (cause : FileError)
  /-- The sources make no schema. -/
  | build (error : BuildError) (sources : List Source)
  /-- The schema cannot be written. -/
  | write (path : String) (cause : FileError)
deriving DecidableEq, Repr

/-- The error of sources in full. -/
def describe (sources : List Source) : BuildError → Except Crash String
  | .unreadable e => e.render (e.span.source.bind (Source.body? sources))
  | .invalid e => (e.render sources).map ("Errors validating schema:\n" ++ ·)

namespace Failure

/-- What stands before every failure. -/
def mark : String := "❌ "

/-- The failure in full. -/
def message : Failure → Except Crash String
  | scan e => .ok (mark ++ "Failed to scan input paths: " ++ e.message)
  | read location cause =>
    .ok (mark ++ "Failed to read GraphQL files: Failed to read " ++
      Text.inDoubleQuotes (Path.ofNames location) ++ ": " ++ cause.message)
  | build e sources => (describe sources e).map (mark ++ ·)
  | write path cause =>
    .ok (mark ++ "Failed to emit schema: Failed to write " ++ Text.inDoubleQuotes path ++ ": " ++
      cause.message)

end Failure

/-- What `validate` has to say when nothing is wrong. -/
structure Summary where
  /-- How many files were read. -/
  files : Nat
  /-- How many files were left out. -/
  skipped : Nat
  types : Nat
  directives : Nat
deriving DecidableEq, Repr

namespace Summary

/-- The summary in full. -/
def message (s : Summary) : String :=
  "✅ All GraphQL validated successfully:\n" ++
    "  * Analyzed " ++ toString s.files ++ " files.\n" ++
    "  * Skipped " ++ toString s.skipped ++ " non-graphql files.\n" ++
    "  * Validated " ++ toString s.types ++ " type definitions.\n" ++
    "  * Validated " ++ toString s.directives ++ " directive definitions."

end Summary

/-! ### The steps -/

/-- A file as a source, under the path of its place. -/
def readSource (tree : FileTree) (location : Location) : Except Failure Source :=
  match tree.read location with
  | .error e => .error (.read location e)
  | .ok content =>
    match String.fromUTF8? ⟨content.toArray⟩ with
    | some body => .ok ⟨Path.ofNames location, body⟩
    | none => .error (.read location .notText)

/-- The schema that the paths hold, and what was found on the way to it. -/
def check (options : ValidateOptions) (tree : FileTree) : Except Failure (Scan × Schema) := do
  let scan ← (Scan.ofPaths tree options.extensions options.paths).mapError .scan
  let sources ← scan.kept.mapM (readSource tree)
  let schema ← (Schema.ofSources sources).mapError (.build · sources)
  return (scan, schema)

/-- The file tree with a schema written where it is asked for. -/
def emit (options : ValidateOptions) (tree : FileTree) (schema : Schema) :
    Except Failure FileTree :=
  match options.output with
  | none => .ok tree
  | some path => (tree.write (Path.names path) schema.encode).mapError (.write path)

/-- The summary of a scan and its schema. -/
def summarize (scan : Scan) (schema : Schema) : Summary :=
  ⟨scan.kept.length, scan.skipped, schema.types.size, schema.directives.size⟩

/-- Runs `validate`: what it has to say, and the file tree that it leaves. -/
def validate (options : ValidateOptions) (tree : FileTree) : Except Failure Summary × FileTree :=
  match check options tree with
  | .error e => (.error e, tree)
  | .ok (scan, schema) =>
    match emit options tree schema with
    | .error e => (.error e, tree)
    | .ok tree' => (.ok (summarize scan schema), tree')

/-! ### Any arguments -/

/-- What a command hands back when it has come to its end. -/
structure Outcome where
  exitCode : Nat
  /-- What is printed. -/
  stdout : Option String
  /-- What is printed as an error. -/
  stderr : Option String
deriving DecidableEq, Repr

namespace Outcome

/-- The outcome when all went well. -/
def success (text : String) : Outcome := ⟨0, some text, none⟩

/-- The outcome when something went wrong. -/
def failure (text : String) : Outcome := ⟨1, none, some text⟩

end Outcome

/-- What a run comes to. -/
inductive Response where
  /-- The arguments ask for nothing that is done. -/
  | usage (error : UsageError)
  /-- There is no command; what there is to know is shown. -/
  | overview (verbose : Bool)
  /-- The command has come to its end. -/
  | outcome (outcome : Outcome)
  /-- The command has broken off. -/
  | crash (cause : Crash)
deriving DecidableEq, Repr

namespace Response

/-- The exit code of a run. -/
def exitCode : Response → Nat
  | usage e => e.exitCode
  | overview _ => 0
  | outcome o => o.exitCode
  | crash _ => 101

/-- What a run of `validate` comes to: its summary or its failure is put into words, and those of a failure may be
too wide to be printed. -/
def ofResult : Except Failure Summary → Response
  | .ok summary => outcome (.success summary.message)
  | .error failed =>
    match failed.message with
    | .ok text => outcome (.failure text)
    | .error cause => crash cause

end Response

/-- Does what arguments ask for: the response, and the file tree that is left. -/
def run (arguments : List String) (tree : FileTree) : Response × FileTree :=
  match Request.read arguments with
  | .error e => (.usage e, tree)
  | .ok (.overview verbose) => (.overview verbose, tree)
  | .ok (.validate _ options) =>
    let (result, tree') := validate options tree
    (.ofResult result, tree')

end TypeSystem.Command
