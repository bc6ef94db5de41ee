import TypeSystem.Text.Split

/-!
# Command-line arguments

What a list of arguments asks for. Before a command there are flags only; the one command, `validate`, takes
two options with values and one or more paths. An option's value is part of the same argument, after an equals
sign, or the next argument, unless that looks like an option.

The command only declares its options; how arguments are read is what the argument parser documents for such
declarations:

* an option with one value may stand once, and one with a list of values any number of times, each value cut at
  its commas; without it the list is the declared default;
* a flag takes no value and may stand once, and letters may be put together behind one hyphen;
* after two hyphens everything is a path, and no path, nor the place to write to, may be empty;
* help or the version is given as soon as it is asked for, unless what stands before is in error, and then the
  exit code is 0; for every error it is 2.

Values are checked when the next option begins, when paths begin, or at the end, so of two faults the one that
is reported need not stand first: an unknown option is reported at once, even where an option before it still
lacks its value.
-/

namespace TypeSystem.Command

/-- Why arguments ask for nothing that is done. -/
inductive UsageError where
  /-- Help is asked for. -/
  | helpRequested
  /-- The version is asked for. -/
  | versionRequested
  /-- An option that there is not. -/
  | unknownOption
  /-- A command that there is not. -/
  | unknownCommand
  /-- An option without a value, or an empty path. -/
  | invalidValue
  /-- A flag with a value. -/
  | unexpectedValue
  /-- A second time what may stand once. -/
  | repeated
  /-- No path to validate. -/
  | missingPath
deriving DecidableEq, Repr

namespace UsageError

/-- The exit code: asking for help or for the version is no failure. -/
def exitCode : UsageError → Nat
  | helpRequested | versionRequested => 0
  | _ => 2

end UsageError

/-! ### Single arguments -/

/-- The form of an argument. -/
inductive Form where
  /-- Two hyphens: no option comes after this. -/
  | separator
  /-- Two hyphens and a name, with a value after an equals sign. -/
  | long (name : String) (value : Option String)
  /-- A hyphen and letters. -/
  | short (letters : List Char)
  /-- Anything else. -/
  | word
deriving DecidableEq, Repr

namespace Form

/-- What follows the first equals sign. -/
def valueOf (cs : List Char) : Option String :=
  match cs.dropWhile (· ≠ '=') with
  | [] => none
  | _ :: value => some (String.ofList value)

/-- The form of an argument. -/
def of (argument : String) : Form :=
  match argument.toList with
  | ['-', '-'] => .separator
  | '-' :: '-' :: cs => .long (String.ofList (cs.takeWhile (· ≠ '='))) (valueOf cs)
  | '-' :: c :: cs => .short (c :: cs)
  | _ => .word

end Form

/-! ### The command `validate` -/

/-- What `validate` is to do. -/
structure ValidateOptions where
  /-- Where to look for files. -/
  paths : List String
  /-- The extensions of the files to look for, as given. -/
  extensions : List String
  /-- Where to write the schema. -/
  output : Option String
deriving DecidableEq, Repr

/-- What a value is for. -/
inductive Slot where
  | output
  | extensions
  | path
deriving DecidableEq, Repr

namespace Slot

/-- The option of a given name. -/
def ofName? (name : String) : Option Slot :=
  if name = "emit-schema" then some output
  else if name = "graphql-file-exts" then some extensions
  else none

end Slot

/-- Values that are not yet checked. -/
structure Pending where
  slot : Slot
  values : List String
deriving DecidableEq, Repr

/-- What has been read of the arguments of `validate`. -/
structure Collected where
  output : Option String
  extensions : Option (List String)
  paths : List String
  pending : Option Pending
deriving DecidableEq, Repr

namespace Collected

/-- Before the first argument. -/
def none : Collected := ⟨.none, .none, [], .none⟩

/-- The parts of a list between commas. -/
def commaParts (value : String) : List String :=
  (Text.split ',' value.toList).map String.ofList

/-- Checks values and keeps them. -/
def keep (c : Collected) (p : Pending) : Except UsageError Collected :=
  if p.values = [] then .error .invalidValue
  else
    match p.slot with
    | .output =>
      if c.output.isSome then .error .repeated
      else if p.values.contains "" then .error .invalidValue
      else .ok { c with output := p.values.head? }
    | .extensions =>
      .ok { c with extensions := some (c.extensions.getD [] ++ p.values.flatMap commaParts) }
    | .path =>
      if p.values.contains "" then .error .invalidValue
      else .ok { c with paths := c.paths ++ p.values }

/-- Checks the values that are pending. -/
def settle (c : Collected) : Except UsageError Collected :=
  match c.pending with
  | .none => .ok c
  | some p => keep { c with pending := .none } p

/-- One more path. -/
def addPath (c : Collected) (path : String) : Except UsageError Collected :=
  match c.pending with
  | some ⟨.path, values⟩ => .ok { c with pending := some ⟨.path, values ++ [path]⟩ }
  | _ => do return { (← c.settle) with pending := some ⟨.path, [path]⟩ }

/-- An argument that is no option: the value that is waited for, or one more path. -/
def addWord (c : Collected) (word : String) : Except UsageError Collected :=
  match c.pending with
  | some ⟨.output, []⟩ => .ok { c with pending := some ⟨.output, [word]⟩ }
  | some ⟨.extensions, []⟩ => .ok { c with pending := some ⟨.extensions, [word]⟩ }
  | _ => c.addPath word

/-- An option, with its value if that is part of the argument. -/
def addOption (c : Collected) (slot : Slot) (value : Option String) :
    Except UsageError Collected := do
  let settled ← c.settle
  match value with
  | some v => settled.keep ⟨slot, [v]⟩
  | .none => return { settled with pending := some ⟨slot, []⟩ }

/-- A request for help, which is granted if what came before is in order. -/
def askHelp (c : Collected) : UsageError :=
  match c.settle with
  | .ok _ => .helpRequested
  | .error e => e

/-- Reads arguments up to the end. -/
def readAll (c : Collected) : List String → Except UsageError Collected
  | [] => c.settle
  | argument :: arguments =>
    match Form.of argument with
    | .separator => do (← arguments.foldlM addPath c).settle
    | .long name value =>
      match Slot.ofName? name with
      | some slot => do (← c.addOption slot value).readAll arguments
      | .none =>
        if name ≠ "help" then .error .unknownOption
        else if value.isSome then .error .unexpectedValue
        else .error c.askHelp
    | .short letters => .error (if letters.head? = some 'h' then c.askHelp else .unknownOption)
    | .word => do (← c.addWord argument).readAll arguments

end Collected

namespace ValidateOptions

/-- The extensions looked for where none are given. -/
def defaultExtensions : List String := ["graphql", "graphqls"]

/-- What the arguments after `validate` ask for. -/
def read (arguments : List String) : Except UsageError ValidateOptions := do
  let c ← Collected.none.readAll arguments
  if c.paths = [] then throw .missingPath
  return ⟨c.paths, c.extensions.getD defaultExtensions, c.output⟩

end ValidateOptions

/-! ### All arguments -/

/-- What is to be done. -/
inductive Request where
  /-- Only to say what there is. -/
  | overview (verbose : Bool)
  | validate (verbose : Bool) (options : ValidateOptions)
deriving DecidableEq, Repr

namespace Request

/-- The names of the commands. -/
def commands : List String := ["validate", "help"]

/-- What `help` with some topics comes to. A topic is a command, and no command has commands of its own. -/
def helpOn : List String → UsageError
  | [] => .helpRequested
  | [topic] => if commands.contains topic then .helpRequested else .unknownCommand
  | _ => .unknownCommand

/-- Flags in letters. -/
def readLetters (verbose : Bool) : List Char → Except UsageError Bool
  | [] => .ok verbose
  | 'v' :: letters => if verbose then .error .repeated else readLetters true letters
  | 'h' :: _ => .error .helpRequested
  | 'V' :: _ => .error .versionRequested
  | _ => .error .unknownOption

/-- The letter of a flag by its name. -/
def letter? (name : String) : Option Char :=
  [("verbose", 'v'), ("help", 'h'), ("version", 'V')].lookup name

/-- Reads arguments, with or without `verbose` before them. -/
def readFrom (verbose : Bool) : List String → Except UsageError Request
  | [] => .ok (.overview verbose)
  | argument :: arguments =>
    if argument = "validate" then .validate verbose <$> ValidateOptions.read arguments
    else if argument = "help" then .error (helpOn arguments)
    else
      match Form.of argument with
      | .separator =>
        match arguments with
        | [] => .ok (.overview verbose)
        | word :: _ => .error (if commands.contains word then .unknownOption else .unknownCommand)
      | .long name value =>
        match letter? name, value with
        | none, _ => .error .unknownOption
        | some _, some _ => .error .unexpectedValue
        | some letter, none => do readFrom (← readLetters verbose [letter]) arguments
      | .short letters => do readFrom (← readLetters verbose letters) arguments
      | .word => .error .unknownCommand

/-- What arguments ask for. -/
def read (arguments : List String) : Except UsageError Request := readFrom false arguments

end Request

end TypeSystem.Command
