import TypeSystem.Schema.Builtin
import TypeSystem.Schema.DirectiveRules
import TypeSystem.Schema.Roots

/-!
# Schemas

A schema is what a document means once it has been found to keep the rules: the built-in definitions and
its own, with their extensions folded in, and its root types. Building goes step by step, and the first
step that fails gives the error: read the sources, index the definitions, apply the extensions, find the
root types, check the directives.
-/

namespace TypeSystem

/-- The definitions of a document that keeps the rules. -/
structure Schema where
  roots : RootTypes
  types : Table String TypeDefinition
  directives : Table String DirectiveDefinition
deriving DecidableEq, Repr

/-- Why sources make no schema. -/
inductive BuildError where
  /-- A source is not a document. -/
  | unreadable (error : ParseError)
  /-- The document breaks a rule. -/
  | invalid (error : ValidationError)
deriving DecidableEq, Repr

namespace BuildError

/-- The error in one line. -/
def message : BuildError → String
  | unreadable e => e.oneLine
  | invalid e => e.message

end BuildError

namespace Schema

/-- The schema of a document. -/
def ofDocument (document : Document) : Except ValidationError Schema := do
  let whole := Builtin.document.merge [document]
  let definitions ← Definitions.build whole.types whole.directives
  let extended ← (definitions.extendAll whole.typeExtensions).result
  let roots ← extended.resolveRoots whole.schemas whole.schemaExtensions
  extended.checkDirectives
  return ⟨roots, extended.types, extended.directives⟩

/-- The documents of sources, in order; the first source that is none gives the error. -/
def readAll (sources : List Source) : Except ParseError (List Document) :=
  sources.mapM Document.ofSource

/-- The schema of sources, put together in order. -/
def ofSources (sources : List Source) : Except BuildError Schema :=
  match readAll sources with
  | .error e => .error (.unreadable e)
  | .ok documents => (ofDocument (.mergeAll documents)).mapError .invalid

/-- The type of a given name. -/
def type? (schema : Schema) (name : String) : Option TypeDefinition := schema.types.find? name

/-- The directive of a given name. -/
def directive? (schema : Schema) (name : String) : Option DirectiveDefinition :=
  schema.directives.find? name

/-- The root type of an operation, if it is an object type of the schema. -/
def root? (schema : Schema) (operation : Operation) : Option TypeDefinition :=
  ((schema.roots.get operation).bind schema.type?).filter fun type ↦ type.kind = .object

end Schema

end TypeSystem
