import TypeSystem.Schema.Definitions

/-!
# Root types of a schema

The schema block declares the root types. Without one, object types named `Query`, `Mutation` and
`Subscription` are root types where they exist. Schema extensions then declare further ones, and may not
declare one that is there. In the end every declared name must be that of an object type.
-/

namespace TypeSystem

/-- A root type declared by a schema block, an extension, or the name of a type. -/
structure RootDeclaration where
  operation : Operation
  /-- The name of the type. -/
  type : String
  /-- Where it is declared. -/
  span : Span
deriving DecidableEq, Repr

namespace RootTypes

/-- The declarations of a block, in the order of the operations. -/
def declarations (roots : RootTypes) (span : Span) : List RootDeclaration :=
  Operation.all.filterMap fun operation ↦
    (roots.get operation).map fun type ↦ ⟨operation, type, span⟩

/-- The root types that a list of declarations makes. -/
def ofDeclarations (declared : List RootDeclaration) : RootTypes :=
  declared.foldl (fun roots d ↦ roots.set d.operation d.type) .none

end RootTypes

namespace Definitions

/-- The object type of a given name. -/
def object? (d : Definitions) (name : String) : Option TypeDefinition :=
  (d.type? name).filter fun type ↦ type.kind = .object

/-- The root types that go by their names alone. -/
def defaultDeclarations (d : Definitions) : List RootDeclaration :=
  Operation.all.filterMap fun operation ↦
    (d.object? operation.defaultTypeName).map fun type ↦ ⟨operation, type.name, type.span⟩

/-- The declarations that the extensions add to. -/
def baseDeclarations (d : Definitions) : List SchemaDefinition → List RootDeclaration
  | [] => d.defaultDeclarations
  | schema :: _ => schema.roots.declarations schema.span

/-- Declarations one after another; none may repeat the operation of an earlier one. -/
def declareAll (declared : List RootDeclaration) :
    List RootDeclaration → Except ValidationError (List RootDeclaration)
  | [] => .ok declared
  | d :: ds =>
    if declared.any fun earlier ↦ earlier.operation = d.operation then
      .error (.duplicateRoot d.operation d.span)
    else declareAll (declared ++ [d]) ds

/-- The first declaration whose type is not an object type. -/
def badDeclaration? (d : Definitions) (declared : List RootDeclaration) : Option RootDeclaration :=
  declared.find? fun declaration ↦ (d.object? declaration.type).isNone

/-- The root types of a schema. -/
def resolveRoots (d : Definitions) (schemas : List SchemaDefinition)
    (extensions : List SchemaExtension) : Except ValidationError RootTypes :=
  match schemas with
  | first :: second :: _ => .error (.duplicateSchema first.span second.span)
  | _ => do
    let added := extensions.flatMap fun ext ↦ ext.roots.declarations ext.span
    let declared ← declareAll (d.baseDeclarations schemas) added
    match d.badDeclaration? declared with
    | some bad => .error (.undefinedRoot bad.operation bad.type bad.span)
    | none => .ok (.ofDeclarations declared)

end Definitions

end TypeSystem
