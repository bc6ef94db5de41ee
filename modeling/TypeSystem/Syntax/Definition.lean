import TypeSystem.Syntax.DirectiveLocation
import TypeSystem.Syntax.Operation
import TypeSystem.Syntax.TypeReference
import TypeSystem.Text.Span

/-!
# Definitions

The nodes of a document. A type is defined, and a defined type is extended, in one of six kinds, and a
definition and an extension of one kind hold the same members; `TypeBody` is those members, so that
extending a type is joining two bodies of one kind.

Default values, argument values and descriptions are kept as they are written, quotes included.
-/

namespace TypeSystem

/-! ### Directives where they are applied -/

/-- One `name: value` of an applied directive. -/
structure Argument where
  name : String
  /-- The value as written. -/
  value : String
deriving DecidableEq, Repr

/-- A directive applied somewhere, such as `@deprecated(reason: "use id")`. -/
structure AppliedDirective where
  /-- The name, without the sign before it. -/
  name : String
  arguments : List Argument
  span : Span
deriving DecidableEq, Repr

/-- The value of the first argument of a given name. -/
def AppliedDirective.argument? (directive : AppliedDirective) (name : String) : Option String :=
  (directive.arguments.find? fun argument ↦ argument.name = name).map Argument.value

/-! ### Members of types -/

/-- An argument of a field or directive, or a field of an input object. -/
structure InputValueDefinition where
  description : Option String
  name : String
  type : TypeReference
  /-- The default value as written. -/
  defaultValue : Option String
  directives : List AppliedDirective
  span : Span
deriving DecidableEq, Repr

/-- A field of an object or interface. -/
structure FieldDefinition where
  description : Option String
  name : String
  arguments : List InputValueDefinition
  type : TypeReference
  directives : List AppliedDirective
  span : Span
deriving DecidableEq, Repr

/-- One value of an enum. -/
structure EnumValueDefinition where
  description : Option String
  name : String
  directives : List AppliedDirective
  span : Span
deriving DecidableEq, Repr

/-! ### Types -/

/-- The kinds of named types. -/
inductive TypeKind where
  | scalar
  | object
  | interface
  | union
  | enum
  | inputObject
deriving DecidableEq, Repr

namespace TypeKind

/-- Every kind of type. -/
def all : List TypeKind := [scalar, object, interface, union, enum, inputObject]

/-- Whether values of the kind may be given as arguments. -/
def isInput : TypeKind → Bool
  | scalar | enum | inputObject => true
  | object | interface | union => false

/-- The word that begins a definition of the kind. -/
def keyword : TypeKind → String
  | scalar => "scalar"
  | object => "type"
  | interface => "interface"
  | union => "union"
  | enum => "enum"
  | inputObject => "input"

/-- The kind that a word begins a definition of. -/
def ofKeyword? (text : String) : Option TypeKind :=
  all.find? fun kind ↦ kind.keyword = text

/-- The kind as a message names it. -/
def display : TypeKind → String
  | scalar => "scalar"
  | object => "object"
  | interface => "interface"
  | union => "union"
  | enum => "enum"
  | inputObject => "input object"

theorem mem_all (kind : TypeKind) : kind ∈ all := by
  cases kind <;> decide

theorem ofKeyword?_keyword (kind : TypeKind) : ofKeyword? kind.keyword = some kind := by
  cases kind <;> decide

theorem keyword_of_ofKeyword? {text : String} {kind : TypeKind} (h : ofKeyword? text = some kind) :
    kind.keyword = text := by
  simpa using List.find?_some h

end TypeKind

/-- The members of a type, or those that an extension adds. -/
inductive TypeBody where
  | scalar
  | object (interfaces : List String) (fields : List FieldDefinition)
  | interface (interfaces : List String) (fields : List FieldDefinition)
  | union (members : List String)
  | enum (values : List EnumValueDefinition)
  | inputObject (fields : List InputValueDefinition)
deriving DecidableEq, Repr

namespace TypeBody

/-- The kind of type that has such members. -/
def kind : TypeBody → TypeKind
  | scalar => .scalar
  | object _ _ => .object
  | interface _ _ => .interface
  | union _ => .union
  | enum _ => .enum
  | inputObject _ => .inputObject

/-- Whether there are no members. -/
def isEmpty : TypeBody → Bool
  | scalar => true
  | object interfaces fields | interface interfaces fields => interfaces.isEmpty && fields.isEmpty
  | union members => members.isEmpty
  | enum values => values.isEmpty
  | inputObject fields => fields.isEmpty

/-- The members of two bodies of one kind, the second after the first. -/
def append? : TypeBody → TypeBody → Option TypeBody
  | scalar, scalar => some scalar
  | object i f, object j g => some (object (i ++ j) (f ++ g))
  | interface i f, interface j g => some (interface (i ++ j) (f ++ g))
  | union m, union n => some (union (m ++ n))
  | enum v, enum w => some (enum (v ++ w))
  | inputObject f, inputObject g => some (inputObject (f ++ g))
  | _, _ => none

/-- Bodies join exactly if they are of one kind. -/
theorem append?_isSome (a b : TypeBody) : (a.append? b).isSome ↔ a.kind = b.kind := by
  cases a <;> cases b <;> simp [append?, kind]

end TypeBody

/-- The definition of a type. -/
structure TypeDefinition where
  description : Option String
  name : String
  directives : List AppliedDirective
  body : TypeBody
  span : Span
deriving DecidableEq, Repr

/-- The kind of the type defined. -/
def TypeDefinition.kind (definition : TypeDefinition) : TypeKind := definition.body.kind

/-- An addition to a type defined elsewhere. -/
structure TypeExtension where
  name : String
  directives : List AppliedDirective
  body : TypeBody
  span : Span
deriving DecidableEq, Repr

/-- The kind of type that the extension adds to. -/
def TypeExtension.kind (ext : TypeExtension) : TypeKind := ext.body.kind

/-! ### Schemas and directives -/

/-- A schema block. -/
structure SchemaDefinition where
  description : Option String
  directives : List AppliedDirective
  roots : RootTypes
  span : Span
deriving DecidableEq, Repr

/-- An addition to the schema block. -/
structure SchemaExtension where
  directives : List AppliedDirective
  roots : RootTypes
  span : Span
deriving DecidableEq, Repr

/-- The definition of a directive. -/
structure DirectiveDefinition where
  description : Option String
  /-- The name, without the sign before it. -/
  name : String
  arguments : List InputValueDefinition
  repeatable : Bool
  /-- Where the directive may be applied, in the order written. -/
  locations : List DirectiveLocation
  span : Span
deriving DecidableEq, Repr

/-- Whether a directive may be applied at a location. -/
def DirectiveDefinition.allows (definition : DirectiveDefinition) (location : DirectiveLocation) :
    Bool :=
  definition.locations.contains location

end TypeSystem
