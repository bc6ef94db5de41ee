import TypeSystem.Table
import TypeSystem.Schema.ValidationError

/-!
# Tables of definitions

The types and directives of a schema by name, each table in the order of the definitions. A name may be
defined once; an extension adds to a type that is there, of its own kind, and leaves the name, kind,
description and span of that type as they are.

Changes are made one after another, up to the first that fails. What was changed before that stays
changed, so a run of changes ends in a `Progress`: the tables reached, and what went wrong.
-/

namespace TypeSystem

/-- The types and directives of a schema by name. -/
structure Definitions where
  types : Table String TypeDefinition
  directives : Table String DirectiveDefinition
deriving DecidableEq, Repr

/-- How far a run of changes came. -/
structure Progress where
  /-- The tables reached. -/
  definitions : Definitions
  /-- What ended the run early, if anything did. -/
  error : Option ValidationError
deriving DecidableEq, Repr

namespace Progress

/-- The tables of a run that nothing ended early. -/
def result (p : Progress) : Except ValidationError Definitions :=
  match p.error with
  | none => .ok p.definitions
  | some e => .error e

end Progress

/-- The type with what an extension of its kind adds. -/
def TypeDefinition.extend? (base : TypeDefinition) (ext : TypeExtension) : Option TypeDefinition :=
  (base.body.append? ext.body).map fun body ↦
    { base with directives := base.directives ++ ext.directives, body := body }

namespace Definitions

/-- The tables without definitions. -/
def empty : Definitions := ⟨.empty, .empty⟩

/-- The type of a given name. -/
def type? (d : Definitions) (name : String) : Option TypeDefinition := d.types.find? name

/-- The directive of a given name. -/
def directive? (d : Definitions) (name : String) : Option DirectiveDefinition :=
  d.directives.find? name

/-- One more type. -/
def addType (d : Definitions) (type : TypeDefinition) : Except ValidationError Definitions :=
  match d.type? type.name with
  | some first => .error (.duplicateType type.name first.span type.span)
  | none => .ok { d with types := d.types.push type.name type }

/-- One more directive. -/
def addDirective (d : Definitions) (directive : DirectiveDefinition) :
    Except ValidationError Definitions :=
  match d.directive? directive.name with
  | some first => .error (.duplicateDirective directive.name first.span directive.span)
  | none => .ok { d with directives := d.directives.push directive.name directive }

/-- A type with what an extension adds. -/
def extend (d : Definitions) (ext : TypeExtension) : Except ValidationError Definitions :=
  match d.type? ext.name with
  | none => .error (.undefinedExtension ext.name ext.span)
  | some base =>
    match base.extend? ext with
    | none => .error (.mismatchedExtension ext.name base.kind ext.kind ext.span)
    | some type => .ok { d with types := d.types.replace ext.name type }

/-- Changes one after another, up to the first that fails. -/
def change {α : Type} (step : Definitions → α → Except ValidationError Definitions)
    (d : Definitions) : List α → Progress
  | [] => ⟨d, none⟩
  | a :: as =>
    match step d a with
    | .ok d' => change step d' as
    | .error e => ⟨d, some e⟩

/-- All the types of a list, then all the directives of another. -/
def add (d : Definitions) (types : List TypeDefinition) (directives : List DirectiveDefinition) :
    Progress :=
  match d.change addType types with
  | ⟨d', none⟩ => d'.change addDirective directives
  | stopped => stopped

/-- The tables of a list of types and a list of directives. -/
def build (types : List TypeDefinition) (directives : List DirectiveDefinition) :
    Except ValidationError Definitions :=
  (empty.add types directives).result

/-- Extensions in order. -/
def extendAll (d : Definitions) (extensions : List TypeExtension) : Progress :=
  d.change extend extensions

end Definitions

end TypeSystem
