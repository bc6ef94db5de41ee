import TypeSystem.Schema.Reference

/-!
# Rules for directive definitions

A directive and its arguments must not have reserved names; an argument's type must be defined and must
be one that can be given as an argument; and no directive may be used in its own definition, at a place
where it may be applied. The rules are tried in this order, definition by definition and argument by
argument, and the first one broken is reported.
-/

namespace TypeSystem

/-- Whether a name is kept for introspection. -/
def isReserved (name : String) : Bool :=
  "__".toList.isPrefixOf name.toList

namespace TypeKind

/-- The locations on a type of this kind, and on its members, that an argument of it brings along. -/
def locations : TypeKind → List DirectiveLocation
  | scalar => [.scalar]
  | enum => [.enum, .enumValue]
  | inputObject => [.inputObject, .inputFieldDefinition]
  | object | interface | union => []

end TypeKind

namespace Definitions

/-- Whether a directive may be applied on a type of a kind or on its members. -/
def covers (directive : DirectiveDefinition) (kind : TypeKind) : Bool :=
  kind.locations.any directive.allows

/-- The way from an argument's type to a use of the directive, looked for only if the directive may be
applied there. -/
def typeCycle? (d : Definitions) (directive : DirectiveDefinition) (type : TypeDefinition) :
    Option (List String) :=
  if covers directive type.kind then d.pathFromType directive.name type else none

/-- The way from the directives on an argument to a use of the directive, looked for only if the directive
may be applied to arguments. -/
def argumentCycle? (d : Definitions) (directive : DirectiveDefinition)
    (argument : InputValueDefinition) : Option (List String) :=
  if directive.allows .argumentDefinition then
    d.pathFromApplied directive.name argument.directives
  else none

/-- The first rule that an argument of a directive breaks. -/
def argumentError? (d : Definitions) (directive : DirectiveDefinition)
    (argument : InputValueDefinition) : Option ValidationError :=
  if isReserved argument.name then
    some (.reservedArgument directive.name argument.name argument.span)
  else
    let typeName := argument.type.innermostName
    match d.type? typeName with
    | none => some (.undefinedArgumentType directive.name argument.name typeName argument.span)
    | some type =>
      if !type.kind.isInput then
        some (.outputArgumentType directive.name argument.name typeName type.kind argument.span)
      else
        ((d.typeCycle? directive type).or (d.argumentCycle? directive argument)).map fun path ↦
          .selfReference directive.name argument.name path directive.span

/-- The first rule that a directive breaks. -/
def directiveError? (d : Definitions) (directive : DirectiveDefinition) : Option ValidationError :=
  if isReserved directive.name then some (.reservedDirective directive.name directive.span)
  else directive.arguments.findSome? (d.argumentError? directive)

/-- Checks every directive, in order. -/
def checkDirectives (d : Definitions) : Except ValidationError Unit :=
  match d.directives.values.findSome? d.directiveError? with
  | some e => .error e
  | none => .ok ()

end Definitions

end TypeSystem
