/-!
# Directive locations

The places where a directive may be applied, under the names that a definition writes after `on`. The
order is that of the grammar; it decides between location names equally near to a misspelt one.
-/

namespace TypeSystem

/-- A kind of place where a directive may be applied. -/
inductive DirectiveLocation where
  | query
  | mutation
  | subscription
  | field
  | fragmentDefinition
  | fragmentSpread
  | inlineFragment
  | variableDefinition
  | schema
  | scalar
  | object
  | fieldDefinition
  | argumentDefinition
  | interface
  | union
  | enum
  | enumValue
  | inputObject
  | inputFieldDefinition
deriving DecidableEq, Repr

namespace DirectiveLocation

/-- Every location, in the order of the grammar. -/
def all : List DirectiveLocation :=
  [query, mutation, subscription, field, fragmentDefinition, fragmentSpread, inlineFragment,
    variableDefinition, schema, scalar, object, fieldDefinition, argumentDefinition, interface, union,
    enum, enumValue, inputObject, inputFieldDefinition]

/-- The name of a location. -/
def name : DirectiveLocation → String
  | query => "QUERY"
  | mutation => "MUTATION"
  | subscription => "SUBSCRIPTION"
  | field => "FIELD"
  | fragmentDefinition => "FRAGMENT_DEFINITION"
  | fragmentSpread => "FRAGMENT_SPREAD"
  | inlineFragment => "INLINE_FRAGMENT"
  | variableDefinition => "VARIABLE_DEFINITION"
  | schema => "SCHEMA"
  | scalar => "SCALAR"
  | object => "OBJECT"
  | fieldDefinition => "FIELD_DEFINITION"
  | argumentDefinition => "ARGUMENT_DEFINITION"
  | interface => "INTERFACE"
  | union => "UNION"
  | enum => "ENUM"
  | enumValue => "ENUM_VALUE"
  | inputObject => "INPUT_OBJECT"
  | inputFieldDefinition => "INPUT_FIELD_DEFINITION"

/-- The location of a given name. -/
def ofName? (text : String) : Option DirectiveLocation :=
  all.find? fun location ↦ location.name = text

/-- Whether the location is in a request rather than in a schema. -/
def isExecutable : DirectiveLocation → Bool
  | query | mutation | subscription | field | fragmentDefinition | fragmentSpread | inlineFragment
  | variableDefinition => true
  | _ => false

theorem mem_all (location : DirectiveLocation) : location ∈ all := by
  cases location <;> decide

theorem name_of_ofName? {text : String} {location : DirectiveLocation}
    (h : ofName? text = some location) : location.name = text := by
  simpa using List.find?_some h

theorem ofName?_name (location : DirectiveLocation) : ofName? location.name = some location := by
  cases location <;> decide

end DirectiveLocation

end TypeSystem
