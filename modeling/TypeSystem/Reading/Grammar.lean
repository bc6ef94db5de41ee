import TypeSystem.Reading.Parser
import TypeSystem.Reading.Suggestion
import TypeSystem.Syntax.Document

/-!
# The grammar of documents

One parser for each kind of node. The next token alone decides which way to go, so nothing is ever
read twice. A node's span runs from the start of its first token to the end of its last one and carries
the name of the text, if it has one.

Definitions and extensions of a type share `typeBody`: they differ only in whether the members may be
left out, and an extension must add something.
-/

namespace TypeSystem.Parser

/-! ### Type references and values -/

/-- How many levels a type reference may have, the innermost name counted. -/
def maxLevels : Nat := 64

/-- The error of a type reference with too many levels. -/
def tooManyLevels (found : Token) : ParseError :=
  .plain ("type annotation nested more than " ++ toString maxLevels ++ " levels deep") found.span
    (.tooDeep maxLevels)

/-- The mark after a level of a type reference. -/
def nullability : Parser Nullability := do
  return if ← acceptMark .bang then .nonNull else .nullable

/-- A type reference of at most so many levels. -/
def typeReferenceWithin : Nat → Parser TypeReference
  | 0 => do fail (tooManyLevels (← peek))
  | levels + 1 => do
    if ← acceptMark .bracketOpen then
      let element ← typeReferenceWithin levels
      let _ ← requireMark .bracketClose
      return .list element (← nullability)
    else
      let name ← name "a type"
      return .named name (← nullability)

/-- A type reference. -/
def typeReference : Parser TypeReference := typeReferenceWithin maxLevels

/-- A value, as it is written. -/
def value (expected : String) : Parser String := do
  let token ← next
  match token.kind.value? with
  | some text => return text
  | none => fail (misfit token [expected])

/-! ### Names of locations and operations -/

/-- The error of a location that does not exist, with the nearest one that does. -/
def unknownLocation (name : String) (span : Span) : ParseError :=
  let error := ParseError.plain ("unknown directive location `" ++ name ++ "`") span
    (.unknownLocation name)
  let helped := match DirectiveLocation.suggestion? name with
    | some location => error.addNote .help ("did you mean `" ++ location.name ++ "`?")
    | none => error
  helped.addNote .spec "https://spec.graphql.org/September2025/#DirectiveLocations"

/-- The error cites the name, and of its notes only the help depends on which location is near. -/
theorem unknownLocation_eq (name : String) (span : Span) : unknownLocation name span =
    ⟨"unknown directive location `" ++ name ++ "`", span, .unknownLocation name,
      ((DirectiveLocation.suggestion? name).map fun location ↦
          ⟨.help, "did you mean `" ++ location.name ++ "`?", none⟩).toList ++
        [⟨.spec, "https://spec.graphql.org/September2025/#DirectiveLocations", none⟩]⟩ := by
  unfold unknownLocation
  cases DirectiveLocation.suggestion? name <;> rfl

/-- The name of a location. -/
def directiveLocation : Parser DirectiveLocation := do
  let (name, span) ← requireName "a directive location"
  match DirectiveLocation.ofName? name with
  | some location => return location
  | none => fail (unknownLocation name span)

/-- One more root type, unless the block ends. -/
def rootType (roots : RootTypes) : Parser (Option RootTypes) :=
  unlessMark .braceClose do
    let (keyword, span) ← requireName "`query`, `mutation` or `subscription`"
    match Operation.ofKeyword? keyword with
    | none =>
      fail (.plain ("unknown root operation `" ++ keyword ++ "`") span (.unknownOperation keyword))
    | some operation =>
      if (roots.get operation).isSome then
        fail (.plain ("root operation `" ++ keyword ++ "` is declared more than once") span
          (.repeatedOperation keyword))
      else
        let _ ← requireMark .colon
        return roots.set operation (← name "a root operation type name")

/-- The block of root types. -/
def rootTypes : Parser RootTypes :=
  enclosed .braces "schema root operation block" (iterate rootType .none)

section Nodes

variable (source : Option String)

/-- The span of a node that began at `start` and ends here. -/
def spanFrom (start : Position) : Parser Span := do
  return ⟨start, ← lastEnd, source⟩

/-! ### Applied directives -/

/-- One argument of an applied directive. -/
def argument : Parser Argument := do
  let name ← name "an argument name"
  let _ ← requireMark .colon
  return ⟨name, ← value "an argument value"⟩

/-- An applied directive. -/
def appliedDirective : Parser AppliedDirective := do
  let start ← here
  let _ ← requireMark .atSign
  let name ← name "a directive name"
  let arguments ← optionalBlock .parens "directive argument list" argument
  return ⟨name, arguments, ← spanFrom source start⟩

/-- All directives applied at a place. -/
def appliedDirectives : Parser (List AppliedDirective) :=
  many do
    if ← peekIs (.punctuator .atSign) then return some (← appliedDirective source) else return none

/-! ### Members -/

/-- An argument of a field or directive, or a field of an input object. -/
def inputValue : Parser InputValueDefinition := do
  let start ← here
  let description ← description?
  let name ← name "an argument or input field name"
  let _ ← requireMark .colon
  let type ← typeReference
  let defaultValue ← afterMark .equals (value "a default value")
  let directives ← appliedDirectives source
  return ⟨description, name, type, defaultValue, directives, ← spanFrom source start⟩

/-- The arguments of a field or directive, if it has any. -/
def arguments : Parser (List InputValueDefinition) :=
  optionalBlock .parens "argument list" (inputValue source)

/-- A field of an object or interface. -/
def field : Parser FieldDefinition := do
  let start ← here
  let description ← description?
  let name ← name "a field name"
  let arguments ← arguments source
  let _ ← requireMark .colon
  let type ← typeReference
  let directives ← appliedDirectives source
  return ⟨description, name, arguments, type, directives, ← spanFrom source start⟩

/-- The names that no enum value may have. -/
def reservedValues : List String := ["true", "false", "null"]

/-- One value of an enum. -/
def enumValue : Parser EnumValueDefinition := do
  let start ← here
  let description ← description?
  let (name, span) ← requireName "an enum value"
  if reservedValues.contains name then
    fail (.plain ("`" ++ name ++ "` cannot be used as an enum value") span
      (.unexpectedToken ["an enum value"] ("name `" ++ name ++ "`")))
  else
    let directives ← appliedDirectives source
    return ⟨description, name, directives, ← spanFrom source start⟩

/-- The interfaces that a type implements. -/
def implemented : Parser (List String) := do
  if ← acceptKeyword "implements" then separated .ampersand (name "an interface name")
  else return []

/-- The member types of a union. -/
def unionMembers : Parser (List String) :=
  separated .pipe (name "a union member type")

/-! ### Types -/

/-- What the name of a type is called where it is missing. -/
def typeNameWanted : TypeKind → String
  | .scalar => "a scalar name"
  | .object => "an object type name"
  | .interface => "an interface name"
  | .union => "a union name"
  | .enum => "an enum name"
  | .inputObject => "an input object name"

/-- Members between braces, which may be missing from an extension only. -/
def members {α : Type} (mayLack : Bool) (construct : String) (item : Parser α) : Parser (List α) :=
  if mayLack then optionalBlock .braces construct item else block .braces construct item

/-- The directives and members of a type, after its name. -/
def typeBody (mayLack : Bool) : TypeKind → Parser (List AppliedDirective × TypeBody)
  | .scalar => do
    return (← appliedDirectives source, .scalar)
  | .object => do
    let interfaces ← implemented
    let directives ← appliedDirectives source
    let fields ← members mayLack "fields block" (field source)
    return (directives, .object interfaces fields)
  | .interface => do
    let interfaces ← implemented
    let directives ← appliedDirectives source
    let fields ← members mayLack "fields block" (field source)
    return (directives, .interface interfaces fields)
  | .union => do
    let directives ← appliedDirectives source
    if mayLack then
      let members ← afterMark .equals unionMembers
      return (directives, .union (members.getD []))
    else
      let _ ← requireMark .equals
      return (directives, .union (← unionMembers))
  | .enum => do
    let directives ← appliedDirectives source
    let values ← members mayLack "enum values block" (enumValue source)
    return (directives, .enum values)
  | .inputObject => do
    let directives ← appliedDirectives source
    let fields ← members mayLack "input fields block" (inputValue source)
    return (directives, .inputObject fields)

/-- The definition of a type, from its keyword on. -/
def typeDefinition (kind : TypeKind) (description : Option String) (start : Position) :
    Parser TypeDefinition := do
  let _ ← requireKeyword kind.keyword
  let name ← name (typeNameWanted kind)
  let (directives, body) ← typeBody source false kind
  return ⟨description, name, directives, body, ← spanFrom source start⟩

/-- Fails because an extension adds nothing. -/
def emptyExtension {α : Type} (start : Position) (kind requirement : String) : Parser α := do
  fail (.plain ("`extend " ++ kind ++ "` must add at least one " ++ requirement)
    (← spanFrom source start) (.emptyExtension kind requirement))

/-- What an extension of a type may add. -/
def extensionRequirement : TypeKind → String
  | .scalar => "directive"
  | .object | .interface => "implemented interface, directive or field"
  | .union => "directive or member type"
  | .enum => "directive or value"
  | .inputObject => "directive or field"

/-- The extension of a type, from the keyword of its kind on. -/
def typeExtension (kind : TypeKind) (start : Position) : Parser TypeExtension := do
  let _ ← requireKeyword kind.keyword
  let name ← name (typeNameWanted kind)
  let (directives, body) ← typeBody source true kind
  if directives.isEmpty && body.isEmpty then
    emptyExtension source start kind.keyword (extensionRequirement kind)
  else
    return ⟨name, directives, body, ← spanFrom source start⟩

/-! ### Directives and schemas -/

/-- The definition of a directive, from its keyword on. -/
def directiveDefinition (description : Option String) (start : Position) :
    Parser DirectiveDefinition := do
  let _ ← requireKeyword "directive"
  let _ ← requireMark .atSign
  let name ← name "a directive name"
  let arguments ← arguments source
  let repeatable ← acceptKeyword "repeatable"
  let _ ← requireKeyword "on"
  let locations ← separated .pipe directiveLocation
  return ⟨description, name, arguments, repeatable, locations, ← spanFrom source start⟩

/-- A schema block, from its keyword on. -/
def schemaDefinition (description : Option String) (start : Position) :
    Parser SchemaDefinition := do
  let _ ← requireKeyword "schema"
  let directives ← appliedDirectives source
  let roots ← rootTypes
  return ⟨description, directives, roots, ← spanFrom source start⟩

/-- The extension of a schema, from its keyword on. -/
def schemaExtension (start : Position) : Parser SchemaExtension := do
  let _ ← requireKeyword "schema"
  let directives ← appliedDirectives source
  if ← peekIs (.punctuator .braceOpen) then
    let roots ← rootTypes
    return ⟨directives, roots, ← spanFrom source start⟩
  else if directives.isEmpty then
    emptyExtension source start "schema" "directive or root operation type"
  else
    return ⟨directives, .none, ← spanFrom source start⟩

/-! ### Documents -/

/-- The words that may follow `extend`. -/
def extensible : List String :=
  ["`type`", "`interface`", "`union`", "`enum`", "`input`", "`scalar`", "`schema`"]

/-- The name that comes next, or an empty text if something else does. -/
def peekName : Parser String := do
  match (← peek).kind with
  | .name text => return text
  | _ => return ""

/-- An extension, from `extend` on. -/
def extension (start : Position) : Parser Definition := do
  let _ ← requireKeyword "extend"
  let keyword ← peekName
  match TypeKind.ofKeyword? keyword with
  | some kind => return .typeExtension (← typeExtension source kind start)
  | none =>
    if keyword = "schema" then return .schemaExtension (← schemaExtension source start)
    else unexpected extensible

/-- The words that begin a request rather than a definition. -/
def executableKeywords : List String := ["query", "mutation", "subscription", "fragment"]

/-- The error of a name that begins no definition. -/
def unknownKeyword (keyword : String) (span : Span) : ParseError :=
  let error := ParseError.plain ("`" ++ keyword ++ "` does not start a type-system definition") span
    (.unknownKeyword keyword)
  if executableKeywords.contains keyword then
    error.addNote .note "executable definitions are not allowed in a type-system document"
  else
    error.addNote .help ("expected one of `type`, `interface`, `union`, `enum`, `input`, " ++
      "`scalar`, `directive`, `schema` or `extend`")

/-- The error of an extension with a description in front. -/
def describedExtension (found : Token) : ParseError :=
  (misfit found ["a type-system definition"]).addNote .note "extensions cannot have a description"

/-- The item that a keyword begins. -/
def definitionOf (keyword : String) (description : Option String) (start : Position) :
    Parser Definition := do
  match TypeKind.ofKeyword? keyword with
  | some kind => return .type (← typeDefinition source kind description start)
  | none =>
    if keyword = "directive" then
      return .directive (← directiveDefinition source description start)
    else if keyword = "schema" then
      return .schema (← schemaDefinition source description start)
    else if keyword = "extend" then
      if description.isNone then extension source start
      else fail (describedExtension (← next))
    else
      fail (unknownKeyword keyword (← next).span)

/-- One more item, unless the input ends. -/
def definition : Parser (Option Definition) := do
  let start ← here
  let description ← description?
  match (← peek).kind with
  | .name keyword => return some (← definitionOf source keyword description start)
  | .endOfInput => if description.isNone then return none else unexpected ["a type-system definition"]
  | _ => unexpected ["a type-system definition"]

/-- A whole document. -/
def document : Parser Document := do
  return .ofDefinitions (← many (definition source))

end Nodes

end TypeSystem.Parser

namespace TypeSystem.Document

/-- The document that a list of tokens makes. Every span in it carries the name `source`. -/
def ofTokens (source : Option String) (tokens : List Token) : Except ParseError Document :=
  (Parser.document source (.ofTokens tokens)).1

end TypeSystem.Document
