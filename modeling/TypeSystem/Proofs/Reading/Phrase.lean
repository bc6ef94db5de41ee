import TypeSystem.Proofs.Syntax.Spans
import TypeSystem.Reading.Parser

/-!
# The language of documents

Which runs of tokens are documents, said without a parser: a `Phrase` is a set of runs, each with the
value that it stands for, and phrases are put together by sequence, choice and repetition. Nothing here
looks ahead, fails or decides between two ways to go on. A run may belong to a phrase in two ways, or stand
for two values; that this never happens for documents is a result about the parser.

A phrase sees what the tokens are and not where they stand, so it has no spans to give to its nodes: all of
them are blank. Whether a type reference may stand where one is wanted is left to a predicate `admits`.
-/

namespace TypeSystem

/-- A set of runs of tokens with the values that they stand for. -/
def Phrase (α : Type) : Type := List TokenKind → α → Prop

namespace Phrase

variable {α β : Type}

/-! ### Putting phrases together -/

/-- The empty run, for one value. -/
protected def pure (a : α) : Phrase α := fun ts b ↦ ts = [] ∧ b = a

/-- One phrase, then another that may depend on the value of the first. -/
protected def bind (P : Phrase α) (Q : α → Phrase β) : Phrase β := fun ts b ↦
  ∃ a front back, ts = front ++ back ∧ P front a ∧ Q a back b

instance : Monad Phrase where
  pure := Phrase.pure
  bind := Phrase.bind

/-- One phrase or the other. -/
instance : OrElse (Phrase α) := ⟨fun P Q ts a ↦ P ts a ∨ Q () ts a⟩

/-- One phrase of a family. -/
def oneOf {ι : Type} (P : ι → Phrase α) : Phrase α := fun ts a ↦ ∃ i, P i ts a

/-- The empty run, on a condition. -/
def given (condition : Prop) : Phrase Unit := fun ts _ ↦ ts = [] ∧ condition

/-- Whether a phrase is there. -/
def present (P : Phrase Unit) : Phrase Bool := (do P; return true) <|> pure false

/-- A phrase any number of times. -/
inductive Many (P : Phrase α) : List TokenKind → List α → Prop where
  | nil : Many P [] []
  | cons {front back : List TokenKind} {a : α} {as : List α} (first : P front a)
      (others : Many P back as) : Many P (front ++ back) (a :: as)

/-- A phrase any number of times. -/
def many (P : Phrase α) : Phrase (List α) := Many P

/-- A phrase at least once. -/
def several (P : Phrase α) : Phrase (List α) := fun ts as ↦ Many P ts as ∧ as ≠ []

/-! ### Tokens -/

/-- A punctuator. -/
def mark (p : Punctuator) : Phrase Unit := fun ts _ ↦ ts = [.punctuator p]

/-- A given name. -/
def keyword (text : String) : Phrase Unit := fun ts _ ↦ ts = [.name text]

/-- A name out of a list of words, for what the word stands for. -/
def word (text : α → String) : Phrase α := fun ts a ↦ ts = [.name (text a)]

/-- Any name. -/
def name : Phrase String := fun ts text ↦ ts = [.name text]

/-- A value: a number, a string or a name, as it is written. -/
def value : Phrase String := fun ts text ↦ ∃ kind : TokenKind, ts = [kind] ∧ kind.value? = some text

/-- A string of either sort, as it is written. -/
def text : Phrase String := fun ts text ↦ ts = [.string text] ∨ ts = [.blockString text]

/-- A description, if there is one. -/
def description : Phrase (Option String) := (do return some (← text)) <|> pure none

/-- A phrase after a mark, or nothing. -/
def afterMark (p : Punctuator) (P : Phrase α) : Phrase (Option α) :=
  (do mark p; return some (← P)) <|> pure none

/-- Phrases with a mark between them, and perhaps one in front. -/
def separated (p : Punctuator) (P : Phrase α) : Phrase (List α) := do
  let _ ← present (mark p)
  let first ← P
  let others ← many do
    mark p
    P
  return first :: others

/-- Phrases between brackets, at least one. -/
def block (brackets : Brackets) (P : Phrase α) : Phrase (List α) := do
  mark brackets.opening
  let as ← several P
  mark brackets.closing
  return as

/-- A list, which may be missing and is empty then. -/
def orEmpty (P : Phrase (List α)) : Phrase (List α) := P <|> pure []

/-! ### Type references -/

/-- The mark after a level of a type reference. -/
def nullability : Phrase Nullability := do
  return if ← present (mark .bang) then .nonNull else .nullable

/-- A type reference: a name, or a type reference between square brackets. -/
inductive IsTypeReference : List TokenKind → TypeReference → Prop where
  | named {name : String} {n : Nullability} {marks : List TokenKind} (marked : nullability marks n) :
      IsTypeReference (.name name :: marks) (.named name n)
  | list {inside marks : List TokenKind} {element : TypeReference} {n : Nullability}
      (element_inside : IsTypeReference inside element) (marked : nullability marks n) :
      IsTypeReference (.punctuator .bracketOpen :: (inside ++ .punctuator .bracketClose :: marks))
        (.list element n)

/-! ### Applied directives -/

/-- One argument of an applied directive. -/
def argument : Phrase Argument := do
  let name ← name
  mark .colon
  return ⟨name, ← value⟩

/-- An applied directive. -/
def appliedDirective : Phrase AppliedDirective := do
  mark .atSign
  let name ← name
  let arguments ← orEmpty (block .parens argument)
  return ⟨name, arguments, .blank⟩

/-- All directives applied at a place. -/
def appliedDirectives : Phrase (List AppliedDirective) := many appliedDirective

section Nodes

variable (admits : TypeReference → Prop)

/-- A type reference that is admitted. -/
def typeReference : Phrase TypeReference := fun ts type ↦ IsTypeReference ts type ∧ admits type

/-! ### Members -/

/-- An argument of a field or directive, or a field of an input object. -/
def inputValue : Phrase InputValueDefinition := do
  let description ← description
  let name ← name
  mark .colon
  let type ← typeReference admits
  let defaultValue ← afterMark .equals value
  let directives ← appliedDirectives
  return ⟨description, name, type, defaultValue, directives, .blank⟩

/-- The arguments of a field or directive, if it has any. -/
def arguments : Phrase (List InputValueDefinition) := orEmpty (block .parens (inputValue admits))

/-- A field of an object or interface. -/
def field : Phrase FieldDefinition := do
  let description ← description
  let name ← name
  let arguments ← arguments admits
  mark .colon
  let type ← typeReference admits
  let directives ← appliedDirectives
  return ⟨description, name, arguments, type, directives, .blank⟩

/-- One value of an enum. -/
def enumValue : Phrase EnumValueDefinition := do
  let description ← description
  let name ← name
  given (name ∉ ["true", "false", "null"])
  let directives ← appliedDirectives
  return ⟨description, name, directives, .blank⟩

/-- The interfaces that a type implements. -/
def implemented : Phrase (List String) := orEmpty do
  keyword "implements"
  separated .ampersand name

/-- The member types of a union. -/
def unionMembers : Phrase (List String) := do
  mark .equals
  separated .pipe name

/-! ### Types -/

/-- Members, which may be missing from an extension only. -/
def members (mayLack : Bool) (P : Phrase (List α)) : Phrase (List α) :=
  if mayLack then orEmpty P else P

/-- The directives and members of a type, after its name. -/
def typeBody (mayLack : Bool) : TypeKind → Phrase (List AppliedDirective × TypeBody)
  | .scalar => do
    return (← appliedDirectives, .scalar)
  | .object => do
    let interfaces ← implemented
    let directives ← appliedDirectives
    let fields ← members mayLack (block .braces (field admits))
    return (directives, .object interfaces fields)
  | .interface => do
    let interfaces ← implemented
    let directives ← appliedDirectives
    let fields ← members mayLack (block .braces (field admits))
    return (directives, .interface interfaces fields)
  | .union => do
    let directives ← appliedDirectives
    let members ← members mayLack unionMembers
    return (directives, .union members)
  | .enum => do
    let directives ← appliedDirectives
    let values ← members mayLack (block .braces enumValue)
    return (directives, .enum values)
  | .inputObject => do
    let directives ← appliedDirectives
    let fields ← members mayLack (block .braces (inputValue admits))
    return (directives, .inputObject fields)

/-- The definition of a type of a kind, from its keyword on. -/
def typeDefinition (kind : TypeKind) (description : Option String) : Phrase TypeDefinition := do
  keyword kind.keyword
  let name ← name
  let body ← typeBody admits false kind
  return ⟨description, name, body.1, body.2, .blank⟩

/-- The extension of a type of a kind, from the keyword of the kind on. It must add something. -/
def typeExtension (kind : TypeKind) : Phrase TypeExtension := do
  keyword kind.keyword
  let name ← name
  let body ← typeBody admits true kind
  given ¬(body.1.isEmpty ∧ body.2.isEmpty)
  return ⟨name, body.1, body.2, .blank⟩

/-! ### Directives and schemas -/

/-- The definition of a directive, from its keyword on. -/
def directiveDefinition (description : Option String) : Phrase DirectiveDefinition := do
  keyword "directive"
  mark .atSign
  let name ← name
  let arguments ← arguments admits
  let repeatable ← present (keyword "repeatable")
  keyword "on"
  let locations ← separated .pipe (word DirectiveLocation.name)
  return ⟨description, name, arguments, repeatable, locations, .blank⟩

/-- One root type: the word for the operation, and the name of the type. -/
def rootType : Phrase (Operation × String) := do
  let operation ← word Operation.keyword
  mark .colon
  return (operation, ← name)

/-- The block of root types, none of them declared twice. -/
def rootTypes : Phrase RootTypes := do
  let roots ← block .braces rootType
  given (roots.map Prod.fst).Nodup
  return roots.foldl (fun types root ↦ types.set root.1 root.2) .none

/-- A schema block, from its keyword on. -/
def schemaDefinition (description : Option String) : Phrase SchemaDefinition := do
  keyword "schema"
  let directives ← appliedDirectives
  let roots ← rootTypes
  return ⟨description, directives, roots, .blank⟩

/-- The extension of a schema, from its keyword on. It must add something. -/
def schemaExtension : Phrase SchemaExtension := do
  keyword "schema"
  let directives ← appliedDirectives
  (do return ⟨directives, ← rootTypes, .blank⟩) <|>
    (do given (directives ≠ []); return ⟨directives, .none, .blank⟩)

/-! ### Documents -/

/-- What an extension extends, and with what. -/
def extensionBody : Phrase Definition :=
  oneOf (fun kind ↦ do return .typeExtension (← typeExtension admits kind)) <|>
    (do return .schemaExtension (← schemaExtension))

/-- An item with a description in front, or with none. An extension has none. -/
def described (description : Option String) : Phrase Definition :=
  oneOf (fun kind ↦ do return .type (← typeDefinition admits kind description)) <|>
    (do return .directive (← directiveDefinition admits description)) <|>
    (do return .schema (← schemaDefinition description)) <|>
    (do given (description = none); keyword "extend"; extensionBody admits)

/-- One item. -/
def definition : Phrase Definition := do
  let description ← description
  described admits description

/-- A whole document: the items of the text, sorted as `Document.ofDefinitions_eq` says. -/
def document : Phrase Document := do
  return .ofDefinitions (← many (definition admits))

end Nodes

end Phrase

end TypeSystem
