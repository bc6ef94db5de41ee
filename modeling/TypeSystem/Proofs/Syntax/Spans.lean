import TypeSystem.Syntax.Document

/-!
# Nodes and their spans

Every node of a document has a span of its own. `mapSpans` changes all the spans of a value, and
`withoutSpans` replaces each by one fixed span, so that two values are equal apart from their spans
exactly if they are equal `withoutSpans`. Values in which no span occurs stay as they are.
-/

namespace TypeSystem

/-- Types of values with spans in them. -/
class HasSpans (α : Type) where
  /-- The value with all its spans changed. -/
  mapSpans : (Span → Span) → α → α

namespace HasSpans

variable {α β : Type}

instance : HasSpans Span := ⟨fun f span ↦ f span⟩

instance : HasSpans Unit := ⟨fun _ a ↦ a⟩

instance : HasSpans Bool := ⟨fun _ a ↦ a⟩

instance : HasSpans String := ⟨fun _ a ↦ a⟩

instance : HasSpans Nullability := ⟨fun _ a ↦ a⟩

instance : HasSpans TypeReference := ⟨fun _ a ↦ a⟩

instance : HasSpans DirectiveLocation := ⟨fun _ a ↦ a⟩

instance : HasSpans Argument := ⟨fun _ a ↦ a⟩

instance : HasSpans RootTypes := ⟨fun _ a ↦ a⟩

instance [HasSpans α] [HasSpans β] : HasSpans (α × β) :=
  ⟨fun f a ↦ (mapSpans f a.1, mapSpans f a.2)⟩

instance [HasSpans α] : HasSpans (Option α) := ⟨fun f a ↦ a.map (mapSpans f)⟩

instance [HasSpans α] : HasSpans (List α) := ⟨fun f as ↦ as.map (mapSpans f)⟩

/-! ### Nodes -/

instance : HasSpans AppliedDirective :=
  ⟨fun f directive ↦ { directive with span := f directive.span }⟩

instance : HasSpans InputValueDefinition :=
  ⟨fun f value ↦
    { value with directives := mapSpans f value.directives, span := f value.span }⟩

instance : HasSpans FieldDefinition :=
  ⟨fun f field ↦
    { field with
      arguments := mapSpans f field.arguments
      directives := mapSpans f field.directives
      span := f field.span }⟩

instance : HasSpans EnumValueDefinition :=
  ⟨fun f value ↦
    { value with directives := mapSpans f value.directives, span := f value.span }⟩

instance : HasSpans TypeBody where
  mapSpans f
    | .scalar => .scalar
    | .object interfaces fields => .object interfaces (mapSpans f fields)
    | .interface interfaces fields => .interface interfaces (mapSpans f fields)
    | .union members => .union members
    | .enum values => .enum (mapSpans f values)
    | .inputObject fields => .inputObject (mapSpans f fields)

instance : HasSpans TypeDefinition :=
  ⟨fun f type ↦
    { type with
      directives := mapSpans f type.directives
      body := mapSpans f type.body
      span := f type.span }⟩

instance : HasSpans TypeExtension :=
  ⟨fun f ext ↦
    { ext with
      directives := mapSpans f ext.directives
      body := mapSpans f ext.body
      span := f ext.span }⟩

instance : HasSpans SchemaDefinition :=
  ⟨fun f schema ↦
    { schema with directives := mapSpans f schema.directives, span := f schema.span }⟩

instance : HasSpans SchemaExtension :=
  ⟨fun f ext ↦ { ext with directives := mapSpans f ext.directives, span := f ext.span }⟩

instance : HasSpans DirectiveDefinition :=
  ⟨fun f directive ↦
    { directive with arguments := mapSpans f directive.arguments, span := f directive.span }⟩

instance : HasSpans Definition where
  mapSpans f
    | .type definition => .type (mapSpans f definition)
    | .schema definition => .schema (mapSpans f definition)
    | .directive definition => .directive (mapSpans f definition)
    | .typeExtension ext => .typeExtension (mapSpans f ext)
    | .schemaExtension ext => .schemaExtension (mapSpans f ext)

instance : HasSpans Document :=
  ⟨fun f document ↦
    { types := mapSpans f document.types
      schemas := mapSpans f document.schemas
      directives := mapSpans f document.directives
      typeExtensions := mapSpans f document.typeExtensions
      schemaExtensions := mapSpans f document.schemaExtensions }⟩

end HasSpans

/-- The span that stands for any span. -/
def Span.blank : Span := .emptyAt .origin

/-- A value up to its spans: all of them are blank. -/
def withoutSpans {α : Type} [HasSpans α] (a : α) : α :=
  HasSpans.mapSpans (fun _ ↦ .blank) a

/-! ### Documents of items -/

/-- Changing spans commutes with sorting items into lists. -/
theorem mapSpans_ofDefinitions (f : Span → Span) (items : List Definition) :
    HasSpans.mapSpans f (Document.ofDefinitions items) =
      Document.ofDefinitions (HasSpans.mapSpans f items) := by
  induction items with
  | nil => rfl
  | cons item items ih =>
    show HasSpans.mapSpans f (Document.cons item (Document.ofDefinitions items)) =
      Document.cons (HasSpans.mapSpans f item) (Document.ofDefinitions (HasSpans.mapSpans f items))
    rw [← ih]
    cases item <;> rfl

end TypeSystem
