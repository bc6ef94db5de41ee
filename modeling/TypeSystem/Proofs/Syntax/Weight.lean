import TypeSystem.Binary.Syntax
import TypeSystem.Proofs.Syntax.Spans

/-!
# The weight of values

The weight of a value counts the bytes of every text in it and the members of every list in it. So no text and
no list in a value is longer than the value is heavy, and what is put together of several values is as heavy as
they are together. Positions weigh nothing (`HasWeight.IgnoresSpans`).
-/

namespace TypeSystem

open HasSpans (mapSpans)
open Binary.Codec (interfacesOf fieldsOf inputFieldsOf valuesOf membersOf)

/-- Types of values with texts and lists in them. -/
class HasWeight (α : Type) where
  /-- The bytes of the texts in the value, and the members of the lists in it. -/
  weight : α → Nat

open HasWeight (weight)

namespace HasWeight

variable {α β : Type}

instance : HasWeight Unit := ⟨fun _ ↦ 0⟩

instance : HasWeight Bool := ⟨fun _ ↦ 0⟩

instance : HasWeight Nullability := ⟨fun _ ↦ 0⟩

instance : HasWeight Operation := ⟨fun _ ↦ 0⟩

instance : HasWeight DirectiveLocation := ⟨fun _ ↦ 0⟩

instance : HasWeight String := ⟨String.utf8ByteSize⟩

instance [HasWeight α] [HasWeight β] : HasWeight (α × β) := ⟨fun a ↦ weight a.1 + weight a.2⟩

instance [HasWeight α] : HasWeight (Option α) := ⟨fun a ↦ a.elim 0 weight⟩

instance [HasWeight α] : HasWeight (List α) := ⟨fun as ↦ as.foldr (fun a others ↦ weight a + 1 + others) 0⟩

/-! ### Nodes -/

instance : HasWeight TypeReference := ⟨fun type ↦ weight type.innermostName⟩

instance : HasWeight Argument := ⟨fun argument ↦ weight argument.name + weight argument.value⟩

instance : HasWeight AppliedDirective :=
  ⟨fun directive ↦ weight directive.name + weight directive.arguments⟩

instance : HasWeight InputValueDefinition :=
  ⟨fun value ↦ weight value.description + weight value.name + weight value.type + weight value.defaultValue +
    weight value.directives⟩

instance : HasWeight FieldDefinition :=
  ⟨fun field ↦ weight field.description + weight field.name + weight field.arguments + weight field.type +
    weight field.directives⟩

instance : HasWeight EnumValueDefinition :=
  ⟨fun value ↦ weight value.description + weight value.name + weight value.directives⟩

instance : HasWeight TypeBody :=
  ⟨fun body ↦ weight (interfacesOf body) + weight (fieldsOf body) + weight (inputFieldsOf body) +
    weight (valuesOf body) + weight (membersOf body)⟩

instance : HasWeight TypeDefinition :=
  ⟨fun type ↦ weight type.description + weight type.name + weight type.directives + weight type.body⟩

instance : HasWeight TypeExtension :=
  ⟨fun ext ↦ weight ext.name + weight ext.directives + weight ext.body⟩

instance : HasWeight RootTypes :=
  ⟨fun roots ↦ weight roots.query + weight roots.mutation + weight roots.subscription⟩

instance : HasWeight SchemaDefinition :=
  ⟨fun schema ↦ weight schema.description + weight schema.directives + weight schema.roots⟩

instance : HasWeight SchemaExtension := ⟨fun ext ↦ weight ext.directives + weight ext.roots⟩

instance : HasWeight DirectiveDefinition :=
  ⟨fun directive ↦ weight directive.description + weight directive.name + weight directive.arguments +
    weight directive.locations⟩

instance : HasWeight Definition where
  weight
    | .type definition => weight definition
    | .schema definition => weight definition
    | .directive definition => weight definition
    | .typeExtension ext => weight ext
    | .schemaExtension ext => weight ext

instance : HasWeight Document :=
  ⟨fun document ↦ weight document.types + weight document.schemas + weight document.directives +
    weight document.typeExtensions + weight document.schemaExtensions⟩

end HasWeight

/-! ### Lists -/

section Lists

variable {α : Type} [HasWeight α]

@[simp] theorem weight_unit (a : Unit) : weight a = 0 := rfl

@[simp] theorem weight_none : weight (none : Option α) = 0 := rfl

@[simp] theorem weight_some (a : α) : weight (some a) = weight a := rfl

@[simp] theorem weight_nil : weight ([] : List α) = 0 := rfl

@[simp] theorem weight_cons (a : α) (as : List α) : weight (a :: as) = weight a + 1 + weight as := rfl

@[simp] theorem weight_append (as bs : List α) : weight (as ++ bs) = weight as + weight bs := by
  induction as with
  | nil => simp
  | cons a as ih => simp only [List.cons_append, weight_cons, ih, Nat.add_assoc]

/-- A list has no more items than it weighs. -/
theorem length_le_weight (as : List α) : as.length ≤ weight as := by
  induction as with
  | nil => exact Nat.le_refl 0
  | cons a as ih =>
    rw [List.length_cons, weight_cons]
    omega

/-- A list outweighs each of its items. -/
theorem weight_lt_of_mem {a : α} {as : List α} (h : a ∈ as) : weight a < weight as := by
  induction as with
  | nil => cases h
  | cons b as ih =>
    rw [weight_cons]
    rcases List.mem_cons.1 h with rfl | h
    · omega
    · have := ih h
      omega

/-- Leaving items out makes a list no heavier. -/
theorem weight_filter_le (keep : α → Bool) (as : List α) : weight (as.filter keep) ≤ weight as := by
  induction as with
  | nil => exact Nat.le_refl 0
  | cons a as ih =>
    rw [List.filter_cons]
    split
    · rw [weight_cons, weight_cons]
      omega
    · rw [weight_cons]
      omega

end Lists

/-! ### Documents -/

/-- The weight of a document is that of its five lists. -/
theorem weight_document (document : Document) : weight document = weight document.types +
    weight document.schemas + weight document.directives + weight document.typeExtensions +
    weight document.schemaExtensions := rfl

/-- An item goes to one of the lists of a document. -/
theorem weight_cons_document (item : Definition) (document : Document) :
    weight (Document.cons item document) = weight item + 1 + weight document := by
  rw [weight_document, weight_document]
  cases item <;> simp only [Document.cons, weight_cons] <;> simp only [weight] <;> omega

/-- A document is as heavy as its items. -/
theorem weight_ofDefinitions (items : List Definition) :
    weight (Document.ofDefinitions items) = weight items := by
  induction items with
  | nil => rfl
  | cons item items ih => rw [weight_cons, ← ih, ← weight_cons_document]; rfl

/-! ### Spans -/

/-- Spans in values of the type weigh nothing. -/
class HasWeight.IgnoresSpans (α : Type) [HasSpans α] [HasWeight α] : Prop where
  weight_mapSpans : ∀ (f : Span → Span) (a : α), weight (mapSpans f a) = weight a

namespace HasWeight.IgnoresSpans

variable {α : Type} [HasSpans α] [HasWeight α] [IgnoresSpans α]

instance : IgnoresSpans (List α) where
  weight_mapSpans f as := by
    show weight (as.map (mapSpans f)) = weight as
    induction as with
    | nil => rfl
    | cons a as ih => rw [List.map_cons, weight_cons, weight_cons, weight_mapSpans, ih]

instance : IgnoresSpans AppliedDirective := ⟨fun _ _ ↦ rfl⟩

instance : IgnoresSpans InputValueDefinition where
  weight_mapSpans f value := by
    show weight value.description + weight value.name + weight value.type + weight value.defaultValue +
      weight (mapSpans f value.directives) = _
    rw [weight_mapSpans]
    rfl

instance : IgnoresSpans FieldDefinition where
  weight_mapSpans f field := by
    show weight field.description + weight field.name + weight (mapSpans f field.arguments) + weight field.type +
      weight (mapSpans f field.directives) = _
    rw [weight_mapSpans, weight_mapSpans]
    rfl

instance : IgnoresSpans EnumValueDefinition where
  weight_mapSpans f value := by
    show weight value.description + weight value.name + weight (mapSpans f value.directives) = _
    rw [weight_mapSpans]
    rfl

instance : IgnoresSpans TypeBody where
  weight_mapSpans f body := by
    cases body with
    | scalar | union _ => rfl
    | object interfaces fields | interface interfaces fields =>
      show weight interfaces + weight (mapSpans f fields) + 0 + 0 + 0 = _
      rw [weight_mapSpans]
      rfl
    | enum values =>
      show 0 + 0 + 0 + weight (mapSpans f values) + 0 = _
      rw [weight_mapSpans]
      rfl
    | inputObject fields =>
      show 0 + 0 + weight (mapSpans f fields) + 0 + 0 = _
      rw [weight_mapSpans]
      rfl

instance : IgnoresSpans TypeDefinition where
  weight_mapSpans f type := by
    show weight type.description + weight type.name + weight (mapSpans f type.directives) +
      weight (mapSpans f type.body) = _
    rw [weight_mapSpans, weight_mapSpans]
    rfl

instance : IgnoresSpans TypeExtension where
  weight_mapSpans f ext := by
    show weight ext.name + weight (mapSpans f ext.directives) + weight (mapSpans f ext.body) = _
    rw [weight_mapSpans, weight_mapSpans]
    rfl

instance : IgnoresSpans SchemaDefinition where
  weight_mapSpans f schema := by
    show weight schema.description + weight (mapSpans f schema.directives) + weight schema.roots = _
    rw [weight_mapSpans]
    rfl

instance : IgnoresSpans SchemaExtension where
  weight_mapSpans f ext := by
    show weight (mapSpans f ext.directives) + weight ext.roots = _
    rw [weight_mapSpans]
    rfl

instance : IgnoresSpans DirectiveDefinition where
  weight_mapSpans f directive := by
    show weight directive.description + weight directive.name + weight (mapSpans f directive.arguments) +
      weight directive.locations = _
    rw [weight_mapSpans]
    rfl

instance : IgnoresSpans Document where
  weight_mapSpans f document := by
    show weight (mapSpans f document.types) + weight (mapSpans f document.schemas) +
      weight (mapSpans f document.directives) + weight (mapSpans f document.typeExtensions) +
      weight (mapSpans f document.schemaExtensions) = _
    simp only [weight_mapSpans]
    rfl

end HasWeight.IgnoresSpans

/-- Spans weigh nothing. -/
theorem weight_withoutSpans {α : Type} [HasSpans α] [HasWeight α] [HasWeight.IgnoresSpans α] (a : α) :
    weight (withoutSpans a) = weight a :=
  HasWeight.IgnoresSpans.weight_mapSpans _ a

end TypeSystem
