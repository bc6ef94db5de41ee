import TypeSystem.Binary.Number
import TypeSystem.Syntax.Definition

/-!
# Definitions as bytes

Every node is its parts one after another. A type begins with its kind, and an object or interface says what
it implements before the directives applied to it. A type reference is read from the outside in: how many
lists it is inside of is known only when the name is reached.
-/

namespace TypeSystem.Binary

namespace Codec

/-- The four counts of a position. -/
def position : Codec Position :=
  (number.both (number.both (number.both number))).map
    (fun (line, column, unit16, offset) ↦ ⟨line, column, unit16, offset⟩)
    (fun p ↦ (p.line, p.column, p.unit16, p.offset))

/-- The two ends of a span, and the name of its text. -/
def span : Codec Span :=
  (position.both (position.both text.optional)).map
    (fun (start, stop, source) ↦ ⟨start, stop, source⟩)
    (fun s ↦ (s.start, s.stop, s.source))

/-! ### Directives where they are applied -/

/-- A name and a value. -/
def argument : Codec Argument :=
  (text.both text).map (fun (name, value) ↦ ⟨name, value⟩) (fun a ↦ (a.name, a.value))

/-- An applied directive. -/
def appliedDirective : Codec AppliedDirective :=
  (text.both (argument.list.both span)).map
    (fun (name, arguments, span) ↦ ⟨name, arguments, span⟩)
    (fun d ↦ (d.name, d.arguments, d.span))

/-! ### Type references -/

/-- The forms of a type reference. -/
inductive ReferenceForm where
  | list
  | named
deriving DecidableEq, Repr

/-- Which form a type reference has. -/
def ReferenceForm.of : TypeReference → ReferenceForm
  | .list _ _ => .list
  | .named _ _ => .named

/-- Whether a level admits null. -/
def nullability : Codec Nullability := oneOf [.nonNull, .nullable]

/-- The form of a type reference. -/
def referenceForm : Codec ReferenceForm := oneOf [.list, .named]

/-- Reading a case takes at least one byte. -/
theorem length_lt_of_oneOf {α : Type} [BEq α] {cases : List α} {a : α} {bytes rest : List UInt8}
    (h : (oneOf cases).read bytes = .ok (a, rest)) : rest.length < bytes.length := by
  obtain ⟨index, left, hread, h⟩ := Reader.bind_eq_ok_iff.1 h
  have hlt := length_lt_of_readNumber hread
  cases hcase : cases[index]? with
  | none =>
    rw [hcase] at h
    cases h
  | some b =>
    rw [hcase] at h
    cases h
    exact hlt

/-- The bytes of a type reference. -/
def writeReference : TypeReference → List UInt8
  | .list element n => referenceForm.write .list ++ writeReference element ++ nullability.write n
  | .named name n => referenceForm.write .named ++ text.write name ++ nullability.write n

/-- Takes a type reference. -/
def readReference (bytes : List UInt8) : Except DecodeError (TypeReference × List UInt8) :=
  match h : referenceForm.read bytes with
  | .error e => .error e
  | .ok (.named, rest) =>
    (do
      let name ← text.read
      let n ← nullability.read
      return .named name n : Reader TypeReference) rest
  | .ok (.list, rest) =>
    have : rest.length < bytes.length := length_lt_of_oneOf h
    match readReference rest with
    | .error e => .error e
    | .ok (element, rest) => (TypeReference.list element <$> nullability.read) rest
termination_by bytes.length

/-- A type reference. -/
def typeReference : Codec TypeReference := ⟨writeReference, readReference⟩

/-! ### Members of types -/

/-- An argument or input field. -/
def inputValue : Codec InputValueDefinition :=
  (text.optional.both (text.both (typeReference.both (text.optional.both
    (appliedDirective.list.both span))))).map
    (fun (description, name, type, defaultValue, directives, span) ↦
      ⟨description, name, type, defaultValue, directives, span⟩)
    (fun v ↦ (v.description, v.name, v.type, v.defaultValue, v.directives, v.span))

/-- A field. -/
def field : Codec FieldDefinition :=
  (text.optional.both (text.both (inputValue.list.both (typeReference.both
    (appliedDirective.list.both span))))).map
    (fun (description, name, arguments, type, directives, span) ↦
      ⟨description, name, arguments, type, directives, span⟩)
    (fun f ↦ (f.description, f.name, f.arguments, f.type, f.directives, f.span))

/-- An enum value. -/
def enumValue : Codec EnumValueDefinition :=
  (text.optional.both (text.both (appliedDirective.list.both span))).map
    (fun (description, name, directives, span) ↦ ⟨description, name, directives, span⟩)
    (fun v ↦ (v.description, v.name, v.directives, v.span))

/-! ### Types and directives -/

/-- What a type implements. -/
def interfacesOf : TypeBody → List String
  | .object interfaces _ | .interface interfaces _ => interfaces
  | .scalar | .union _ | .enum _ | .inputObject _ => []

/-- The fields of an object or interface. -/
def fieldsOf : TypeBody → List FieldDefinition
  | .object _ fields | .interface _ fields => fields
  | .scalar | .union _ | .enum _ | .inputObject _ => []

/-- The members of a union. -/
def membersOf : TypeBody → List String
  | .union members => members
  | _ => []

/-- The values of an enum. -/
def valuesOf : TypeBody → List EnumValueDefinition
  | .enum values => values
  | _ => []

/-- The fields of an input object. -/
def inputFieldsOf : TypeBody → List InputValueDefinition
  | .inputObject fields => fields
  | _ => []

/-- The directives on a type of a kind, and its members. -/
def members : TypeKind → Codec (List AppliedDirective × TypeBody)
  | .scalar => appliedDirective.list.map (fun d ↦ (d, .scalar)) (fun (d, _) ↦ d)
  | .object =>
    (text.list.both (appliedDirective.list.both field.list)).map
      (fun (i, d, f) ↦ (d, .object i f)) (fun (d, b) ↦ (interfacesOf b, d, fieldsOf b))
  | .interface =>
    (text.list.both (appliedDirective.list.both field.list)).map
      (fun (i, d, f) ↦ (d, .interface i f)) (fun (d, b) ↦ (interfacesOf b, d, fieldsOf b))
  | .union =>
    (appliedDirective.list.both text.list).map
      (fun (d, m) ↦ (d, .union m)) (fun (d, b) ↦ (d, membersOf b))
  | .enum =>
    (appliedDirective.list.both enumValue.list).map
      (fun (d, v) ↦ (d, .enum v)) (fun (d, b) ↦ (d, valuesOf b))
  | .inputObject =>
    (appliedDirective.list.both inputValue.list).map
      (fun (d, f) ↦ (d, .inputObject f)) (fun (d, b) ↦ (d, inputFieldsOf b))

/-- The definition of a type. -/
def type : Codec TypeDefinition :=
  choice (oneOf TypeKind.all) TypeDefinition.kind fun kind ↦
    (text.optional.both (text.both ((members kind).both span))).map
      (fun (description, name, (directives, body), span) ↦ ⟨description, name, directives, body, span⟩)
      (fun d ↦ (d.description, d.name, (d.directives, d.body), d.span))

/-- The definition of a directive. -/
def directive : Codec DirectiveDefinition :=
  (text.optional.both (text.both (inputValue.list.both (bool.both
    ((oneOf DirectiveLocation.all).list.both span))))).map
    (fun (description, name, arguments, repeatable, locations, span) ↦
      ⟨description, name, arguments, repeatable, locations, span⟩)
    (fun d ↦ (d.description, d.name, d.arguments, d.repeatable, d.locations, d.span))

end Codec

end TypeSystem.Binary
