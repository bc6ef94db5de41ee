import Mathlib.Algebra.GroupWithZero.Nat
import TypeSystem.Schema.Reference

/-!
# The order of references

The references from a definition come in the order in which they are declared: for a directive, argument by
argument, the directives on the argument and then its type; for a type, the directives on it, then value by value
those on its enum values, or field by field those on the input field and then the field's type. Here the place of
a reference is said by counting what is declared before it (`Definitions.EdgeAt`), with no list of references to
take it from.

The lists along which the walk goes hold each reference at its place (`Definitions.edgeAt_iff`).
-/

namespace TypeSystem

/-! ### Places -/

/-- What stands at a place among directives applied somewhere. -/
inductive AppliedAt (directives : List AppliedDirective) : Nat → Reference → Prop where
  | here {place : Nat} {applied : AppliedDirective} (at_place : directives[place]? = some applied) :
      AppliedAt directives place (.directive applied.name)

/-- What stands at a place among the references from arguments or input fields. Each of those before has one for
every directive on it, and one for its type. -/
inductive InputsReferAt (values : List InputValueDefinition) : Nat → Reference → Prop where
  | applied {front back : List InputValueDefinition} {value : InputValueDefinition} {place : Nat}
      {target : Reference} (split : values = front ++ value :: back)
      (applied : AppliedAt value.directives place target) :
      InputsReferAt values ((front.map fun value ↦ value.directives.length + 1).sum + place) target
  | type {front back : List InputValueDefinition} {value : InputValueDefinition}
      (split : values = front ++ value :: back) :
      InputsReferAt values ((front.map fun value ↦ value.directives.length + 1).sum + value.directives.length)
        (.type value.type.innermostName)

/-- What stands at a place among the references from a type: the directives on it come first. -/
inductive TypeDefinition.RefersAt (type : TypeDefinition) : Nat → Reference → Prop where
  | applied {place : Nat} {target : Reference} (applied : AppliedAt type.directives place target) :
      RefersAt type place target
  | enumValue {values front back : List EnumValueDefinition} {value : EnumValueDefinition} {place : Nat}
      {target : Reference} (body_eq : type.body = .enum values) (split : values = front ++ value :: back)
      (applied : AppliedAt value.directives place target) :
      RefersAt type
        (type.directives.length + ((front.map fun value ↦ value.directives.length).sum + place)) target
  | inputField {fields : List InputValueDefinition} {place : Nat} {target : Reference}
      (body_eq : type.body = .inputObject fields) (field : InputsReferAt fields place target) :
      RefersAt type (type.directives.length + place) target

/-- What stands at a place among the references from a definition. -/
inductive Definitions.EdgeAt (d : Definitions) : Reference → Nat → Reference → Prop where
  | ofDirective {name : String} {directive : DirectiveDefinition} {place : Nat} {target : Reference}
      (found : d.directive? name = some directive) (argument : InputsReferAt directive.arguments place target) :
      EdgeAt d (.directive name) place target
  | ofType {name : String} {type : TypeDefinition} {place : Nat} {target : Reference}
      (found : d.type? name = some type) (refers : type.RefersAt place target) : EdgeAt d (.type name) place target

/-! ### Places in lists -/

variable {place : Nat} {target : Reference}

/-- A place among lists put together is a place in one of them, behind those before it. -/
theorem getElem?_flatMap_eq_some_iff {α β : Type} {f : α → List β} {items : List α} {b : β} :
    (items.flatMap f)[place]? = some b ↔ ∃ front item back inner, items = front ++ item :: back ∧
      place = (front.map fun item ↦ (f item).length).sum + inner ∧ (f item)[inner]? = some b := by
  constructor
  · intro h
    induction items generalizing place with
    | nil => cases h
    | cons item items ih =>
      rw [List.flatMap_cons] at h
      by_cases hplace : place < (f item).length
      · rw [List.getElem?_append_left hplace] at h
        exact ⟨[], item, items, place, rfl, by simp, h⟩
      · rw [List.getElem?_append_right (by omega)] at h
        obtain ⟨front, found, back, inner, rfl, heq, hfound⟩ := ih h
        refine ⟨item :: front, found, back, inner, rfl, ?_, hfound⟩
        rw [List.map_cons, List.sum_cons]
        omega
  · rintro ⟨front, item, back, inner, rfl, rfl, h⟩
    obtain ⟨hinner, -⟩ := List.getElem?_eq_some_iff.1 h
    rw [List.flatMap_append, List.flatMap_cons, ← List.length_flatMap,
      List.getElem?_append_right (Nat.le_add_right ..), Nat.add_sub_cancel_left, List.getElem?_append_left hinner]
    exact h

/-- A place in two lists put together is one in the first, or one in the second behind the whole first. -/
theorem getElem?_append_eq_some_iff {α : Type} {front back : List α} {a : α} :
    (front ++ back)[place]? = some a ↔
      front[place]? = some a ∨ ∃ inner, place = front.length + inner ∧ back[inner]? = some a := by
  rcases Nat.lt_or_ge place front.length with hlt | hge
  · rw [List.getElem?_append_left hlt]
    exact (or_iff_left fun ⟨_, hplace, _⟩ ↦ by omega).symm
  · rw [List.getElem?_append_right hge, List.getElem?_eq_none hge]
    refine ⟨fun h ↦ .inr ⟨_, by omega, h⟩, ?_⟩
    rintro (⟨⟨⟩⟩ | ⟨inner, rfl, h⟩)
    rwa [Nat.add_sub_cancel_left]

theorem length_appliedReferences (directives : List AppliedDirective) :
    (appliedReferences directives).length = directives.length :=
  List.length_map _

/-- Applied directives refer in the order in which they stand. -/
theorem appliedAt_iff {directives : List AppliedDirective} :
    AppliedAt directives place target ↔ (appliedReferences directives)[place]? = some target := by
  rw [appliedReferences, List.getElem?_map, Option.map_eq_some_iff]
  constructor
  · rintro ⟨h⟩
    exact ⟨_, h, rfl⟩
  · rintro ⟨applied, h, rfl⟩
    exact ⟨h⟩

theorem InputValueDefinition.length_references (value : InputValueDefinition) :
    value.references.length = value.directives.length + 1 := by
  simp [references, length_appliedReferences]

/-- An input value refers by its directives first, and by its type last. -/
theorem InputValueDefinition.getElem?_references_eq_some_iff {value : InputValueDefinition} :
    value.references[place]? = some target ↔ AppliedAt value.directives place target ∨
      place = value.directives.length ∧ target = .type value.type.innermostName := by
  rw [references, getElem?_append_eq_some_iff, appliedAt_iff, length_appliedReferences]
  refine or_congr_right ⟨?_, ?_⟩
  · rintro ⟨inner, rfl, h⟩
    obtain ⟨hinner, rfl⟩ := List.getElem?_eq_some_iff.1 h
    obtain rfl : inner = 0 := by simpa using hinner
    exact ⟨rfl, rfl⟩
  · rintro ⟨rfl, rfl⟩
    exact ⟨0, rfl, rfl⟩

/-- Several input values refer one after another: what one refers to comes before all that the next one does.
-/
theorem inputsReferAt_iff {values : List InputValueDefinition} : InputsReferAt values place target ↔
    (values.flatMap InputValueDefinition.references)[place]? = some target := by
  simp only [getElem?_flatMap_eq_some_iff, InputValueDefinition.length_references,
    InputValueDefinition.getElem?_references_eq_some_iff]
  constructor
  · rintro (⟨split, happlied⟩ | ⟨split⟩)
    · exact ⟨_, _, _, _, split, rfl, .inl happlied⟩
    · exact ⟨_, _, _, _, split, rfl, .inr ⟨rfl, rfl⟩⟩
  · rintro ⟨front, value, back, inner, split, rfl, happlied | ⟨rfl, rfl⟩⟩
    · exact .applied split happlied
    · exact .type split

/-- What a type refers to, by the kind of the type. Behind its own directives come those of its members, and
where a member has arguments those come before the directives of the member. -/
theorem TypeDefinition.refersAt_iff {type : TypeDefinition} :
    type.RefersAt place target ↔ type.references[place]? = some target := by
  rw [references, getElem?_append_eq_some_iff, ← appliedAt_iff, length_appliedReferences]
  constructor
  · rintro (happlied | ⟨hbody, split, happlied⟩ | ⟨hbody, hfield⟩)
    · exact .inl happlied
    · refine .inr ⟨_, rfl, ?_⟩
      rw [hbody, TypeBody.references, getElem?_flatMap_eq_some_iff]
      simp only [length_appliedReferences]
      exact ⟨_, _, _, _, split, rfl, appliedAt_iff.1 happlied⟩
    · refine .inr ⟨_, rfl, ?_⟩
      rw [hbody]
      exact inputsReferAt_iff.1 hfield
  · rintro (happlied | ⟨inner, rfl, hinner⟩)
    · exact .applied happlied
    · -- of all bodies only those of enums and of input objects have members that refer to anything
      cases hbody : type.body with
      | enum values =>
        rw [hbody, TypeBody.references, getElem?_flatMap_eq_some_iff] at hinner
        obtain ⟨front, value, back, inner, split, rfl, happlied⟩ := hinner
        simp only [length_appliedReferences]
        exact .enumValue hbody split (appliedAt_iff.2 happlied)
      | inputObject fields =>
        rw [hbody] at hinner
        exact .inputField hbody (inputsReferAt_iff.2 hinner)
      | scalar | object _ _ | interface _ _ | union _ =>
        rw [hbody] at hinner
        cases hinner

/-- The references are listed in the order in which they are declared. -/
theorem Definitions.edgeAt_iff {d : Definitions} {source : Reference} :
    d.EdgeAt source place target ↔ (d.references source)[place]? = some target := by
  constructor
  · rintro (⟨found, hargument⟩ | ⟨found, hrefers⟩)
    · rw [references, found]
      exact inputsReferAt_iff.1 hargument
    · rw [references, found]
      exact TypeDefinition.refersAt_iff.1 hrefers
  · intro h
    cases source with
    | type name =>
      cases found : d.type? name with
      | none => simp [references, found] at h
      | some type =>
        rw [references, found] at h
        exact .ofType found (TypeDefinition.refersAt_iff.2 h)
    | directive name =>
      cases found : d.directive? name with
      | none => simp [references, found] at h
      | some directive =>
        rw [references, found] at h
        exact .ofDirective found (inputsReferAt_iff.2 h)

end TypeSystem
