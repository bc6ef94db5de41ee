import Mathlib.Data.List.Chain
import Mathlib.Data.List.Nodup
import Mathlib.Logic.Relation
import TypeSystem.Schema.Reference

/-!
# The graph of references

Which definition refers to which, said of the definitions themselves and not of the lists that the
search walks along. A definition *uses* a directive at a location (`Uses`); uses and the types of
arguments and input fields are the edges of the graph (`Edge`), and they are exactly the names that
`Definitions.references` lists (`edge_iff_mem_references`). A name that is not defined has no edges.

`Reaches` says that a chain of edges leads from one of several names to a directive, and `Route` is such
a chain with no name twice.
-/

namespace TypeSystem

/-- The location of a directive applied to a type of this kind itself. -/
def TypeKind.location : TypeKind → DirectiveLocation
  | scalar => .scalar
  | object => .object
  | interface => .interface
  | union => .union
  | enum => .enum
  | inputObject => .inputObject

theorem mem_appliedReferences_iff {directives : List AppliedDirective} {target : Reference} :
    target ∈ appliedReferences directives ↔
      ∃ applied ∈ directives, .directive applied.name = target := by
  simp [appliedReferences]

theorem InputValueDefinition.mem_references_iff {value : InputValueDefinition} {target : Reference} :
    target ∈ value.references ↔
      (∃ applied ∈ value.directives, .directive applied.name = target) ∨
        .type value.type.innermostName = target := by
  rw [InputValueDefinition.references, List.mem_append, mem_appliedReferences_iff,
    List.mem_singleton, eq_comm (a := target)]

namespace Definitions

/-- A definition has the directive of a given name applied somewhere in it, at a location. -/
inductive Uses (d : Definitions) : Reference → DirectiveLocation → String → Prop where
  | onArgument {name : String} {directive : DirectiveDefinition} {argument : InputValueDefinition}
      {applied : AppliedDirective} (found : d.directive? name = some directive)
      (argument_mem : argument ∈ directive.arguments) (applied_mem : applied ∈ argument.directives) :
      Uses d (.directive name) .argumentDefinition applied.name
  | onType {name : String} {type : TypeDefinition} {applied : AppliedDirective}
      (found : d.type? name = some type) (applied_mem : applied ∈ type.directives) :
      Uses d (.type name) type.kind.location applied.name
  | onEnumValue {name : String} {type : TypeDefinition} {values : List EnumValueDefinition}
      {value : EnumValueDefinition} {applied : AppliedDirective} (found : d.type? name = some type)
      (body_eq : type.body = .enum values) (value_mem : value ∈ values)
      (applied_mem : applied ∈ value.directives) :
      Uses d (.type name) .enumValue applied.name
  | onInputField {name : String} {type : TypeDefinition} {fields : List InputValueDefinition}
      {field : InputValueDefinition} {applied : AppliedDirective} (found : d.type? name = some type)
      (body_eq : type.body = .inputObject fields) (field_mem : field ∈ fields)
      (applied_mem : applied ∈ field.directives) :
      Uses d (.type name) .inputFieldDefinition applied.name

/-- A definition refers to a name: to a directive that it uses, or to the type of one of its arguments or
input fields. -/
inductive Edge (d : Definitions) : Reference → Reference → Prop where
  | use {source : Reference} {location : DirectiveLocation} {name : String}
      (use : d.Uses source location name) : Edge d source (.directive name)
  | argumentType {name : String} {directive : DirectiveDefinition} {argument : InputValueDefinition}
      (found : d.directive? name = some directive) (argument_mem : argument ∈ directive.arguments) :
      Edge d (.directive name) (.type argument.type.innermostName)
  | fieldType {name : String} {type : TypeDefinition} {fields : List InputValueDefinition}
      {field : InputValueDefinition} (found : d.type? name = some type)
      (body_eq : type.body = .inputObject fields) (field_mem : field ∈ fields) :
      Edge d (.type name) (.type field.type.innermostName)

variable {d : Definitions}

/-! ### Edges and lists of references -/

/-- What is at the end of an edge is in the list. Each kind of edge has its part of the list. -/
theorem mem_references_of_edge {source target : Reference} (h : d.Edge source target) :
    target ∈ d.references source := by
  cases h with
  | use use =>
    cases use with
    | onArgument found argument_mem applied_mem =>
      simp only [references, found, Option.map_some, Option.getD_some, DirectiveDefinition.references,
        List.mem_flatMap]
      exact ⟨_, argument_mem, InputValueDefinition.mem_references_iff.2 (.inl ⟨_, applied_mem, rfl⟩)⟩
    | onType found applied_mem =>
      simp only [references, found, Option.map_some, Option.getD_some, TypeDefinition.references]
      exact List.mem_append_left _ (mem_appliedReferences_iff.2 ⟨_, applied_mem, rfl⟩)
    | onEnumValue found body_eq value_mem applied_mem =>
      simp only [references, found, Option.map_some, Option.getD_some, TypeDefinition.references, body_eq,
        TypeBody.references, List.mem_append, List.mem_flatMap]
      exact .inr ⟨_, value_mem, mem_appliedReferences_iff.2 ⟨_, applied_mem, rfl⟩⟩
    | onInputField found body_eq field_mem applied_mem =>
      simp only [references, found, Option.map_some, Option.getD_some, TypeDefinition.references, body_eq,
        TypeBody.references, List.mem_append, List.mem_flatMap]
      exact .inr ⟨_, field_mem, InputValueDefinition.mem_references_iff.2 (.inl ⟨_, applied_mem, rfl⟩)⟩
  | argumentType found argument_mem =>
    simp only [references, found, Option.map_some, Option.getD_some, DirectiveDefinition.references,
      List.mem_flatMap]
    exact ⟨_, argument_mem, InputValueDefinition.mem_references_iff.2 (.inr rfl)⟩
  | fieldType found body_eq field_mem =>
    simp only [references, found, Option.map_some, Option.getD_some, TypeDefinition.references, body_eq,
      TypeBody.references, List.mem_append, List.mem_flatMap]
    exact .inr ⟨_, field_mem, InputValueDefinition.mem_references_iff.2 (.inr rfl)⟩

/-- What is in the list of a type is at the end of an edge from it, by what part of the list it is in. -/
theorem edge_of_mem_type {name : String} {type : TypeDefinition} {target : Reference}
    (found : d.type? name = some type) (h : target ∈ type.references) :
    d.Edge (.type name) target := by
  rcases List.mem_append.1 h with h | h
  · obtain ⟨applied, happlied, rfl⟩ := mem_appliedReferences_iff.1 h
    exact .use (.onType found happlied)
  · cases hbody : type.body with
    | enum values =>
      rw [hbody, TypeBody.references, List.mem_flatMap] at h
      obtain ⟨value, hvalue, h⟩ := h
      obtain ⟨applied, happlied, rfl⟩ := mem_appliedReferences_iff.1 h
      exact .use (.onEnumValue found hbody hvalue happlied)
    | inputObject fields =>
      rw [hbody, TypeBody.references, List.mem_flatMap] at h
      obtain ⟨field, hfield, h⟩ := h
      rcases InputValueDefinition.mem_references_iff.1 h with ⟨applied, happlied, rfl⟩ | rfl
      · exact .use (.onInputField found hbody hfield happlied)
      · exact .fieldType found hbody hfield
    | scalar | object _ _ | interface _ _ | union _ =>
      rw [hbody] at h
      exact absurd h List.not_mem_nil

/-- Likewise for a directive: it refers by the types of its arguments and by what is applied to them. -/
theorem edge_of_mem_directive {name : String} {directive : DirectiveDefinition} {target : Reference}
    (found : d.directive? name = some directive) (h : target ∈ directive.references) :
    d.Edge (.directive name) target := by
  obtain ⟨argument, hargument, h⟩ := List.mem_flatMap.1 h
  rcases InputValueDefinition.mem_references_iff.1 h with ⟨applied, happlied, rfl⟩ | rfl
  · exact .use (.onArgument found hargument happlied)
  · exact .argumentType found hargument

/-- The edges of a name lead to the names that its definition lists. -/
theorem edge_iff_mem_references {source target : Reference} :
    d.Edge source target ↔ target ∈ d.references source := by
  refine ⟨mem_references_of_edge, fun h ↦ ?_⟩
  cases source with
  | type name =>
    cases found : d.type? name with
    | none => simp [references, found] at h
    | some type => exact edge_of_mem_type found (by simpa [references, found] using h)
  | directive name =>
    cases found : d.directive? name with
    | none => simp [references, found] at h
    | some directive => exact edge_of_mem_directive found (by simpa [references, found] using h)

/-- Only defined names have edges. -/
theorem mem_all_of_edge {source target : Reference} (h : d.Edge source target) : source ∈ d.all := by
  cases h with
  | use use =>
    cases use with
    | onArgument found => exact mem_all_of_directive? found
    | onType found => exact mem_all_of_type? found
    | onEnumValue found => exact mem_all_of_type? found
    | onInputField found => exact mem_all_of_type? found
  | argumentType found => exact mem_all_of_directive? found
  | fieldType found => exact mem_all_of_type? found

/-! ### Chains of references -/

/-- A chain of references leads from one of the names `starts` to a directive. The chain may be that name
alone. -/
def Reaches (d : Definitions) (starts : List Reference) (target : String) : Prop :=
  ∃ start ∈ starts, Relation.ReflTransGen d.Edge start (.directive target)

/-- A chain of references from one of the names `starts` to a directive, with no name twice. -/
structure Route (d : Definitions) (starts : List Reference) (target : String)
    (route : List Reference) : Prop where
  starts : ∃ start ∈ starts, route.head? = some start
  linked : route.IsChain d.Edge
  ends : route.getLast? = some (.directive target)
  nodup : route.Nodup

/-- A route is a way to reach the directive. -/
theorem Route.reaches {starts : List Reference} {target : String} {route : List Reference}
    (h : d.Route starts target route) : d.Reaches starts target := by
  obtain ⟨start, hstart, hhead⟩ := h.starts
  have hne : route ≠ [] := by
    rintro rfl
    cases hhead
  refine ⟨start, hstart, ?_⟩
  have hreach := List.relationReflTransGen_of_exists_isChain route h.linked hne
  have hfirst : route.head hne = start := (List.head_eq_iff_head?_eq_some hne).2 hhead
  have hlast : route.getLast hne = .directive target :=
    (List.getLast_eq_iff_getLast?_eq_some hne).2 h.ends
  rwa [hfirst, hlast] at hreach

/-- A name on a chain is the last one or refers to something. -/
theorem eq_last_or_edge_of_mem {route : List Reference} (hlinked : route.IsChain d.Edge)
    {last : Reference} (hlast : route.getLast? = some last) {name : Reference} (hname : name ∈ route) :
    name = last ∨ ∃ next, d.Edge name next := by
  induction hlinked with
  | nil => cases hname
  | singleton a =>
    cases hlast
    exact .inl (List.mem_singleton.1 hname)
  | cons_cons hedge _ ih =>
    rw [List.getLast?_cons_cons] at hlast
    rcases List.mem_cons.1 hname with rfl | hname
    · exact .inr ⟨_, hedge⟩
    · exact ih hlast hname

/-- Whatever a route passes before the directive it leads to is defined. -/
theorem Route.eq_target_or_mem_all {starts : List Reference} {target : String}
    {route : List Reference} (h : d.Route starts target route) {name : Reference}
    (hname : name ∈ route) : name = .directive target ∨ name ∈ d.all :=
  (eq_last_or_edge_of_mem h.linked h.ends hname).imp_right fun ⟨_, hedge⟩ ↦ mem_all_of_edge hedge

/-! ### Chains as they are written -/

/-- A list of labels that leads from one of the names `starts` to a directive, along references. -/
structure Path (d : Definitions) (starts : List Reference) (target : String) (path : List String) :
    Prop where
  starts : ∃ start ∈ starts, path.head? = some start.label
  linked : path.IsChain fun a b ↦ ∃ x y : Reference, x.label = a ∧ y.label = b ∧ d.Edge x y
  ends : path.getLast? = some ("@" ++ target)
  nodup : path.Nodup
  target_last : "@" ++ target ∉ path.dropLast

/-- The labels of two names of a route differ, as long as no type has a sign in its name. -/
theorem Route.eq_of_label_eq {starts : List Reference} {target : String} {route : List Reference}
    (h : d.Route starts target route) (hplain : ∀ name ∈ d.types.keys, '@' ∉ name.toList)
    {x y : Reference} (hx : x ∈ route) (hy : y ∈ route) (hlabel : x.label = y.label) : x = y := by
  have htype {name other : String} (hmem : .type name ∈ route) : name ≠ "@" ++ other := by
    rcases h.eq_target_or_mem_all hmem with heq | hall
    · cases heq
    · have hkey : name ∈ d.types.keys := by simpa [all] using hall
      rintro rfl
      exact hplain _ hkey (by simp)
  -- only the label of a directive has the sign
  cases x with
  | type name =>
    cases y with
    | type other => exact congrArg Reference.type hlabel
    | directive other => exact absurd hlabel (htype hx)
  | directive name =>
    cases y with
    | type other => exact absurd hlabel.symm (htype hy)
    | directive other => simpa [Reference.label] using hlabel

/-- The labels of a route are a path. -/
theorem Route.path {starts : List Reference} {target : String} {route : List Reference}
    (h : d.Route starts target route) (hplain : ∀ name ∈ d.types.keys, '@' ∉ name.toList) :
    d.Path starts target (route.map Reference.label) where
  starts := by
    obtain ⟨start, hstart, hhead⟩ := h.starts
    exact ⟨start, hstart, by rw [List.head?_map, hhead]; rfl⟩
  linked := List.isChain_map_of_isChain _ (fun a b hab ↦ ⟨a, b, rfl, rfl, hab⟩) h.linked
  ends := by
    rw [List.getLast?_map, h.ends]
    rfl
  nodup := h.nodup.map_on fun _ hx _ hy ↦ h.eq_of_label_eq hplain hx hy
  target_last := by
    rw [← List.map_dropLast]
    intro hmem
    obtain ⟨name, hname, hlabel⟩ := List.mem_map.1 hmem
    have htarget : .directive target ∈ route := List.mem_of_getLast? h.ends
    have heq : name = .directive target :=
      h.eq_of_label_eq hplain (List.dropLast_subset _ hname) htarget hlabel
    obtain ⟨front, rfl⟩ := List.getLast?_eq_some_iff.1 h.ends
    rw [List.dropLast_concat] at hname
    exact List.disjoint_of_nodup_append h.nodup (heq ▸ hname) List.mem_cons_self

end Definitions

end TypeSystem
