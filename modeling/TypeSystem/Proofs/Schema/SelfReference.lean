import TypeSystem.Proofs.Failing
import TypeSystem.Proofs.Schema.DirectiveRules
import TypeSystem.Schema.Build

/-!
# Self-references in accepted schemas

A directive that is applied, however many references away, to its own arguments or their types refers to
itself. How far does the check rule that out? It looks at the type of an argument only if the directive
may be applied to a type of that kind, and at the directives on an argument only if it may be applied to
arguments. Behind these two gates nothing is left: once one of them is open, no chain of references leads
back to the directive, wherever the use at its end stands (`accepted_not_leadsTo`). Where a gate is shut
the check does not look at all, so that a chain of two references or more may lead to a use at a place
where the directive may be applied (`exists_accepted_leadsTo`).
-/

namespace TypeSystem

/-- The tables of a schema. -/
def Schema.definitions (schema : Schema) : Definitions :=
  ⟨schema.types, schema.directives⟩

namespace Definitions

/-! ### Uses at the end of a chain -/

/-- A chain of references leads from a name to a definition that has a directive applied somewhere in it,
at a location. -/
def LeadsTo (d : Definitions) (start : Reference) (location : DirectiveLocation) (name : String) :
    Prop :=
  ∃ site, Relation.ReflTransGen d.Edge start site ∧ d.Uses site location name

/-- One of the directives on an argument is the directive of a given name, or a chain of references leads
from it to a use of that directive at a location. -/
inductive AppliedLeadsTo (d : Definitions) (argument : InputValueDefinition) :
    DirectiveLocation → String → Prop where
  | onArgument {applied : AppliedDirective} (applied_mem : applied ∈ argument.directives) :
      AppliedLeadsTo d argument .argumentDefinition applied.name
  | along {applied : AppliedDirective} {location : DirectiveLocation} {name : String}
      (applied_mem : applied ∈ argument.directives)
      (leads : d.LeadsTo (.directive applied.name) location name) :
      AppliedLeadsTo d argument location name

variable {d : Definitions} {argument : InputValueDefinition} {location : DirectiveLocation}
  {name : String}

/-- What a chain of types leads to is reached. -/
theorem LeadsTo.reaches {start : Reference} (h : d.LeadsTo start location name) :
    d.Reaches [start] name := by
  obtain ⟨site, hchain, huse⟩ := h
  exact ⟨start, List.mem_singleton_self _, hchain.tail (.use huse)⟩

/-- What a chain from an argument leads to is reached from what is applied to the argument. -/
theorem AppliedLeadsTo.reaches (h : d.AppliedLeadsTo argument location name) :
    d.Reaches (appliedReferences argument.directives) name := by
  cases h with
  | onArgument applied_mem =>
    exact ⟨_, mem_appliedReferences_iff.2 ⟨_, applied_mem, rfl⟩, .refl⟩
  | along applied_mem leads =>
    obtain ⟨start, hstart, hchain⟩ := leads.reaches
    obtain rfl := List.mem_singleton.1 hstart
    exact ⟨_, mem_appliedReferences_iff.2 ⟨_, applied_mem, rfl⟩, hchain⟩

/-- A directive with a use in a type, at a location where it may be applied, applies to types of that
kind. -/
theorem Uses.appliesTo {typeName : String} {type : TypeDefinition} {directive : DirectiveDefinition}
    (found : d.type? typeName = some type) (input : type.kind.isInput = true)
    (use : d.Uses (.type typeName) location name) (allowed : location ∈ directive.locations) :
    directive.AppliesTo type.kind := by
  -- the location tells the kind, but for a use on the type itself, where the kind tells the location
  cases use with
  | onType found' _ =>
    obtain rfl := Option.some.inj (found.symm.trans found')
    rcases TypeKind.isInput_iff.1 input with hkind | hkind | hkind <;>
      rw [hkind] at allowed ⊢
    · exact allowed
    · exact .inl allowed
    · exact .inl allowed
  | onEnumValue found' body_eq _ _ | onInputField found' body_eq _ _ =>
    obtain rfl := Option.some.inj (found.symm.trans found')
    rw [TypeDefinition.kind, body_eq]
    exact .inr allowed

/-! ### Directives that are not applied anywhere -/

/-- Whether a directive is applied nowhere in the tables. -/
def isUnused (d : Definitions) (name : String) : Bool :=
  d.all.all fun source ↦ .directive name ∉ d.references source

/-- Whether a directive keeps the rules for all that a look at its own definition tells: an open gate is
tolerated only if it is applied nowhere. -/
def isPlainlyLawful (d : Definitions) (directive : DirectiveDefinition) : Bool :=
  !isReserved directive.name && directive.arguments.all fun argument ↦
    !isReserved argument.name &&
      (d.type? argument.type.innermostName).any (fun type ↦
        type.kind.isInput && (d.isUnused directive.name || !covers directive type.kind)) &&
      (d.isUnused directive.name || !directive.allows .argumentDefinition)

/-- A directive that is applied nowhere is at the end of no reference. -/
theorem not_edge_of_isUnused (h : d.isUnused name = true) (source : Reference) :
    ¬ d.Edge source (.directive name) := by
  intro hedge
  have hall := List.all_eq_true.1 h source (mem_all_of_edge hedge)
  exact of_decide_eq_true hall (edge_iff_mem_references.1 hedge)

/-- No chain leads to a directive that is applied nowhere, but the empty one. -/
theorem not_reaches_of_isUnused (h : d.isUnused name = true) {starts : List Reference}
    (hstarts : .directive name ∉ starts) : ¬ d.Reaches starts name := by
  rintro ⟨start, hstart, hchain⟩
  rcases hchain.cases_tail with rfl | ⟨source, -, hedge⟩
  · exact hstarts hstart
  · exact not_edge_of_isUnused h source hedge

/-- The plain test is enough for a directive to be lawful, without a search. -/
theorem lawfulDirective_of_isPlainlyLawful (hd : d.WellFormed) {directive : DirectiveDefinition}
    (directive_mem : directive ∈ d.directives.values) (h : d.isPlainlyLawful directive = true) :
    d.LawfulDirective directive := by
  simp only [isPlainlyLawful, Bool.and_eq_true, Bool.not_eq_true', List.all_eq_true, Bool.or_eq_true,
    Option.any_eq_true] at h
  obtain ⟨hname, harguments⟩ := h
  refine ⟨fun hreserved ↦ ?_, fun argument argument_mem ↦ ?_⟩
  · rw [isReserved_iff.2 hreserved] at hname
    cases hname
  · obtain ⟨⟨hplain, type, found, hinput, htype⟩, happlied⟩ := harguments argument argument_mem
    refine ⟨fun hreserved ↦ ?_, ⟨type, found, TypeKind.isInput_iff.1 hinput, fun happlies ↦ ?_⟩,
      fun hallowed ↦ ?_⟩
    · rw [isReserved_iff.2 hreserved] at hplain
      cases hplain
    · -- the gate is open, so the directive is applied nowhere
      rw [covers_iff.2 happlies] at htype
      exact not_reaches_of_isUnused (htype.resolve_right (by simp)) (by simp)
    · rw [DirectiveDefinition.allows_iff.2 hallowed] at happlied
      have hunused := happlied.resolve_right (by simp)
      refine not_reaches_of_isUnused hunused fun hmem ↦ ?_
      obtain ⟨applied, applied_mem, heq⟩ := mem_appliedReferences_iff.1 hmem
      have hedge := Edge.use (.onArgument (hd.directives.find?_name directive_mem) argument_mem applied_mem)
      exact not_edge_of_isUnused hunused _ (heq ▸ hedge)

end Definitions

/-! ### What acceptance means -/

namespace Schema

/-- The schema of a document, its directives not yet checked. -/
def uncheckedOf (document : Document) : Except ValidationError Schema := do
  let whole := Builtin.document.merge [document]
  let definitions ← Definitions.build whole.types whole.directives
  let extended ← (definitions.extendAll whole.typeExtensions).result
  let roots ← extended.resolveRoots whole.schemas whole.schemaExtensions
  return ⟨roots, extended.types, extended.directives⟩

variable {document : Document} {schema : Schema}

/-- What is built, checked or not, is well-formed. -/
theorem wellFormed_of_uncheckedOf (h : uncheckedOf document = .ok schema) :
    schema.definitions.WellFormed := by
  obtain ⟨built, hbuilt, h⟩ := Except.bind_eq_ok_iff.1 h
  obtain ⟨extended, hextended, h⟩ := Except.bind_eq_ok_iff.1 h
  obtain ⟨roots, -, h⟩ := Except.bind_eq_ok_iff.1 h
  cases h
  have hwell : built.WellFormed := .build hbuilt
  exact .of_result (hwell.extendAll _) hextended

/-- A document is accepted if it has a schema and the directives of that pass the check. -/
theorem ofDocument_eq_ok_iff :
    ofDocument document = .ok schema ↔
      uncheckedOf document = .ok schema ∧ schema.definitions.checkDirectives = .ok () := by
  have heq : ofDocument document = uncheckedOf document >>= fun unchecked ↦
      unchecked.definitions.checkDirectives >>= fun _ ↦ .ok unchecked := by
    simp only [uncheckedOf, bind_assoc, pure_bind]
    rfl
  rw [heq, Except.bind_eq_ok_iff]
  constructor
  · rintro ⟨unchecked, hunchecked, h⟩
    obtain ⟨⟨⟩, hchecked, h⟩ := Except.bind_eq_ok_iff.1 h
    cases h
    exact ⟨hunchecked, hchecked⟩
  · rintro ⟨hunchecked, hchecked⟩
    exact ⟨schema, hunchecked, Except.bind_eq_ok_iff.2 ⟨(), hchecked, rfl⟩⟩

/-- A document is accepted if every directive of its tables is plainly lawful. -/
theorem ofDocument_of_isPlainlyLawful (h : (uncheckedOf document).toOption = some schema)
    (hplain : ∀ directive ∈ schema.directives.values,
      schema.definitions.isPlainlyLawful directive = true) :
    ofDocument document = .ok schema := by
  have hok : uncheckedOf document = .ok schema := by
    cases hread : uncheckedOf document with
    | error e =>
      rw [hread] at h
      cases h
    | ok unchecked =>
      rw [hread] at h
      cases h
      rfl
  have hwell := wellFormed_of_uncheckedOf hok
  refine ofDocument_eq_ok_iff.2 ⟨hok, (Definitions.checkDirectives_eq_ok_iff hwell).2 ?_⟩
  intro directive directive_mem
  exact Definitions.lawfulDirective_of_isPlainlyLawful hwell directive_mem (hplain _ directive_mem)

end Schema

namespace Definitions

/-- **Accepted directives do not refer to themselves past an open gate.** The innermost type of every
argument is defined. If the directive applies to types of its kind, no chain of references from the type
ends in a use of the directive, and if the directive applies to arguments, no chain from a directive on
the argument does, at whatever location the use stands. In any case the innermost type has no use of the
directive at a location of its own. -/
theorem accepted_not_leadsTo {document : Document} {schema : Schema}
    (h : Schema.ofDocument document = .ok schema) {directive : DirectiveDefinition}
    (directive_mem : directive ∈ schema.directives.values) {argument : InputValueDefinition}
    (argument_mem : argument ∈ directive.arguments) :
    (∃ type, schema.type? argument.type.innermostName = some type ∧
      (directive.AppliesTo type.kind → ∀ location,
        ¬ schema.definitions.LeadsTo (.type argument.type.innermostName) location directive.name)) ∧
    (.argumentDefinition ∈ directive.locations → ∀ location,
      ¬ schema.definitions.AppliedLeadsTo argument location directive.name) ∧
    ∀ location ∈ directive.locations,
      ¬ schema.definitions.Uses (.type argument.type.innermostName) location directive.name := by
  obtain ⟨hunchecked, hchecked⟩ := Schema.ofDocument_eq_ok_iff.1 h
  have hwell := Schema.wellFormed_of_uncheckedOf hunchecked
  have hlawful : schema.definitions.LawfulArgument directive argument :=
    ((checkDirectives_eq_ok_iff hwell).1 hchecked directive directive_mem).arguments argument argument_mem
  obtain ⟨type, found, hinput, hcycle⟩ := hlawful.type
  refine ⟨⟨type, found, fun happlies location hleads ↦ ?_⟩, fun hallowed location hleads ↦ ?_,
    fun location hallowed huse ↦ ?_⟩
  · exact hcycle happlies hleads.reaches
  · exact hlawful.applied hallowed hleads.reaches
  · have happlies : directive.AppliesTo type.kind :=
      huse.appliesTo found (TypeKind.isInput_iff.2 hinput) hallowed
    have hleads : schema.definitions.LeadsTo (.type argument.type.innermostName) location directive.name :=
      ⟨_, .refl, huse⟩
    exact hcycle happlies hleads.reaches

/-- A directive with an argument of the input object `In`. -/
def withInArgument (name : String) (location : DirectiveLocation) : DirectiveDefinition :=
  ⟨none, name, [⟨none, "arg", .named "In" .nullable, none, [], .emptyAt .origin⟩], false, [location],
    .emptyAt .origin⟩

/-- The scalar type `Json`, with `@d` applied to it. -/
def jsonWithD : TypeDefinition :=
  ⟨none, "Json", [⟨"d", [], .emptyAt .origin⟩], .scalar, .emptyAt .origin⟩

/-- The input object `In` leads to `Json` and on to `@d`. An argument of it keeps the gate of `@d` shut,
and the gate of `@e` open. -/
def shutAndOpen : Document :=
  ⟨[inputWith "In" "Json" [], jsonWithD], [],
    [withInArgument "d" .scalar, withInArgument "e" .inputObject], [], []⟩

set_option maxRecDepth 2000 in
/-- The document is accepted, with both directives and both types as they are written. -/
theorem exists_ofDocument_shutAndOpen :
    ∃ schema, Schema.ofDocument shutAndOpen = .ok schema ∧
      (withInArgument "d" .scalar ∈ schema.directives.values ∧
        withInArgument "e" .inputObject ∈ schema.directives.values) ∧
      schema.type? "In" = some (inputWith "In" "Json" []) ∧ schema.type? "Json" = some jsonWithD := by
  obtain ⟨schema, hschema, hplain, hread⟩ : ∃ schema ∈ (Schema.uncheckedOf shutAndOpen).toOption,
      (∀ directive ∈ schema.directives.values,
        schema.definitions.isPlainlyLawful directive = true) ∧
      (withInArgument "d" .scalar ∈ schema.directives.values ∧
        withInArgument "e" .inputObject ∈ schema.directives.values) ∧
      schema.type? "In" = some (inputWith "In" "Json" []) ∧
      schema.type? "Json" = some jsonWithD := by
    unfold Schema.uncheckedOf
    rw [Builtin.document_of_text_eq rfl]
    decide +kernel
  exact ⟨schema, Schema.ofDocument_of_isPlainlyLawful hschema hplain, hread⟩

/-- The gate of `@e` is open, and no chain leads to it from the type of its argument. -/
theorem accepted_not_leadsTo_of_open :
    ∃ schema, Schema.ofDocument shutAndOpen = .ok schema ∧
      withInArgument "e" .inputObject ∈ schema.directives.values ∧
      ∀ location, ¬ schema.definitions.LeadsTo (.type "In") location "e" := by
  obtain ⟨schema, hok, ⟨-, hmem⟩, hin, -⟩ := exists_ofDocument_shutAndOpen
  obtain ⟨⟨type, found, hleads⟩, -, -⟩ := accepted_not_leadsTo hok hmem (List.mem_singleton_self _)
  obtain rfl := Option.some.inj (hin.symm.trans found)
  exact ⟨schema, hok, hmem, hleads (.inl (List.mem_singleton_self _))⟩

/-- **Behind a shut gate a directive may refer to itself.** With `@d` for scalars only, the input object
`In` of its argument is not looked into, so that the type of the field of `In` may be a scalar with
`@d`. -/
theorem exists_accepted_leadsTo :
    ¬ ∀ (document : Document) (schema : Schema), Schema.ofDocument document = .ok schema →
      ∀ directive ∈ schema.directives.values, ∀ argument ∈ directive.arguments,
        ∀ location ∈ directive.locations,
          ¬ schema.definitions.LeadsTo (.type argument.type.innermostName) location directive.name ∧
          ¬ schema.definitions.AppliedLeadsTo argument location directive.name := by
  obtain ⟨schema, hok, ⟨hmem, -⟩, hin, hjson⟩ := exists_ofDocument_shutAndOpen
  change schema.definitions.type? "In" = _ at hin
  change schema.definitions.type? "Json" = _ at hjson
  intro hall
  refine (hall _ schema hok _ hmem _ (List.mem_singleton_self _) .scalar
    (List.mem_singleton_self _)).1 ⟨.type "Json", ?_, ?_⟩
  · exact .single (.fieldType hin rfl (List.mem_singleton_self _))
  · exact .onType hjson (List.mem_singleton_self _)

end Definitions

end TypeSystem
