import Mathlib.Data.List.Perm.Basic
import TypeSystem.Proofs.Schema.Gathering

/-!
# Sources in another order

Whether sources make a schema does not depend on their order, and neither does the schema but for the
order in which extensions add their items (`ofSources_perm`). Errors do depend on it, and so does the way of
the search for self-references. So the proof is not about the steps of a build but about what each of them
comes to: distinct names, extensions that find types of their kinds, operations declared once, and
directives that no chain of references leads back to. Of all these a permutation changes nothing, as tables
that *agree* (`Definitions.Agree`) have the same kinds, roots and edges.
-/

namespace TypeSystem

open Binary.Codec (interfacesOf fieldsOf membersOf valuesOf inputFieldsOf)

/-! ### Types with extensions in another order -/

/-- Two types are one definition out of a list, followed in each of its collections by the items of the same
extensions, each time in an order of its own. -/
def TypeDefinition.Reordered (bases : List TypeDefinition) (exts : List TypeExtension)
    (type type' : TypeDefinition) : Prop :=
  ∃ base ∈ bases, ∃ added added', type.Folds base added ∧ type'.Folds base added' ∧ added.Perm added' ∧
    added ⊆ exts

/-- A body refers by what is applied to its values, and by its input fields. -/
theorem TypeBody.mem_references_iff {body : TypeBody} {target : Reference} :
    target ∈ body.references ↔
      (∃ value ∈ valuesOf body, target ∈ appliedReferences value.directives) ∨
        ∃ field ∈ inputFieldsOf body, target ∈ field.references := by
  cases body <;> simp [references, valuesOf, inputFieldsOf]

namespace TypeDefinition

variable {bases : List TypeDefinition} {exts : List TypeExtension} {type type' : TypeDefinition}

namespace Reordered

/-- Types that differ in the order of their extensions have one name. -/
theorem name_eq (h : Reordered bases exts type type') : type.name = type'.name := by
  obtain ⟨base, -, added, added', hfolds, hfolds', -, -⟩ := h
  exact hfolds.name.trans hfolds'.name.symm

theorem kind_eq (h : Reordered bases exts type type') : type.kind = type'.kind := by
  obtain ⟨base, -, added, added', hfolds, hfolds', -, -⟩ := h
  exact hfolds.kind.trans hfolds'.kind.symm

/-- And one span, which is that of the definition. -/
theorem span_eq (h : Reordered bases exts type type') : type.span = type'.span := by
  obtain ⟨base, -, added, added', hfolds, hfolds', -, -⟩ := h
  exact hfolds.span.trans hfolds'.span.symm

/-- What a type refers to does not depend on the order of its extensions. -/
theorem mem_references_iff (h : Reordered bases exts type type') (target : Reference) :
    target ∈ type.references ↔ target ∈ type'.references := by
  obtain ⟨base, -, added, added', hfolds, hfolds', hperm, -⟩ := h
  have hmem {α : Type} (collection : TypeExtension → List α) (a : α) :
      a ∈ added.flatMap collection ↔ a ∈ added'.flatMap collection :=
    (hperm.flatMap_right collection).mem_iff
  simp only [TypeDefinition.references, List.mem_append, mem_appliedReferences_iff,
    TypeBody.mem_references_iff, hfolds.directives, hfolds'.directives, hfolds.values, hfolds'.values,
    hfolds.inputFields, hfolds'.inputFields, hmem]

end Reordered

end TypeDefinition

/-! ### Tables that agree -/

namespace Definitions

/-- Two tables have the same directives under each name, and the same types but for the order of
extensions. -/
structure Agree (bases : List TypeDefinition) (exts : List TypeExtension) (d d' : Definitions) : Prop where
  types : ∀ name, Option.Rel (TypeDefinition.Reordered bases exts) (d.type? name) (d'.type? name)
  directives : ∀ name, d.directive? name = d'.directive? name

namespace Agree

variable {bases : List TypeDefinition} {exts : List TypeExtension} {d d' : Definitions}
  {directive : DirectiveDefinition} {argument : InputValueDefinition}

/-- What holds of a type of the one table holds of the type of that name of the other, if it does not depend
on the order of extensions. -/
theorem exists_type (h : Agree bases exts d d') {P P' : TypeDefinition → Prop} {name : String}
    (hP : ∀ type type', TypeDefinition.Reordered bases exts type type' → P type → P' type')
    (hd : ∃ type, d.type? name = some type ∧ P type) : ∃ type, d'.type? name = some type ∧ P' type := by
  obtain ⟨type, htype, hholds⟩ := hd
  have hrel := h.types name
  rw [htype] at hrel
  cases hrel' : d'.type? name with
  | none => rw [hrel'] at hrel; cases hrel
  | some type' =>
    rw [hrel'] at hrel
    obtain ⟨hreordered⟩ := hrel
    exact ⟨type', rfl, hP type type' hreordered hholds⟩

/-- Tables that agree have the same edges. -/
theorem edge_iff (h : Agree bases exts d d') (source target : Reference) :
    d.Edge source target ↔ d'.Edge source target := by
  rw [edge_iff_mem_references, edge_iff_mem_references]
  cases source with
  | directive name => rw [references, references, h.directives name]
  | type name =>
    have hrel := h.types name
    rw [references, references]
    generalize d.type? name = found, d'.type? name = found' at hrel
    cases hrel with
    | none => rfl
    | some hreordered => exact hreordered.mem_references_iff target

/-- Tables that agree reach the same directives, since they have the same edges. -/
theorem reaches_iff (h : Agree bases exts d d') (starts : List Reference) (target : String) :
    d.Reaches starts target ↔ d'.Reaches starts target := by
  have hedge : d.Edge = d'.Edge := by
    funext source target
    exact propext (h.edge_iff source target)
  rw [Reaches, Reaches, hedge]

/-- What is lawful in one table is lawful in the other. -/
theorem lawfulArgument (h : Agree bases exts d d') (hd : d.LawfulArgument directive argument) :
    d'.LawfulArgument directive argument where
  name := hd.name
  type := by
    refine h.exists_type (fun type type' hreordered ↦ ?_) hd.type
    rw [hreordered.kind_eq, h.reaches_iff]
    exact id
  applied hallowed := by
    rw [← h.reaches_iff]
    exact hd.applied hallowed

/-- Tables that agree pass the check of the directives, or neither does. -/
theorem checkDirectives (h : Agree bases exts d d') (hwell : d.WellFormed) (hwell' : d'.WellFormed)
    (hd : d.checkDirectives = .ok ()) : d'.checkDirectives = .ok () := by
  refine (checkDirectives_eq_ok_iff hwell').2 fun directive hmem ↦ ?_
  have hfound : d.directive? directive.name = some directive :=
    (h.directives _).trans (hwell'.directives.find?_name hmem)
  have hmem' : directive ∈ d.directives.values :=
    Table.mem_values_iff.2 ⟨_, Table.mem_entries_of_find? hfound⟩
  obtain ⟨hname, harguments⟩ := (checkDirectives_eq_ok_iff hwell).1 hd directive hmem'
  exact ⟨hname, fun argument hargument ↦ h.lawfulArgument (harguments argument hargument)⟩

/-! ### Root types of tables that agree -/

/-- Root types found by name are found in both tables. -/
theorem defaultDeclarations_eq (h : Agree bases exts d d') :
    d.defaultDeclarations = d'.defaultDeclarations := by
  refine List.filterMap_congr fun operation _ ↦ ?_
  have hrel := h.types operation.defaultTypeName
  rw [object?, object?]
  generalize d.type? operation.defaultTypeName = found, d'.type? operation.defaultTypeName = found' at hrel
  cases hrel with
  | none => rfl
  | some hreordered =>
    simp only [Option.filter_some, hreordered.kind_eq]
    split
    · rw [Option.map_some, Option.map_some, hreordered.name_eq, hreordered.span_eq]
    · rfl

/-- Schema blocks and their extensions in another order declare the same root types. -/
theorem resolveRoots (h : Agree bases exts d d') {schemas schemas' : List SchemaDefinition}
    {extensions extensions' : List SchemaExtension} (hschemas : schemas.Perm schemas')
    (hextensions : extensions.Perm extensions') {roots : RootTypes}
    (hd : d.resolveRoots schemas extensions = .ok roots) :
    d'.resolveRoots schemas' extensions' = .ok roots := by
  obtain ⟨hlength, hnodup, hobjects, rfl⟩ := resolveRoots_eq_ok_iff.1 hd
  -- there is one block at most, so that blocks have one order only
  have hbase : d.baseDeclarations schemas = d'.baseDeclarations schemas' := by
    match schemas, hlength with
    | [], _ =>
      rw [hschemas.nil_eq.symm]
      exact h.defaultDeclarations_eq
    | [schema], _ =>
      rw [List.perm_singleton.1 hschemas.symm]
      rfl
  have hperm : (d.rootDeclarations schemas extensions).Perm (d'.rootDeclarations schemas' extensions') := by
    rw [rootDeclarations, rootDeclarations, hbase]
    exact (hextensions.flatMap_right _).append_left _
  have hnodup' := (hperm.map RootDeclaration.operation).nodup_iff.1 hnodup
  refine resolveRoots_eq_ok_iff.2 ⟨hschemas.length_eq ▸ hlength, hnodup', fun declaration hmem ↦ ?_, ?_⟩
  · refine h.exists_type (fun type type' hreordered hkind ↦ ?_) (hobjects declaration (hperm.mem_iff.2 hmem))
    exact hreordered.kind_eq.symm.trans hkind
  · refine RootTypes.ext_get fun operation ↦ Option.ext fun name ↦ ?_
    rw [RootTypes.get_ofDeclarations_eq_some_iff hnodup, RootTypes.get_ofDeclarations_eq_some_iff hnodup']
    simp only [hperm.mem_iff]

end Agree

end Definitions

/-! ### Definitions in another order -/

/-- With distinct names, what is found under a key does not depend on the order of the list. -/
theorem Table.find?_listing_perm {κ α : Type} [DecidableEq κ] {name : α → κ} {as bs : List α}
    (h : as.Perm bs) (hnodup : (as.map name).Nodup) (key : κ) :
    (listing name as).find? key = (listing name bs).find? key := by
  refine Option.ext fun a ↦ ?_
  rw [find?_listing_eq_some_iff hnodup, find?_listing_eq_some_iff ((h.map name).nodup_iff.1 hnodup),
    h.mem_iff]

namespace Definitions

variable {types types' : List TypeDefinition} {directives directives' : List DirectiveDefinition}
  {exts exts' : List TypeExtension} {built extended : Definitions}

/-- What a name finds in extended tables is what it finds before, with the extensions of that name folded
in. -/
theorem folds_find? (hbuild : build types directives = .ok built)
    (hextend : (built.extendAll exts).result = .ok extended) (name : String) :
    Option.Rel (fun base (type : TypeDefinition) ↦ type.Folds base (exts.filter fun ext ↦ ext.name = name))
      (built.type? name) (extended.type? name) :=
  Table.find?_rel (R := fun key base (type : TypeDefinition) ↦
      type.Folds base (exts.filter fun ext ↦ ext.name = key))
    (folds_of_extendAll (WellFormed.build hbuild).types.nodup hextend).2 name

/-- Definitions and extensions in another order are indexed and extended as before, up to the order of what
extensions add. -/
theorem exists_agree_of_build (htypes : types.Perm types') (hdirectives : directives.Perm directives')
    (hexts : exts.Perm exts') (hbuild : build types directives = .ok built)
    (hextend : (built.extendAll exts).result = .ok extended) :
    ∃ built' extended', build types' directives' = .ok built' ∧
      (built'.extendAll exts').result = .ok extended' ∧ Agree types exts extended extended' := by
  obtain ⟨hnodup, hnodup', rfl⟩ := build_eq_ok_iff.1 hbuild
  let built' : Definitions :=
    ⟨.listing TypeDefinition.name types', .listing DirectiveDefinition.name directives'⟩
  have hbuild' : build types' directives' = .ok built' :=
    build_eq_ok_iff.2 ⟨(htypes.map _).nodup_iff.1 hnodup, (hdirectives.map _).nodup_iff.1 hnodup', rfl⟩
  have hsame := Table.find?_listing_perm htypes hnodup
  -- every extension still finds a type of its kind
  obtain ⟨extended', hextend'⟩ : ∃ extended', (built'.extendAll exts').result = .ok extended' := by
    refine exists_extendAll_eq_ok_iff.2 fun ext hext ↦ ?_
    have hfound := exists_extendAll_eq_ok_iff.1 ⟨extended, hextend⟩ ext (hexts.mem_iff.2 hext)
    rwa [type?, hsame] at hfound
  refine ⟨built', extended', hbuild', hextend', fun name ↦ ?_, fun name ↦ ?_⟩
  · have hrel := folds_find? hbuild hextend name
    have hrel' := folds_find? hbuild' hextend' name
    have hbase {base : TypeDefinition}
        (hfound : (Table.listing TypeDefinition.name types).find? name = some base) :
        base ∈ types := ((Table.find?_listing_eq_some_iff hnodup).1 hfound).1
    simp only [type?, built', ← hsame] at hrel hrel' ⊢
    generalize (Table.listing TypeDefinition.name types).find? name = found,
      extended.types.find? name = type, extended'.types.find? name = type' at hrel hrel' hbase
    cases hrel with
    | none =>
      cases hrel'
      exact .none
    | some hfolds =>
      cases hrel' with
      | some hfolds' =>
        exact .some ⟨_, hbase rfl, _, _, hfolds, hfolds', hexts.filter _, List.filter_subset_self _⟩
  · obtain ⟨hdirectives', -⟩ := folds_of_extendAll (WellFormed.build hbuild).types.nodup hextend
    obtain ⟨hdirectives'', -⟩ := folds_of_extendAll (WellFormed.build hbuild').types.nodup hextend'
    rw [directive?, directive?, hdirectives', hdirectives'']
    exact Table.find?_listing_perm hdirectives hnodup' name

end Definitions

/-! ### Schemas of sources in another order -/

namespace Schema

variable {documents documents' : List Document} {schema schema' : Schema}

/-- Two schemas have the same root types, and tables that agree. -/
structure Agree (bases : List TypeDefinition) (exts : List TypeExtension) (schema schema' : Schema) :
    Prop where
  roots : schema.roots = schema'.roots
  directives : ∀ name, schema.directive? name = schema'.directive? name
  types : ∀ name, Option.Rel (TypeDefinition.Reordered bases exts) (schema.type? name) (schema'.type? name)

/-- If the documents in one order give a schema, so do they in another order, and the two agree. -/
theorem exists_agree_of_ofDocument (h : documents.Perm documents')
    (hschema : ofDocument (.mergeAll documents) = .ok schema) :
    ∃ schema', ofDocument (.mergeAll documents') = .ok schema' ∧
      Agree (Builtin.document.types ++ documents.flatMap Document.types)
        (documents.flatMap Document.typeExtensions) schema schema' := by
  obtain ⟨hunchecked, hchecked⟩ := ofDocument_eq_ok_iff.1 hschema
  have hwell := wellFormed_of_uncheckedOf hunchecked
  obtain ⟨built, extended, roots, hbuild, hextend, hroots, rfl⟩ :=
    uncheckedOf_mergeAll_eq_ok_iff.1 hunchecked
  obtain ⟨built', extended', hbuild', hextend', hagree⟩ := Definitions.exists_agree_of_build
    ((h.flatMap_right Document.types).append_left _) ((h.flatMap_right Document.directives).append_left _)
    (h.flatMap_right Document.typeExtensions) hbuild hextend
  have hroots' := hagree.resolveRoots (h.flatMap_right Document.schemas)
    (h.flatMap_right Document.schemaExtensions) hroots
  have hunchecked' :=
    uncheckedOf_mergeAll_eq_ok_iff.2 ⟨built', extended', roots, hbuild', hextend', hroots', rfl⟩
  have hchecked' := hagree.checkDirectives hwell (wellFormed_of_uncheckedOf hunchecked') hchecked
  exact ⟨_, ofDocument_eq_ok_iff.2 ⟨hunchecked', hchecked'⟩, rfl, hagree.directives, hagree.types⟩

/-- Likewise for sources. A permutation of the sources is one of their documents, as each source is read
alone. -/
theorem exists_agree_of_ofSources {sources sources' : List Source} (h : sources.Perm sources')
    (hschema : ofSources sources = .ok schema) :
    ∃ documents schema',
      List.Forall₂ (fun source document ↦ Document.ofSource source = .ok document) sources documents ∧
      ofSources sources' = .ok schema' ∧
      Agree (Builtin.document.types ++ documents.flatMap Document.types)
        (documents.flatMap Document.typeExtensions) schema schema' := by
  obtain ⟨documents, hread, hdocument⟩ := ofSources_eq_ok_iff.1 hschema
  obtain ⟨documents', hread', hperm⟩ := List.perm_comp_forall₂ h.symm hread
  obtain ⟨schema', hdocument', hagree⟩ := exists_agree_of_ofDocument hperm.symm hdocument
  exact ⟨documents, schema', hread, ofSources_eq_ok_iff.2 ⟨documents', hread', hdocument'⟩, hagree⟩

/-- **The order of sources does not matter.** Sources in another order make a schema exactly if they do in
the order given, and the two schemas have the same root types, the same directives under each name, and
under each name the same type, but for the order in which extensions add to it. -/
theorem ofSources_perm {sources sources' : List Source} (h : sources.Perm sources') :
    ((∃ schema, ofSources sources = .ok schema) ↔ ∃ schema', ofSources sources' = .ok schema') ∧
      ∀ schema schema', ofSources sources = .ok schema → ofSources sources' = .ok schema' →
        ∃ documents,
          List.Forall₂ (fun source document ↦ Document.ofSource source = .ok document) sources documents ∧
          Agree (Builtin.document.types ++ documents.flatMap Document.types)
            (documents.flatMap Document.typeExtensions) schema schema' := by
  refine ⟨⟨fun ⟨schema, hschema⟩ ↦ ?_, fun ⟨schema', hschema'⟩ ↦ ?_⟩, fun schema schema' hschema hschema' ↦ ?_⟩
  · obtain ⟨-, schema', -, hschema', -⟩ := exists_agree_of_ofSources h hschema
    exact ⟨schema', hschema'⟩
  · obtain ⟨-, schema, -, hschema, -⟩ := exists_agree_of_ofSources h.symm hschema'
    exact ⟨schema, hschema⟩
  · obtain ⟨documents, other, hread, hother, hagree⟩ := exists_agree_of_ofSources h hschema
    obtain rfl : other = schema' := Except.ok.inj (hother.symm.trans hschema')
    exact ⟨documents, hread, hagree⟩

/-- Two sources, of which one extends what the other defines, in either order. -/
theorem ofSources_perm_extendedBefore :
    extendedBefore.Perm extendedBefore.reverse ∧
      ∃ schema schema' documents, ofSources extendedBefore = .ok schema ∧
        ofSources extendedBefore.reverse = .ok schema' ∧
        List.Forall₂ (fun source document ↦ Document.ofSource source = .ok document) extendedBefore documents ∧
        Agree (Builtin.document.types ++ documents.flatMap Document.types)
          (documents.flatMap Document.typeExtensions) schema schema' := by
  have hperm : extendedBefore.Perm extendedBefore.reverse := (List.reverse_perm _).symm
  obtain ⟨schema, hschema⟩ := exists_ofSources_extendedBefore
  obtain ⟨hiff, hagree⟩ := ofSources_perm hperm
  obtain ⟨schema', hschema'⟩ := hiff.1 ⟨schema, hschema⟩
  obtain ⟨documents, hread, hagree⟩ := hagree schema schema' hschema hschema'
  exact ⟨hperm, schema, schema', documents, hschema, hschema', hread, hagree⟩

end Schema

end TypeSystem
