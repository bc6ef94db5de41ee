import TypeSystem.Proofs.Reading.Completion
import TypeSystem.Proofs.Reading.Extents
import TypeSystem.Proofs.Schema.Folding

/-!
# What a schema gathers

A schema that is built from sources is what the sources define, with their extensions folded in, behind
the built-in definitions (`ofSources_gathers`). That it has all of it comes from the tables
(`Definitions.build_eq_ok_iff`, `Definitions.folds_of_extendAll`). That its types have the members that
their kinds call for comes from the language: a definition has them (`populated_of_ofSource`), and an
extension takes nothing away and adds no value with a reserved name (`plainValues_of_ofSource`).
-/

namespace TypeSystem

open Binary.Codec (interfacesOf fieldsOf membersOf valuesOf inputFieldsOf)

/-! ### Members that a kind calls for -/

namespace TypeBody

/-- No value of an enum has a reserved name. -/
def PlainValues (body : TypeBody) : Prop :=
  ∀ value ∈ valuesOf body, value.name ∉ ["true", "false", "null"]

/-- There are the members that the kind of a type calls for, and no value of an enum has a reserved
name. -/
structure Populated (body : TypeBody) : Prop where
  fields : body.kind = .object ∨ body.kind = .interface → fieldsOf body ≠ []
  inputFields : body.kind = .inputObject → inputFieldsOf body ≠ []
  values : body.kind = .enum → valuesOf body ≠ []
  members : body.kind = .union → membersOf body ≠ []
  plain : body.PlainValues

variable {body : TypeBody}

/-- Only enums have values. -/
theorem plainValues_of_kind_ne (h : body.kind ≠ .enum) : body.PlainValues := by
  cases body with
  | enum values => exact absurd rfl h
  | _ => exact fun value hvalue ↦ absurd hvalue List.not_mem_nil

/-- A scalar calls for no members. -/
theorem populated_of_scalar (h : body.kind = .scalar) : body.Populated := by
  constructor <;> simp [h, plainValues_of_kind_ne]

/-- Whether the values are plain does not depend on spans. -/
theorem plainValues_of_withoutSpans (h : (withoutSpans body).PlainValues) : body.PlainValues := by
  cases body with
  | enum values => exact fun value hvalue ↦ h (withoutSpans value) (List.mem_map_of_mem hvalue)
  | _ => exact plainValues_of_kind_ne (by simp [kind])

/-- Nor does whether there are the members that the kind calls for. -/
theorem populated_of_withoutSpans (h : (withoutSpans body).Populated) : body.Populated := by
  obtain ⟨hfields, hinputFields, hvalues, hmembers, hplain⟩ := h
  have hplain := plainValues_of_withoutSpans hplain
  cases body <;> constructor <;>
    simp_all [withoutSpans, HasSpans.mapSpans, kind, fieldsOf, inputFieldsOf, valuesOf, membersOf]

end TypeBody

/-- Members stay when extensions are folded in, and none with a reserved name comes in. -/
theorem TypeDefinition.Folds.populated {type base : TypeDefinition} {added : List TypeExtension}
    (h : type.Folds base added) (hbase : base.body.Populated)
    (hadded : ∀ ext ∈ added, ext.body.PlainValues) : type.body.Populated where
  fields hkind := by
    rw [h.fields]
    exact List.append_ne_nil_of_left_ne_nil (hbase.fields (hkind.imp h.kind.symm.trans h.kind.symm.trans)) _
  inputFields hkind := by
    rw [h.inputFields]
    exact List.append_ne_nil_of_left_ne_nil (hbase.inputFields (h.kind.symm.trans hkind)) _
  values hkind := by
    rw [h.values]
    exact List.append_ne_nil_of_left_ne_nil (hbase.values (h.kind.symm.trans hkind)) _
  members hkind := by
    rw [h.members]
    exact List.append_ne_nil_of_left_ne_nil (hbase.members (h.kind.symm.trans hkind)) _
  plain value hvalue := by
    rw [h.values, List.mem_append, List.mem_flatMap] at hvalue
    rcases hvalue with hvalue | ⟨ext, hext, hvalue⟩
    · exact hbase.plain value hvalue
    · exact hadded ext hext value hvalue

namespace Phrase

variable {admits : TypeReference → Prop} {kind : TypeKind} {ts : List TokenKind}

/-! ### Members in the language -/

/-- Each of several things is written by tokens of its own. -/
theorem Many.exists_run {α : Type} {P : Phrase α} {as : List α} (h : Many P ts as) {a : α} (ha : a ∈ as) :
    ∃ run, P run a := by
  induction h with
  | nil => cases ha
  | cons first _ ih =>
    rcases List.mem_cons.1 ha with rfl | ha
    · exact ⟨_, first⟩
    · exact ih ha

/-- A value that can be written has none of the three reserved names. -/
theorem plain_of_enumValues {values : List EnumValueDefinition} (h : block .braces enumValue ts values) :
    ∀ value ∈ values, value.name ∉ ["true", "false", "null"] := by
  intro value hvalue
  obtain ⟨front, -, hvalues, -⟩ := block_iff.1 h
  obtain ⟨run, description, _, _, -, -, name, _, _, -, -, hrest⟩ := hvalues.exists_run hvalue
  obtain ⟨hplain, directives, _, _, -, -, -, rfl⟩ := given_bind_iff.1 hrest
  exact hplain

/-- So no body that can be written has such a value, whatever its kind. -/
theorem plainValues_of_typeBody {mayLack : Bool} {r : List AppliedDirective × TypeBody}
    (h : typeBody admits mayLack kind ts r) : r.2.PlainValues := by
  cases kind with
  | enum =>
    obtain ⟨directives, _, _, -, -, values, _, _, -, hvalues, -, rfl⟩ := h
    cases mayLack with
    | false => exact plain_of_enumValues hvalues
    | true =>
      rcases hvalues with hvalues | ⟨-, rfl⟩
      · exact plain_of_enumValues hvalues
      · exact fun value hvalue ↦ absurd hvalue List.not_mem_nil
  | scalar =>
    obtain ⟨directives, _, _, -, -, -, rfl⟩ := h
    exact TypeBody.plainValues_of_kind_ne (by simp [TypeBody.kind])
  | object | interface =>
    obtain ⟨interfaces, _, _, -, -, directives, _, _, -, -, fields, _, _, -, -, -, rfl⟩ := h
    exact TypeBody.plainValues_of_kind_ne (by simp [TypeBody.kind])
  | union | inputObject =>
    obtain ⟨directives, _, _, -, -, members, _, _, -, -, -, rfl⟩ := h
    exact TypeBody.plainValues_of_kind_ne (by simp [TypeBody.kind])

/-- A body that may not lack its members has some, as its kind calls for. -/
theorem populated_of_typeBody {r : List AppliedDirective × TypeBody}
    (h : typeBody admits false kind ts r) : r.2.Populated := by
  have hplain := plainValues_of_typeBody h
  -- a definition has no other collection than those of its kind
  cases kind with
  | scalar =>
    obtain ⟨directives, _, _, -, -, -, rfl⟩ := h
    exact TypeBody.populated_of_scalar rfl
  | object | interface =>
    obtain ⟨interfaces, _, _, -, -, directives, _, _, -, -, fields, _, _, -, hfields, -, rfl⟩ := h
    have hne : fields ≠ [] := by
      rintro rfl
      exact not_block_nil _ hfields
    exact ⟨fun _ ↦ hne, nofun, nofun, nofun, hplain⟩
  | union =>
    obtain ⟨directives, _, _, -, -, members, _, _, -, hmembers, -, rfl⟩ := h
    have hne : members ≠ [] := by
      rintro rfl
      exact not_unionMembers_nil _ hmembers
    exact ⟨nofun, nofun, nofun, fun _ ↦ hne, hplain⟩
  | enum =>
    obtain ⟨directives, _, _, -, -, values, _, _, -, hvalues, -, rfl⟩ := h
    have hne : values ≠ [] := by
      rintro rfl
      exact not_block_nil _ hvalues
    exact ⟨nofun, nofun, fun _ ↦ hne, nofun, hplain⟩
  | inputObject =>
    obtain ⟨directives, _, _, -, -, fields, _, _, -, hfields, -, rfl⟩ := h
    have hne : fields ≠ [] := by
      rintro rfl
      exact not_block_nil _ hfields
    exact ⟨nofun, fun _ ↦ hne, nofun, nofun, hplain⟩

/-- The body of a definition may not lack its members. -/
theorem populated_of_definition {type : TypeDefinition} (h : definition admits ts (.type type)) :
    type.body.Populated := by
  obtain ⟨description, _, _, -, -, ⟨kind, h⟩ | h | h | h⟩ := h
  · obtain ⟨type, htype, ⟨⟩⟩ := bind_return_iff.1 h
    obtain ⟨_, -, htype⟩ := keyword_bind_iff.1 htype
    obtain ⟨name, _, -, r, _, _, -, hbody, -, rfl⟩ := name_bind_iff.1 htype
    exact populated_of_typeBody hbody
  · obtain ⟨_, -, ⟨⟩⟩ := bind_return_iff.1 h
  · obtain ⟨_, -, ⟨⟩⟩ := bind_return_iff.1 h
  · obtain ⟨_, -, h⟩ := keyword_bind_iff.1 (given_bind_iff.1 h).2
    rcases h with ⟨kind, h⟩ | h
    · obtain ⟨_, -, ⟨⟩⟩ := bind_return_iff.1 h
    · obtain ⟨_, -, ⟨⟩⟩ := bind_return_iff.1 h

/-- The body of an extension may lack members. The values that it has are plain. -/
theorem plainValues_of_definition {ext : TypeExtension} (h : definition admits ts (.typeExtension ext)) :
    ext.body.PlainValues := by
  obtain ⟨description, _, _, -, -, ⟨kind, h⟩ | h | h | h⟩ := h
  · obtain ⟨_, -, ⟨⟩⟩ := bind_return_iff.1 h
  · obtain ⟨_, -, ⟨⟩⟩ := bind_return_iff.1 h
  · obtain ⟨_, -, ⟨⟩⟩ := bind_return_iff.1 h
  · obtain ⟨_, -, h⟩ := keyword_bind_iff.1 (given_bind_iff.1 h).2
    rcases h with ⟨kind, h⟩ | h
    · obtain ⟨ext, hext, ⟨⟩⟩ := bind_return_iff.1 h
      obtain ⟨_, -, hext⟩ := keyword_bind_iff.1 hext
      obtain ⟨name, _, -, r, _, _, -, hbody, hrest⟩ := name_bind_iff.1 hext
      obtain ⟨-, -, rfl⟩ := given_bind_iff.1 hrest
      exact plainValues_of_typeBody hbody
    · obtain ⟨_, -, ⟨⟩⟩ := bind_return_iff.1 h

end Phrase

/-! ### Members in a document -/

section Read

theorem eq_ok_of_toOption {ε α : Type} {r : Except ε α} {a : α} (h : r.toOption = some a) : r = .ok a := by
  cases r with
  | error e => cases h
  | ok a => exact congrArg Except.ok (Option.some.inj h)

variable {source : Source} {document : Document}

/-- An item of a document that is read is, apart from its spans, an item of the language. -/
theorem exists_definition_of_ofSource (h : Document.ofSource source = .ok document) {item : Definition}
    (hitem : document.Holds item) : ∃ run, Phrase.definition admitted run (withoutSpans item) := by
  have hread : Document.ofTokens (some source.name) (Token.lex source.body) = .ok document :=
    Except.mapError_eq_ok_iff.1 h
  obtain ⟨items, hitems, rfl⟩ := document_eq_ok_iff.1 (Prod.ext hread rfl)
  obtain ⟨front, s₁, s₂, -, hround⟩ :=
    exists_round_of_mem (reads_definition (some source.name)) hitems (holds_ofDefinitions_iff.1 hitem)
  obtain ⟨ts, -, hphrase⟩ := (reads_definition (some source.name)).sound s₁ (some item) s₂ hround
  exact ⟨_, hphrase⟩

/-- The types that a source defines have the members that their kinds call for. -/
theorem populated_of_ofSource (h : Document.ofSource source = .ok document) {type : TypeDefinition}
    (htype : type ∈ document.types) : type.body.Populated := by
  obtain ⟨run, hrun⟩ := exists_definition_of_ofSource h (show document.Holds (.type type) from htype)
  exact TypeBody.populated_of_withoutSpans (Phrase.populated_of_definition hrun)

/-- No extension in a source adds a value with a reserved name. -/
theorem plainValues_of_ofSource (h : Document.ofSource source = .ok document) {ext : TypeExtension}
    (hext : ext ∈ document.typeExtensions) : ext.body.PlainValues := by
  obtain ⟨run, hrun⟩ := exists_definition_of_ofSource h (show document.Holds (.typeExtension ext) from hext)
  exact TypeBody.plainValues_of_withoutSpans (Phrase.plainValues_of_definition hrun)

end Read

/-! ### Documents put together -/

namespace Document

/-- Documents are put together list by list. -/
theorem mergeAll_eq (documents : List Document) :
    mergeAll documents =
      ⟨documents.flatMap types, documents.flatMap schemas, documents.flatMap directives,
        documents.flatMap typeExtensions, documents.flatMap schemaExtensions⟩ := by
  induction documents with
  | nil => rfl
  | cons document documents ih =>
    rw [mergeAll_cons, ih]
    rfl

/-- Merging with documents that were put together is merging with each of them. -/
theorem merge_singleton_mergeAll (document : Document) (documents : List Document) :
    document.merge [mergeAll documents] =
      ⟨document.types ++ documents.flatMap types, document.schemas ++ documents.flatMap schemas,
        document.directives ++ documents.flatMap directives,
        document.typeExtensions ++ documents.flatMap typeExtensions,
        document.schemaExtensions ++ documents.flatMap schemaExtensions⟩ := by
  rw [mergeAll_eq]
  rfl

end Document

/-- All sources are read just if each one is, and the documents come in the order of the sources. -/
theorem Schema.readAll_eq_ok_iff {sources : List Source} {documents : List Document} :
    readAll sources = .ok documents ↔
      List.Forall₂ (fun source document ↦ Document.ofSource source = .ok document) sources documents :=
  Except.mapM_eq_ok_iff

/-! ### The built-in definitions -/

namespace Builtin

set_option maxRecDepth 2000 in
/-- The built-in document up to spans: five scalars and four directives. -/
theorem withoutSpans_document :
    withoutSpans document =
      ⟨["Int", "Float", "String", "Boolean", "ID"].map fun name ↦ ⟨none, name, [], .scalar, .blank⟩, [],
        [⟨none, "include", [⟨none, "if", .named "Boolean" .nonNull, none, [], .blank⟩], false,
            [.field, .fragmentSpread, .inlineFragment], .blank⟩,
          ⟨none, "skip", [⟨none, "if", .named "Boolean" .nonNull, none, [], .blank⟩], false,
            [.field, .fragmentSpread, .inlineFragment], .blank⟩,
          ⟨none, "deprecated",
            [⟨none, "reason", .named "String" .nullable, some "\"No longer supported\"", [], .blank⟩], false,
            [.fieldDefinition, .argumentDefinition, .inputFieldDefinition, .enumValue], .blank⟩,
          ⟨none, "specifiedBy", [⟨none, "url", .named "String" .nonNull, none, [], .blank⟩], false,
            [.scalar], .blank⟩], [], []⟩ := by
  rw [document_of_text_eq rfl]
  decide +kernel

/-- The built-in types are five scalars. -/
theorem map_name_types :
    document.types.map TypeDefinition.name = ["Int", "Float", "String", "Boolean", "ID"] := by
  have h := congrArg (fun d ↦ d.types.map TypeDefinition.name) withoutSpans_document
  simpa [withoutSpans, HasSpans.mapSpans, Function.comp_def] using h

/-- There are four built-in directives. -/
theorem map_name_directives :
    document.directives.map DirectiveDefinition.name = ["include", "skip", "deprecated", "specifiedBy"] := by
  have h := congrArg (fun d ↦ d.directives.map DirectiveDefinition.name) withoutSpans_document
  simpa [withoutSpans, HasSpans.mapSpans, Function.comp_def] using h

/-- The built-in document declares no root types. -/
theorem schemas_eq_nil : document.schemas = [] := by
  have h := congrArg Document.schemas withoutSpans_document
  exact List.map_eq_nil_iff.1 h

theorem typeExtensions_eq_nil : document.typeExtensions = [] := by
  have h := congrArg Document.typeExtensions withoutSpans_document
  exact List.map_eq_nil_iff.1 h

theorem schemaExtensions_eq_nil : document.schemaExtensions = [] := by
  have h := congrArg Document.schemaExtensions withoutSpans_document
  exact List.map_eq_nil_iff.1 h

/-- The built-in types are scalars, so they call for no members. -/
theorem populated_of_mem_types {type : TypeDefinition} (htype : type ∈ document.types) :
    type.body.Populated := by
  have hmem : withoutSpans type ∈ (withoutSpans document).types := List.mem_map_of_mem htype
  rw [withoutSpans_document] at hmem
  obtain ⟨name, -, heq⟩ := List.mem_map.1 hmem
  have hbody : withoutSpans type.body = .scalar := (congrArg TypeDefinition.body heq).symm
  exact TypeBody.populated_of_withoutSpans (TypeBody.populated_of_scalar (by rw [hbody]; rfl))

/-- A source is read without an error if what `documentOf` makes of it is not empty, which is what that makes
of an error. -/
theorem ofSource_eq_ok_documentOf {source : Source} (h : documentOf source ≠ .empty) :
    Document.ofSource source = .ok (documentOf source) := by
  unfold documentOf at h ⊢
  cases hread : Document.ofSource source with
  | ok d => rfl
  | error e =>
    rw [hread] at h
    exact absurd rfl h

/-- The built-in source is a document. -/
theorem ofSource_source : Document.ofSource source = .ok Builtin.document := by
  rw [document]
  refine ofSource_eq_ok_documentOf fun hempty ↦ ?_
  have hnames := map_name_types
  rw [document, hempty] at hnames
  cases hnames

end Builtin

/-! ### Schemas -/

namespace Schema

/-- A schema is what documents define, behind the built-in definitions and with their extensions folded
in. -/
structure Gathers (schema : Schema) (documents : List Document) : Prop where
  typeKeys : schema.types.keys =
    ["Int", "Float", "String", "Boolean", "ID"] ++
      (documents.flatMap Document.types).map TypeDefinition.name
  typeKeys_nodup : schema.types.keys.Nodup
  types : List.Forall₂
    (fun base entry ↦ entry.1 = entry.2.name ∧
      entry.2.Folds base ((documents.flatMap Document.typeExtensions).filter fun ext ↦ ext.name = base.name))
    (Builtin.document.types ++ documents.flatMap Document.types) schema.types.entries
  directiveKeys : schema.directives.keys =
    ["include", "skip", "deprecated", "specifiedBy"] ++
      (documents.flatMap Document.directives).map DirectiveDefinition.name
  directiveKeys_nodup : schema.directives.keys.Nodup
  directives : schema.directives.entries =
    (Builtin.document.directives ++ documents.flatMap Document.directives).map fun directive ↦
      (directive.name, directive)
  populated : ∀ type ∈ schema.types.values, type.body.Populated
  roots : ∀ operation name, schema.roots.get operation = some name →
    ∃ type, schema.type? name = some type ∧ type.kind = .object

variable {documents : List Document} {schema : Schema}

/-- What a document comes to before its directives are checked, step by step. -/
theorem uncheckedOf_mergeAll_eq_ok_iff :
    uncheckedOf (.mergeAll documents) = .ok schema ↔ ∃ built extended roots,
      Definitions.build (Builtin.document.types ++ documents.flatMap Document.types)
        (Builtin.document.directives ++ documents.flatMap Document.directives) = .ok built ∧
      (built.extendAll (documents.flatMap Document.typeExtensions)).result = .ok extended ∧
      extended.resolveRoots (documents.flatMap Document.schemas)
        (documents.flatMap Document.schemaExtensions) = .ok roots ∧
      schema = ⟨roots, extended.types, extended.directives⟩ := by
  have hwhole : Builtin.document.merge [.mergeAll documents] =
      ⟨Builtin.document.types ++ documents.flatMap Document.types, documents.flatMap Document.schemas,
        Builtin.document.directives ++ documents.flatMap Document.directives,
        documents.flatMap Document.typeExtensions, documents.flatMap Document.schemaExtensions⟩ := by
    rw [Document.merge_singleton_mergeAll, Builtin.schemas_eq_nil, Builtin.typeExtensions_eq_nil,
      Builtin.schemaExtensions_eq_nil]
    simp only [List.nil_append]
  simp only [uncheckedOf, hwhole, Except.bind_eq_ok_iff, exists_and_left]
  simp [pure, Except.pure, eq_comm]

/-- Sources give a schema just if all of them can be read and their documents, put together, give one. -/
theorem ofSources_eq_ok_iff {sources : List Source} :
    ofSources sources = .ok schema ↔ ∃ documents,
      List.Forall₂ (fun source document ↦ Document.ofSource source = .ok document) sources documents ∧
      ofDocument (.mergeAll documents) = .ok schema := by
  simp only [← readAll_eq_ok_iff]
  unfold ofSources
  cases readAll sources with
  | error e => simp
  | ok documents => simp [Except.mapError_eq_ok_iff]

/-- **A schema gathers what its sources define.** Its types are the built-in scalars and the types of the
sources, in order and under distinct names, each with all the extensions of its name folded in, wherever
they stand; its directives are the built-in ones and those of the sources; every type has the members that
its kind calls for; and every root type is an object type. -/
theorem ofSources_gathers {sources : List Source} (h : ofSources sources = .ok schema) :
    ∃ documents,
      List.Forall₂ (fun source document ↦ Document.ofSource source = .ok document) sources documents ∧
      schema.Gathers documents := by
  obtain ⟨documents, hread, hdocument⟩ := ofSources_eq_ok_iff.1 h
  obtain ⟨built, extended, roots, hbuild, hextend, hroots, rfl⟩ :=
    uncheckedOf_mergeAll_eq_ok_iff.1 (ofDocument_eq_ok_iff.1 hdocument).1
  obtain ⟨hnodup, hfolds, hnodup', hdirectives⟩ := Definitions.folds_of_build hbuild hextend
  have hkeys : extended.types.keys =
      (Builtin.document.types ++ documents.flatMap Document.types).map TypeDefinition.name :=
    map_eq_map_of_forall₂ (hfolds.imp fun _ _ h ↦ h.1)
  have hkeys' : extended.directives.keys =
      (Builtin.document.directives ++ documents.flatMap Document.directives).map DirectiveDefinition.name := by
    rw [hdirectives, Table.keys_listing]
  refine ⟨documents, hread, ?_⟩
  constructor
  case typeKeys => rw [hkeys, List.map_append, Builtin.map_name_types]
  case typeKeys_nodup => rwa [hkeys]
  case types => exact hfolds.imp fun _ _ h ↦ ⟨h.1.trans h.2.name.symm, h.2⟩
  case directiveKeys => rw [hkeys', List.map_append, Builtin.map_name_directives]
  case directiveKeys_nodup => rwa [hkeys']
  case directives => rw [hdirectives]; rfl
  case populated =>
    intro type htype
    obtain ⟨key, hentry⟩ := Table.mem_values_iff.1 htype
    obtain ⟨base, hbase, -, hfold⟩ := exists_mem_of_forall₂ hfolds hentry
    -- the type as it was written is populated, and its extensions add only what it may have
    refine hfold.populated ?_ fun ext hext ↦ ?_
    · rcases List.mem_append.1 hbase with hbase | hbase
      · exact Builtin.populated_of_mem_types hbase
      · obtain ⟨document, hdocument, hbase⟩ := List.mem_flatMap.1 hbase
        obtain ⟨source, -, hsource⟩ := exists_mem_of_forall₂ hread hdocument
        exact populated_of_ofSource hsource hbase
    · obtain ⟨document, hdocument, hext⟩ := List.mem_flatMap.1 (List.mem_of_mem_filter hext)
      obtain ⟨source, -, hsource⟩ := exists_mem_of_forall₂ hread hdocument
      exact plainValues_of_ofSource hsource hext
  case roots =>
    intro operation name hname
    obtain ⟨-, hoperations, hobjects, rfl⟩ := Definitions.resolveRoots_eq_ok_iff.1 hroots
    obtain ⟨declaration, hmem, -, rfl⟩ := (RootTypes.get_ofDeclarations_eq_some_iff hoperations).1 hname
    exact hobjects declaration hmem

/-- An extension in a source before that of its type. -/
def extendedBefore : List Source :=
  [⟨"extension", "extend type Query { b: Int }"⟩, ⟨"type", "type Query { a: Int }"⟩]

set_option maxRecDepth 2000 in
/-- The sources of the example give a schema. -/
theorem exists_ofSources_extendedBefore : ∃ schema, ofSources extendedBefore = .ok schema := by
  obtain ⟨documents, hdocuments, schema, hschema, hplain⟩ :
      ∃ documents ∈ (readAll extendedBefore).toOption, ∃ schema ∈ (uncheckedOf (.mergeAll documents)).toOption,
        ∀ directive ∈ schema.directives.values, schema.definitions.isPlainlyLawful directive = true := by
    unfold uncheckedOf
    rw [Builtin.document_of_text_eq rfl]
    decide +kernel
  exact ⟨schema, ofSources_eq_ok_iff.2 ⟨documents, readAll_eq_ok_iff.1 (eq_ok_of_toOption hdocuments),
    ofDocument_of_isPlainlyLawful hschema hplain⟩⟩

/-- A source that extends a type may come before the one that defines it. -/
theorem ofSources_gathers_extendedBefore :
    ∃ schema documents, ofSources extendedBefore = .ok schema ∧
      List.Forall₂ (fun source document ↦ Document.ofSource source = .ok document) extendedBefore documents ∧
      schema.Gathers documents := by
  obtain ⟨schema, h⟩ := exists_ofSources_extendedBefore
  obtain ⟨documents, hread, hgathers⟩ := ofSources_gathers h
  exact ⟨schema, documents, h, hread, hgathers⟩

end Schema

end TypeSystem
