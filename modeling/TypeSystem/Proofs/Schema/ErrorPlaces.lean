import TypeSystem.Proofs.Reading.Snippets
import TypeSystem.Proofs.Schema.Extending
import TypeSystem.Proofs.Schema.Gathering
import TypeSystem.Proofs.Schema.Repeats
import TypeSystem.Proofs.Schema.RootTypes

/-!
# What errors of a schema point to

An error of a schema is about a node of one of the documents that the schema was to be made of, the built-in
document among them. What it says is true of that node (`ValidationError.Describes`), its span is the span of the
node, and if it has another span, then that of a node of the same name that comes earlier
(`ValidationError.IsAbout`). This holds of each step of a build. The steps after the first work on tables, where
types have been extended; but directives, their arguments and extensions come from the documents as they are, and
a type keeps its name and its kind.

As a node names the text that it was read from, the source of the span is that of the document, and if it is
given, the snippet shows the line on which the node starts (`Schema.invalid_points_into_source`). The exception is
a node that starts behind so many characters of a line that no snippet of it can be made.
-/

namespace TypeSystem

open HasOutline (outline mem_spans_of_mem)

/-! ### Errors and nodes -/

/-- What an error can be about. -/
inductive Node where
  | type (definition : TypeDefinition)
  | directive (definition : DirectiveDefinition)
  | argument (owner : DirectiveDefinition) (definition : InputValueDefinition)
  | schema (block : SchemaDefinition)
  | typeExtension (ext : TypeExtension)
  | schemaExtension (ext : SchemaExtension)

namespace Node

/-- The part of the text that the node was read from. -/
def span : Node → Span
  | type definition => definition.span
  | directive definition => definition.span
  | argument _ definition => definition.span
  | schema block => block.span
  | typeExtension ext => ext.span
  | schemaExtension ext => ext.span

/-- The node stands in a document. -/
def IsIn (document : Document) : Node → Prop
  | type definition => definition ∈ document.types
  | directive definition => definition ∈ document.directives
  | argument owner definition => owner ∈ document.directives ∧ definition ∈ owner.arguments
  | schema block => block ∈ document.schemas
  | typeExtension ext => ext ∈ document.typeExtensions
  | schemaExtension ext => ext ∈ document.schemaExtensions

/-- One node comes before another of the same kind in some documents, and has the same name, if it has one. -/
inductive Precedes (documents : List Document) : Node → Node → Prop where
  | type {first again : TypeDefinition} (earlier : [first, again].Sublist (documents.flatMap Document.types))
      (same_name : first.name = again.name) : Precedes documents (type first) (type again)
  | directive {first again : DirectiveDefinition}
      (earlier : [first, again].Sublist (documents.flatMap Document.directives))
      (same_name : first.name = again.name) : Precedes documents (directive first) (directive again)
  | schema {first again : SchemaDefinition} (earlier : [first, again].Sublist (documents.flatMap Document.schemas)) :
      Precedes documents (schema first) (schema again)

end Node

/-- What the error says is true of the node: the names that it gives are the name of the node and what the node
declares, and a kind is that of the type named, which one of the documents defines. -/
inductive ValidationError.Describes (documents : List Document) : ValidationError → Node → Prop where
  | duplicateType {type : TypeDefinition} {first span : Span} :
      Describes documents (.duplicateType type.name first span) (.type type)
  | duplicateDirective {directive : DirectiveDefinition} {first span : Span} :
      Describes documents (.duplicateDirective directive.name first span) (.directive directive)
  | reservedDirective {directive : DirectiveDefinition} {span : Span}
      (reserved : "__".toList <+: directive.name.toList) :
      Describes documents (.reservedDirective directive.name span) (.directive directive)
  | reservedArgument {owner : DirectiveDefinition} {argument : InputValueDefinition} {span : Span}
      (reserved : "__".toList <+: argument.name.toList) :
      Describes documents (.reservedArgument owner.name argument.name span) (.argument owner argument)
  | undefinedArgumentType {owner : DirectiveDefinition} {argument : InputValueDefinition} {span : Span} :
      Describes documents (.undefinedArgumentType owner.name argument.name argument.type.innermostName span)
        (.argument owner argument)
  | outputArgumentType {owner : DirectiveDefinition} {argument : InputValueDefinition} {span : Span}
      {type : TypeDefinition} (type_mem : type ∈ documents.flatMap Document.types)
      (type_name : type.name = argument.type.innermostName) :
      Describes documents
        (.outputArgumentType owner.name argument.name argument.type.innermostName type.kind span)
        (.argument owner argument)
  | selfReference {directive : DirectiveDefinition} {argument : InputValueDefinition} {path : List String}
      {span : Span} (argument_mem : argument ∈ directive.arguments) :
      Describes documents (.selfReference directive.name argument.name path span) (.directive directive)
  | duplicateSchema {schema : SchemaDefinition} {first span : Span} :
      Describes documents (.duplicateSchema first span) (.schema schema)
  | rootOfBlock {schema : SchemaDefinition} {operation : Operation} {type : String} {span : Span}
      (declared : schema.roots.get operation = some type) :
      Describes documents (.undefinedRoot operation type span) (.schema schema)
  | rootOfExtension {ext : SchemaExtension} {operation : Operation} {type : String} {span : Span}
      (declared : ext.roots.get operation = some type) :
      Describes documents (.undefinedRoot operation type span) (.schemaExtension ext)
  | duplicateRoot {ext : SchemaExtension} {operation : Operation} {type : String} {span : Span}
      (declared : ext.roots.get operation = some type) :
      Describes documents (.duplicateRoot operation span) (.schemaExtension ext)
  | undefinedExtension {ext : TypeExtension} {span : Span} :
      Describes documents (.undefinedExtension ext.name span) (.typeExtension ext)
  | mismatchedExtension {ext : TypeExtension} {base : TypeDefinition} {span : Span}
      (base_mem : base ∈ documents.flatMap Document.types) (base_name : base.name = ext.name) :
      Describes documents (.mismatchedExtension ext.name base.kind ext.kind span) (.typeExtension ext)

/-- The error is about a node of `document`, which is one of `documents`. -/
structure ValidationError.IsAbout (documents : List Document) (document : Document) (e : ValidationError)
    (node : Node) : Prop where
  node_mem : node.IsIn document
  describes : e.Describes documents node
  span_eq : e.span = node.span
  previous : ∀ span, e.previousSpan? = some span → ∃ first, Node.Precedes documents first node ∧ span = first.span

variable {documents : List Document} {document : Document} {e : ValidationError} {node : Node}

/-- A node of a document stands in the outline of the document. -/
theorem Node.IsIn.span_mem (h : node.IsIn document) : node.span ∈ (outline document).spans := by
  rw [mem_spans_document]
  cases node with
  | type => exact .inl (mem_spans_of_mem h (List.mem_cons_self ..))
  | schema => exact .inr (.inl (mem_spans_of_mem h (List.mem_cons_self ..)))
  | directive => exact .inr (.inr (.inl (mem_spans_of_mem h (List.mem_cons_self ..))))
  | argument =>
    refine .inr (.inr (.inl (mem_spans_of_mem h.1 (List.mem_cons_of_mem _ (List.mem_append_left _ ?_)))))
    exact mem_spans_of_mem h.2 (List.mem_cons_self ..)
  | typeExtension => exact .inr (.inr (.inr (.inl (mem_spans_of_mem h (List.mem_cons_self ..)))))
  | schemaExtension => exact .inr (.inr (.inr (.inr (mem_spans_of_mem h (List.mem_cons_self ..)))))

namespace ValidationError.IsAbout

/-- An error with one span only. -/
theorem of_alone (hnode : node.IsIn document) (hdescribes : e.Describes documents node)
    (hspan : e.span = node.span) (halone : e.previousSpan? = none) : e.IsAbout documents document node :=
  ⟨hnode, hdescribes, hspan, fun _ h ↦ by rw [halone] at h; cases h⟩

/-- An error with the span of an earlier node as well. -/
theorem of_precedes {first : Node} (hnode : node.IsIn document) (hdescribes : e.Describes documents node)
    (hspan : e.span = node.span) (hprevious : e.previousSpan? = some first.span)
    (hfirst : first.Precedes documents node) : e.IsAbout documents document node :=
  ⟨hnode, hdescribes, hspan, fun _ h ↦ ⟨first, hfirst, Option.some.inj (h.symm.trans hprevious)⟩⟩

end ValidationError.IsAbout

/-! ### The steps of a build -/

/-- A repeat and what it repeats are two of the items, in this order. They need not be next to one another. -/
theorem sublist_of_firstRepeat {α κ : Type} {key : α → κ} {items : List α} {first again : α}
    (h : FirstRepeat key items first again) : [first, again].Sublist items := by
  obtain ⟨before, after, rfl, -, hfirst, -⟩ := h
  exact (List.singleton_sublist.2 hfirst).append (List.singleton_sublist.2 List.mem_cons_self)

/-- What comes second in some documents together is in one of them. -/
theorem exists_document_of_sublist {α : Type} {items : Document → List α} {first again : α}
    (h : [first, again].Sublist (documents.flatMap items)) : ∃ document ∈ documents, again ∈ items document :=
  List.mem_flatMap.1 (h.subset (List.mem_cons_of_mem first (List.mem_singleton_self again)))

namespace Definitions

variable {d d' : Definitions}

/-- An error of indexing is about the second of two definitions with one name, and the first of them comes
before it. -/
theorem exists_isAbout_of_build
    (h : build (documents.flatMap Document.types) (documents.flatMap Document.directives) = .error e) :
    ∃ document ∈ documents, ∃ node, e.IsAbout documents document node := by
  cases build_eq_iff.1 h with
  | repeatedType hrepeat =>
    have hsublist := sublist_of_firstRepeat hrepeat
    obtain ⟨document, hdocument, hnode⟩ := exists_document_of_sublist hsublist
    exact ⟨document, hdocument, .type _, .of_precedes hnode .duplicateType rfl rfl (.type hsublist hrepeat.key_eq)⟩
  | repeatedDirective _ hrepeat =>
    have hsublist := sublist_of_firstRepeat hrepeat
    obtain ⟨document, hdocument, hnode⟩ := exists_document_of_sublist hsublist
    exact ⟨document, hdocument, .directive _,
      .of_precedes hnode .duplicateDirective rfl rfl (.directive hsublist hrepeat.key_eq)⟩

/-- A type found in tables that extensions have been folded into is one that a document defines, as far as its
name and its kind go. -/
theorem exists_type_of_type? {exts : List TypeExtension}
    (hbuild : build (documents.flatMap Document.types) (documents.flatMap Document.directives) = .ok d)
    (hextend : (d.extendAll exts).result = .ok d') {name : String} {type : TypeDefinition}
    (h : d'.type? name = some type) :
    ∃ base ∈ documents.flatMap Document.types, base.name = name ∧ base.kind = type.kind := by
  obtain ⟨-, hfolds, -, -⟩ := folds_of_build hbuild hextend
  obtain ⟨base, hbase, hname, hfold⟩ := exists_mem_of_forall₂ hfolds (Table.mem_entries_of_find? h)
  exact ⟨base, hbase, hname.symm, hfold.kind.symm⟩

/-- An error of extending is about an extension: it extends nothing, or a type of another kind, whose
definition comes before it among all definitions. -/
theorem exists_isAbout_of_extendAll
    (hbuild : build (documents.flatMap Document.types) (documents.flatMap Document.directives) = .ok d)
    (h : (d.extendAll (documents.flatMap Document.typeExtensions)).result = .error e) :
    ∃ document ∈ documents, ∃ node, e.IsAbout documents document node := by
  by_cases hadmits : ∀ ext ∈ documents.flatMap Document.typeExtensions, d.Admits ext
  · rw [Progress.result, error_extendAll_eq_none_iff.2 hadmits] at h
    cases h
  · obtain ⟨before, ext, after, e', hsplit, hbefore, hrefuses⟩ := exists_first_refused hadmits
    rw [hsplit, extendAll_eq_of_first_refused hbefore hrefuses] at h
    obtain rfl := Except.error.inj h
    obtain ⟨document, hdocument, hnode⟩ := List.mem_flatMap.1 (hsplit ▸ List.mem_append_right _ List.mem_cons_self)
    refine ⟨document, hdocument, .typeExtension ext, ?_⟩
    cases hrefuses with
    | undefined => exact .of_alone hnode .undefinedExtension rfl rfl
    | mismatched hfound =>
      obtain ⟨base, hbase, hname, hkind⟩ := exists_type_of_type? hbuild result_change_nil hfound
      rw [← hkind]
      exact .of_alone hnode (.mismatchedExtension hbase hname) rfl rfl

/-- What a node declares are its own root types, at its own span. -/
theorem mem_declaredBy {roots : RootTypes} {span : Span} {declaration : RootDeclaration}
    (h : declaration ∈ declaredBy roots span) :
    roots.get declaration.operation = some declaration.type ∧ declaration.span = span := by
  rw [← declarations_eq_declaredBy] at h
  obtain ⟨operation, -, hdeclared⟩ := List.mem_filterMap.1 h
  obtain ⟨type, htype, rfl⟩ := Option.map_eq_some_iff.1 hdeclared
  exact ⟨htype, rfl⟩

/-- An error of the rule for root types is about the node with the declaration, if every declaration of the
base that names no object belongs to a node. The base is either that of the schema definitions or found by
name, and the latter names objects only. -/
theorem exists_isAbout_of_rootRule {base : List RootDeclaration} {result : Except ValidationError RootTypes}
    (h : d.RootRule base
      ((documents.flatMap Document.schemaExtensions).flatMap fun ext ↦ declaredBy ext.roots ext.span) result)
    (hbase : ∀ declaration ∈ base, ¬ d.NamesObject declaration.type → ∃ document ∈ documents, ∃ node,
      (ValidationError.undefinedRoot declaration.operation declaration.type declaration.span).IsAbout
        documents document node)
    (herror : result = .error e) : ∃ document ∈ documents, ∃ node, e.IsAbout documents document node := by
  cases h with
  | @repeated before after earlier again hsplit =>
    obtain rfl := Except.error.inj herror
    obtain ⟨ext, hext, hagain⟩ := List.mem_flatMap.1 (hsplit ▸ List.mem_append_right before List.mem_cons_self)
    obtain ⟨document, hdocument, hnode⟩ := List.mem_flatMap.1 hext
    obtain ⟨hdeclared, hspan⟩ := mem_declaredBy hagain
    exact ⟨document, hdocument, .schemaExtension ext, .of_alone hnode (.duplicateRoot hdeclared) hspan rfl⟩
  | @undefined before after bad _ hsplit _ hnot =>
    obtain rfl := Except.error.inj herror
    rcases List.mem_append.1 (hsplit ▸ List.mem_append_right before List.mem_cons_self) with hbad | hbad
    · exact hbase bad hbad hnot
    · obtain ⟨ext, hext, hdeclares⟩ := List.mem_flatMap.1 hbad
      obtain ⟨document, hdocument, hnode⟩ := List.mem_flatMap.1 hext
      obtain ⟨hdeclared, hspan⟩ := mem_declaredBy hdeclares
      exact ⟨document, hdocument, .schemaExtension ext, .of_alone hnode (.rootOfExtension hdeclared) hspan rfl⟩
  | found => cases herror

/-- A root type found by name is an object type. -/
theorem namesObject_of_mem_rootByName {operation : Operation} {name : String} {declaration : RootDeclaration}
    (h : declaration ∈ d.rootByName operation name) : d.NamesObject declaration.type := by
  unfold rootByName at h
  split at h
  · next type htype =>
    split at h
    · next hobject =>
      obtain rfl := List.mem_singleton.1 h
      exact ⟨type, htype, hobject⟩
    · cases h
  · cases h

/-- A root type that goes by its name alone is never undefined. -/
theorem namesObject_of_mem_rootsByName {declaration : RootDeclaration} (h : declaration ∈ d.rootsByName) :
    d.NamesObject declaration.type := by
  rw [rootsByName, List.mem_append, List.mem_append] at h
  rcases h with (h | h) | h
  · exact namesObject_of_mem_rootByName h
  · exact namesObject_of_mem_rootByName h
  · exact namesObject_of_mem_rootByName h

/-- An error of resolving root types is about a schema definition or an extension of one. -/
theorem exists_isAbout_of_resolveRoots (hd : d.WellFormed)
    (h : d.resolveRoots (documents.flatMap Document.schemas) (documents.flatMap Document.schemaExtensions) =
      .error e) : ∃ document ∈ documents, ∃ node, e.IsAbout documents document node := by
  obtain ⟨result, hresolved⟩ := exists_rootsResolved hd (documents.flatMap Document.schemas)
    (documents.flatMap Document.schemaExtensions)
  obtain rfl := (resolveRoots_of_rootsResolved hd hresolved).symm.trans h
  -- the lists are only known as those of all documents, so they get names before the cases
  generalize hschemas : documents.flatMap Document.schemas = schemas at hresolved
  generalize hexts : documents.flatMap Document.schemaExtensions = exts at hresolved
  generalize hresult : (Except.error e : Except ValidationError RootTypes) = result at hresolved
  cases hresolved with
  | @twoBlocks first second others =>
    obtain rfl := Except.error.inj hresult
    have hsublist : [first, second].Sublist (documents.flatMap Document.schemas) := by
      rw [hschemas]
      exact (List.nil_sublist others).cons_cons second |>.cons_cons first
    obtain ⟨document, hdocument, hnode⟩ := exists_document_of_sublist hsublist
    exact ⟨document, hdocument, .schema second, .of_precedes hnode .duplicateSchema rfl rfl (.schema hsublist)⟩
  | @block schema _ _ hrule =>
    rw [← hexts] at hrule
    refine exists_isAbout_of_rootRule hrule (fun declaration hmem _ ↦ ?_) hresult.symm
    obtain ⟨document, hdocument, hnode⟩ := List.mem_flatMap.1 (hschemas ▸ List.mem_singleton_self schema)
    obtain ⟨hdeclared, hspan⟩ := mem_declaredBy hmem
    exact ⟨document, hdocument, .schema schema, .of_alone hnode (.rootOfBlock hdeclared) hspan rfl⟩
  | byName hrule =>
    rw [← hexts] at hrule
    exact exists_isAbout_of_rootRule hrule
      (fun declaration hmem hnot ↦ absurd (namesObject_of_mem_rootsByName hmem) hnot) hresult.symm

/-- An error of the check of directives is about a definition of a directive, or about one of its arguments.
-/
theorem exists_isAbout_of_checkDirectives {exts : List TypeExtension}
    (hbuild : build (documents.flatMap Document.types) (documents.flatMap Document.directives) = .ok d)
    (hextend : (d.extendAll exts).result = .ok d') (hd' : d'.WellFormed) (h : d'.checkDirectives = .error e) :
    ∃ document ∈ documents, ∃ node, e.IsAbout documents document node := by
  obtain ⟨-, -, hnodup, hdirectives⟩ := folds_of_build hbuild hextend
  -- directives are not extended, so the table has them as the documents do
  have hvalues : d'.directives.values = documents.flatMap Document.directives := by
    rw [hdirectives]
    exact (Table.lists_listing hnodup).values
  obtain ⟨p, hviolation, -⟩ := least_violation_of_checkDirectives hd' h
  have hdirective {i : ℕ} {directive : DirectiveDefinition} (hat : d'.directives.values[i]? = some directive) :
      ∃ document ∈ documents, directive ∈ document.directives :=
    List.mem_flatMap.1 (hvalues ▸ List.mem_of_getElem? hat)
  cases hviolation with
  | ofDirective hat reserved =>
    obtain ⟨document, hdocument, hnode⟩ := hdirective hat
    exact ⟨document, hdocument, .directive _, .of_alone hnode (.reservedDirective reserved) rfl rfl⟩
  | ofArgument hat hargument hviolation =>
    obtain ⟨document, hdocument, howner⟩ := hdirective hat
    have hnode := List.mem_of_getElem? hargument
    refine ⟨document, hdocument, ?_⟩
    cases hviolation with
    | reservedName reserved =>
      exact ⟨.argument _ _, .of_alone ⟨howner, hnode⟩ (.reservedArgument reserved) rfl rfl⟩
    | undefinedType => exact ⟨.argument _ _, .of_alone ⟨howner, hnode⟩ .undefinedArgumentType rfl rfl⟩
    | outputType found =>
      obtain ⟨base, hbase, hname, hkind⟩ := exists_type_of_type? hbuild hextend found
      rw [← hkind]
      exact ⟨.argument _ _, .of_alone ⟨howner, hnode⟩ (.outputArgumentType hbase hname) rfl rfl⟩
    | typeCycle | appliedCycle => exact ⟨.directive _, .of_alone howner (.selfReference hnode) rfl rfl⟩

end Definitions

/-! ### Sources -/

/-- A node of a document names the source of the document, in which it covers a part. -/
theorem Document.exists_isShown_of_mem_spans {source : Source} (h : Document.ofSource source = .ok document)
    {span : Span} (hspan : span ∈ (outline document).spans) :
    span.source = some source.name ∧ ∃ before part after, span.IsShown source.body before part after := by
  obtain ⟨hextent, hsource⟩ := extent_of_mem_spans (Except.mapError_eq_ok_iff.1 h) hspan
  exact ⟨hsource, Span.exists_isShown_of_extent ((Token.along_lex source.body).filter _) hextent⟩

namespace Schema

/-- Every step of a build reports a node of one of the documents. -/
theorem exists_isAbout_of_ofDocument {documents : List Document}
    (h : ofDocument (.mergeAll documents) = .error e) :
    ∃ document ∈ Builtin.document :: documents, ∃ node,
      e.IsAbout (Builtin.document :: documents) document node := by
  have hwhole : Builtin.document.merge [.mergeAll documents] = .mergeAll (Builtin.document :: documents) := by
    rw [Document.merge_singleton_mergeAll, Document.mergeAll_eq]
    rfl
  rw [ofDocument, hwhole, Document.mergeAll_eq] at h
  generalize Builtin.document :: documents = documents at h ⊢
  rcases Except.bind_eq_error_iff.1 h with hbuild | ⟨built, hbuild, h⟩
  · exact Definitions.exists_isAbout_of_build hbuild
  rcases Except.bind_eq_error_iff.1 h with hextend | ⟨extended, hextend, h⟩
  · exact Definitions.exists_isAbout_of_extendAll hbuild hextend
  have hwell : extended.WellFormed := .of_result ((Definitions.WellFormed.build hbuild).extendAll _) hextend
  rcases Except.bind_eq_error_iff.1 h with hroots | ⟨roots, -, h⟩
  · exact Definitions.exists_isAbout_of_resolveRoots hwell hroots
  rcases Except.bind_eq_error_iff.1 h with hcheck | ⟨-, -, h⟩
  · exact Definitions.exists_isAbout_of_checkDirectives hbuild hextend hwell hcheck
  · cases h

/-- Sources give an invalid schema just if all of them can be read and the documents, put together, do not
build. -/
theorem ofSources_eq_invalid_iff {sources : List Source} :
    ofSources sources = .error (.invalid e) ↔ ∃ documents,
      List.Forall₂ (fun source document ↦ Document.ofSource source = .ok document) sources documents ∧
      ofDocument (.mergeAll documents) = .error e := by
  simp only [← readAll_eq_ok_iff]
  unfold ofSources
  cases readAll sources with
  | error e' => simp
  | ok documents =>
    simp only [Except.ok.injEq, exists_eq_left']
    generalize ofDocument (.mergeAll documents) = result
    cases result <;> simp [Except.mapError]

end Schema

/-! ### What is rendered -/

/-- Where names are distinct, a source is known by its name. -/
theorem Source.eq_of_name_eq {sources : List Source} (hnames : (sources.map Source.name).Nodup)
    {source other : Source} (hsource : source ∈ sources) (hother : other ∈ sources)
    (h : source.name = other.name) : source = other :=
  List.inj_on_of_nodup_map hnames hsource hother h

/-- Where names are distinct, looking up the name of a source finds its text. -/
theorem Source.body?_eq_some {sources : List Source} (hnames : (sources.map Source.name).Nodup)
    {source : Source} (hsource : source ∈ sources) : body? sources source.name = some source.body := by
  cases hfind : sources.find? fun other ↦ other.name = source.name with
  | none => exact absurd (decide_eq_true rfl) (List.find?_eq_none.1 hfind source hsource)
  | some other =>
    have hname : other.name = source.name := by simpa using List.find?_some hfind
    obtain rfl := eq_of_name_eq hnames (List.mem_of_find?_eq_some hfind) hsource hname
    rw [body?, hfind]
    rfl

theorem Source.body?_eq_none {sources : List Source} {name : String}
    (h : ∀ source ∈ sources, source.name ≠ name) : body? sources name = none := by
  rw [body?, List.find?_eq_none.2 (by simpa using h)]
  rfl

/-- Where there is no text, nothing is shown and nothing breaks off. -/
theorem Span.shownIn_none (span : Span) : span.shownIn none = .ok "" := rfl

theorem Span.shownIn_some {span : Span} {text snippet : String} (h : span.snippet text = .ok (some snippet)) :
    span.shownIn (some text) = .ok snippet := by
  rw [shownIn, h]
  rfl

/-- Where the snippet breaks off, so does what shows it. -/
theorem Span.shownIn_of_breaks_off {span : Span} {text : String} {cause : Crash}
    (h : span.snippet text = .error cause) : span.shownIn (some text) = .error cause := by
  rw [shownIn, h]
  rfl

/-- **An error points to what it is about.** When sources of distinct names, all of which are documents, break
a rule, the error is about a node of one of the documents, the built-in one among them: what it says is true of
that node, and its span is the span of the node and names the source of the document. If there is a previous span,
it is that of a node of the same name which comes earlier. In full, the error has a snippet exactly if the span
names one of the sources given, and then that shows the line on which the node starts; but behind more than 65535
characters of a line the error cannot be rendered. -/
theorem Schema.invalid_points_into_source {sources : List Source}
    (hnames : ((Builtin.source :: sources).map Source.name).Nodup)
    (h : ofSources sources = .error (.invalid e)) :
    ∃ documents,
      List.Forall₂ (fun source document ↦ Document.ofSource source = .ok document) (Builtin.source :: sources)
        documents ∧
      (∃ source ∈ Builtin.source :: sources, ∃ document ∈ documents, ∃ node,
        Document.ofSource source = .ok document ∧ e.span.source = some source.name ∧
          node.IsIn document ∧ node.span ∈ (outline document).spans ∧ e.Describes documents node ∧
          e.span = node.span ∧
          ∀ span, e.previousSpan? = some span → ∃ first, Node.Precedes documents first node ∧ span = first.span) ∧
      (∀ source ∈ sources, e.span.source = some source.name →
        ∃ before part after, e.span.IsShown source.body before part after ∧
          (e.span.start.column ≤ 65535 → ∃ snippet, e.span.snippet source.body = .ok (some snippet) ∧
            e.render sources = .ok (heading e.message e.span ++ snippet ++
              (e.previousSpan?.map ValidationError.previousLine).getD "")) ∧
          (65535 < e.span.start.column → e.render sources = .error .widthOutOfRange)) ∧
      ((∀ source ∈ sources, e.span.source ≠ some source.name) →
        e.render sources = .ok (heading e.message e.span ++
          (e.previousSpan?.map ValidationError.previousLine).getD "")) := by
  obtain ⟨documents, hread, hdocument⟩ := ofSources_eq_invalid_iff.1 h
  obtain ⟨document, hmem, node, habout⟩ := exists_isAbout_of_ofDocument hdocument
  have hread' : List.Forall₂ (fun source document ↦ Document.ofSource source = .ok document)
      (Builtin.source :: sources) (Builtin.document :: documents) := .cons Builtin.ofSource_source hread
  obtain ⟨source, hsource, hok⟩ := exists_mem_of_forall₂ hread' hmem
  have hspans : e.span ∈ (outline document).spans := habout.span_eq ▸ habout.node_mem.span_mem
  obtain ⟨hspan, before, part, after, hshown⟩ := Document.exists_isShown_of_mem_spans hok hspans
  refine ⟨_, hread', ⟨source, hsource, document, hmem, node, hok, hspan, habout.node_mem, habout.node_mem.span_mem,
    habout.describes, habout.span_eq, habout.previous⟩, fun other hother hname ↦ ?_, fun hnone ↦ ?_⟩
  · -- names are distinct, so the source of the span is the one the node was read from
    obtain rfl := Source.eq_of_name_eq hnames hsource (List.mem_cons_of_mem _ hother)
      (Option.some.inj (hspan.symm.trans hname))
    have hbody : ValidationError.body? sources e.span = some source.body := by
      rw [ValidationError.body?, hspan]
      exact Source.body?_eq_some (List.nodup_cons.1 hnames).2 hother
    refine ⟨before, part, after, hshown, fun hnear ↦ ?_, fun hfar ↦ ?_⟩
    · have hsnippet := (hshown.underlines hnear).snippet_eq
      refine ⟨_, hsnippet, ?_⟩
      rw [ValidationError.render, hbody, Span.shownIn_some hsnippet]
      rfl
    · rw [ValidationError.render, hbody, Span.shownIn_of_breaks_off (hshown.breaks_off hfar)]
      rfl
  · have hbody : ValidationError.body? sources e.span = none := by
      rw [ValidationError.body?, hspan]
      exact Source.body?_eq_none fun other hother hname ↦ hnone other hother (hname ▸ hspan)
    rw [ValidationError.render, hbody, Span.shownIn_none, Except.map, ValidationError.renderWith, String.append_empty]

/-! ### A type of two sources -/

namespace Schema

/-- Two sources, each of which defines one type only, the second one that of the first. -/
theorem ofSources_of_readAll_pair {sources : List Source} {first again : TypeDefinition}
    (hread : readAll sources = .ok [⟨[first], [], [], [], []⟩, ⟨[again], [], [], [], []⟩])
    (hname : first.name = again.name) (hnew : first.name ∉ ["Int", "Float", "String", "Boolean", "ID"]) :
    ofSources sources = .error (.invalid (.duplicateType again.name first.span again.span)) := by
  have hrepeat : FirstRepeat TypeDefinition.name (Builtin.document.types ++ [first, again]) first again := by
    refine ⟨Builtin.document.types ++ [first], [], by simp, ?_, by simp, hname⟩
    rw [List.map_append, Builtin.map_name_types]
    simpa [eq_comm] using hnew
  have hbuild : Definitions.build (Builtin.document.types ++ [first, again]) (Builtin.document.directives ++ []) =
      .error (.duplicateType again.name first.span again.span) := Definitions.build_of_repeatedType hrepeat
  exact ofSources_eq_invalid_iff.2 ⟨_, readAll_eq_ok_iff.1 hread, Definitions.ofDocument_eq_error_of_build hbuild⟩

/-- A scalar defined in one source and, on the second line, in another. -/
def definedTwice : List Source := [⟨"a", "scalar A"⟩, ⟨"b", "\r\nscalar A"⟩]

/-- Two sources with one type. The second stands behind a carriage return, and the error points to its second
line and to the first source. -/
theorem invalid_points_into_source_behind_return :
    let e : ValidationError := .duplicateType "A" ⟨⟨0, 0, 0, 0⟩, ⟨0, 8, 8, 8⟩, some "a"⟩
      ⟨⟨1, 0, 0, 2⟩, ⟨1, 8, 8, 10⟩, some "b"⟩
    ofSources definedTwice = .error (.invalid e) ∧
      (∃ documents document node, Document.ofSource ⟨"b", "\r\nscalar A"⟩ = .ok document ∧ node.IsIn document ∧
        e.Describes documents node ∧ e.span = node.span ∧
        ∃ first, Node.Precedes documents first node ∧ first.span = ⟨⟨0, 0, 0, 0⟩, ⟨0, 8, 8, 8⟩, some "a"⟩) ∧
      e.render definedTwice = .ok ("error: type `A` is defined more than once\n  --> b:2:1\n" ++
        "   |\n 2 | scalar A\n   | ^^^^^^^^\n" ++ "   = note: previously defined at a:1:1\n") := by
  intro e
  let first : TypeDefinition := ⟨none, "A", [], .scalar, ⟨⟨0, 0, 0, 0⟩, ⟨0, 8, 8, 8⟩, some "a"⟩⟩
  let again : TypeDefinition := ⟨none, "A", [], .scalar, ⟨⟨1, 0, 0, 2⟩, ⟨1, 8, 8, 10⟩, some "b"⟩⟩
  have hread : readAll definedTwice = .ok [⟨[first], [], [], [], []⟩, ⟨[again], [], [], [], []⟩] := by
    decide +kernel
  have h : ofSources definedTwice = .error (.invalid e) := ofSources_of_readAll_pair hread rfl (by decide)
  have hnames : ((Builtin.source :: definedTwice).map Source.name).Nodup := by decide
  obtain ⟨documents, -, ⟨source, hsource, document, -, node, hok, hspan, hnode, -, hdescribes, heq, hprevious⟩, -, -⟩ :=
    invalid_points_into_source hnames h
  obtain rfl : source = ⟨"b", "\r\nscalar A"⟩ :=
    Source.eq_of_name_eq hnames hsource (by decide) (Option.some.inj hspan).symm
  obtain ⟨first, hfirst, hplace⟩ := hprevious _ rfl
  exact ⟨h, ⟨documents, document, node, hok, hnode, hdescribes, heq, first, hfirst, hplace.symm⟩, by decide +kernel⟩

/-- A scalar defined in one source and, far behind the start of the line, in another. -/
def definedFarBehind : List Source := [⟨"a", "scalar A"⟩, ⟨"b", Text.spaces 65536 ++ "scalar A"⟩]

/-- The error points into the second source, which is given, but it cannot be rendered. -/
theorem render_breaks_off_behind_spaces :
    let e : ValidationError := .duplicateType "A" ⟨⟨0, 0, 0, 0⟩, ⟨0, 8, 8, 8⟩, some "a"⟩
      ⟨⟨0, 65536, 65536, 65536⟩, ⟨0, 65544, 65544, 65544⟩, some "b"⟩
    ((Builtin.source :: definedFarBehind).map Source.name).Nodup ∧
      ofSources definedFarBehind = .error (.invalid e) ∧ e.render definedFarBehind = .error .widthOutOfRange := by
  intro e
  let first : TypeDefinition := ⟨none, "A", [], .scalar, ⟨⟨0, 0, 0, 0⟩, ⟨0, 8, 8, 8⟩, some "a"⟩⟩
  let again : TypeDefinition :=
    ⟨none, "A", [], .scalar, ⟨⟨0, 65536, 65536, 65536⟩, ⟨0, 65544, 65544, 65544⟩, some "b"⟩⟩
  have hfirst : Document.ofSource ⟨"a", "scalar A"⟩ = .ok ⟨[first], [], [], [], []⟩ := by decide +kernel
  have hagain : Document.ofSource ⟨"b", Text.spaces 65536 ++ "scalar A"⟩ = .ok ⟨[again], [], [], [], []⟩ := by
    rw [Document.ofSource, Token.lex_spaces_append]
    decide +kernel
  have hread : readAll definedFarBehind = .ok [⟨[first], [], [], [], []⟩, ⟨[again], [], [], [], []⟩] :=
    readAll_eq_ok_iff.2 (.cons hfirst (.cons hagain .nil))
  exact ⟨by decide, ofSources_of_readAll_pair hread rfl (by decide), rfl⟩

end Schema

end TypeSystem
