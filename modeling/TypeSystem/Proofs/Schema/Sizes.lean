import Mathlib.Algebra.GroupWithZero.Nat
import Mathlib.Algebra.Order.BigOperators.Group.List
import Mathlib.Algebra.Order.Group.Nat
import TypeSystem.Proofs.Binary.Storing
import TypeSystem.Proofs.Reading.Layout
import TypeSystem.Proofs.Reading.Weight
import TypeSystem.Proofs.Schema.Gathering
import TypeSystem.Proofs.Token.Places

/-!
# Schemas that can be stored

A schema can be stored if its sources are not too long together (`Schema.fits_of_ofSources`): no number in it
and no size of a text or list is larger than eight bytes can hold.
-/

namespace TypeSystem

open HasOutline (outline mem_spans_list_iff mem_spans_of_mem)
open HasWeight (weight)
open Storable (Fits)
open Text (width)
open Binary (byteRange)
open Binary.Codec (interfacesOf fieldsOf inputFieldsOf valuesOf membersOf)

/-! ### Positions -/

namespace Place

/-- A character has no more units of sixteen bits than it has bytes. -/
theorem units16_le (c : Char) : units16 c ≤ c.utf8Size := by
  unfold units16 Char.utf8Size Char.toNat
  simp only [UInt32.le_iff_toNat_le, UInt32.toNat_ofNatLT]
  split_ifs <;> omega

/-- No count of a position grows by more than the width of what is passed. -/
theorem counts_advance_le (p : Place) (c : Char) :
    (p.advance c).pos.line ≤ p.pos.line + c.utf8Size ∧ (p.advance c).pos.column ≤ p.pos.column + c.utf8Size ∧
      (p.advance c).pos.unit16 ≤ p.pos.unit16 + c.utf8Size := by
  have hc := c.utf8Size_pos
  have hunits := units16_le c
  unfold advance
  split_ifs <;> refine ⟨?_, ?_, ?_⟩ <;> dsimp only <;> omega

/-- No count at a place behind some characters is larger than the number of their bytes. -/
theorem counts_past_le (p : Place) (cs : List Char) :
    (p.past cs).pos.line ≤ p.pos.line + width cs ∧ (p.past cs).pos.column ≤ p.pos.column + width cs ∧
      (p.past cs).pos.unit16 ≤ p.pos.unit16 + width cs := by
  induction cs generalizing p with
  | nil => simp
  | cons c cs ih =>
    have hc := p.counts_advance_le c
    have hcs := ih (p.advance c)
    rw [past_cons, Text.width_cons]
    omega

/-- So the positions in a text fit if its length does. -/
theorem fits_past {cs : List Char} (h : width cs < byteRange 8) : Fits (origin.past cs).pos := by
  obtain ⟨hline, hcolumn, hunit⟩ := origin.counts_past_le cs
  have hoffset := origin.offset_past cs
  simp only [origin, Position.origin, Nat.zero_add] at hline hcolumn hunit hoffset
  exact ⟨hline.trans_lt h, hcolumn.trans_lt h, hunit.trans_lt h, hoffset.trans_lt h⟩

end Place

/-- The spans of a document fit, if its source is not too long. -/
theorem Document.fits_of_mem_spans {source : Source} {document : Document}
    (h : Document.ofSource source = .ok document) (hname : weight source.name < byteRange 8)
    (hbody : weight source.body < byteRange 8) {span : Span} (hspan : span ∈ (outline document).spans) :
    Fits span := by
  obtain ⟨hextent, hsource⟩ := extent_of_mem_spans (Except.mapError_eq_ok_iff.1 h) hspan
  obtain ⟨before, part, after, htext, -, hstart, hstop⟩ :=
    ((Token.along_lex source.body).filter _).exists_part hextent
  have hwidth : width (before ++ part ++ after) < byteRange 8 := by
    rw [← htext, Text.width_toList]
    exact hbody
  rw [Text.width_append, Text.width_append] at hwidth
  refine ⟨?_, ?_, ?_⟩
  · rw [hstart]
    exact Place.fits_past (by omega)
  · rw [hstop]
    exact Place.fits_past (by rw [Text.width_append]; omega)
  · rw [hsource]
    rintro _ ⟨⟩
    exact hname

/-! ### Light values fit -/

section Lists

variable {α : Type} [Storable α] [HasWeight α]

theorem fits_option {found : Option α} (h : ∀ {a : α}, weight a < byteRange 8 → Fits a)
    (hweight : weight found < byteRange 8) : Fits found := by
  rintro a ⟨⟩
  exact h hweight

/-- A light list fits, if light elements do. It has no more elements than it weighs. -/
theorem fits_list {as : List α} (h : ∀ a ∈ as, weight a < byteRange 8 → Fits a)
    (hweight : weight as < byteRange 8) : Fits as :=
  ⟨(length_le_weight as).trans_lt hweight, fun a ha ↦ h a ha ((weight_lt_of_mem ha).trans hweight)⟩

theorem fits_text {text : String} (hweight : weight text < byteRange 8) : Fits text := hweight

theorem fits_text? {found : Option String} (hweight : weight found < byteRange 8) : Fits found :=
  fits_option id hweight

theorem fits_texts {texts : List String} (hweight : weight texts < byteRange 8) : Fits texts :=
  fits_list (fun _ _ ↦ id) hweight

end Lists

/-- Values of the type fit if they are light and their spans fit. -/
class Storable.IsWeighed (α : Type) [Storable α] [HasWeight α] [HasOutline α] : Prop where
  fits : ∀ {a : α}, weight a < byteRange 8 → (∀ span ∈ (outline a).spans, Fits span) → Fits a

namespace Storable.IsWeighed

variable {α : Type} [Storable α] [HasWeight α] [HasOutline α] [IsWeighed α]

instance : IsWeighed (List α) where
  fits hweight hspans := fits_list (fun _ ha hlight ↦ fits hlight fun span hspan ↦
    hspans span (mem_spans_of_mem ha hspan)) hweight

instance : IsWeighed AppliedDirective where
  fits {directive} hweight hspans := by
    have hparts : weight directive.name + weight directive.arguments < byteRange 8 := hweight
    obtain ⟨hspan, -⟩ := Outline.forall_mem_spans_node.1 hspans
    refine ⟨fits_text (by omega), fits_list (fun argument _ hargument ↦ ?_) (by omega), hspan⟩
    have hargument : weight argument.name + weight argument.value < byteRange 8 := hargument
    exact ⟨fits_text (by omega), fits_text (by omega)⟩

instance : IsWeighed InputValueDefinition where
  fits {value} hweight hspans := by
    have hparts : weight value.description + weight value.name + weight value.type + weight value.defaultValue +
      weight value.directives < byteRange 8 := hweight
    obtain ⟨hspan, hdirectives⟩ := Outline.forall_mem_spans_node.1 hspans
    have htype : weight value.type.innermostName < byteRange 8 := show weight value.type < _ by omega
    exact ⟨fits_text? (by omega), fits_text (by omega), htype, fits_text? (by omega), fits (by omega) hdirectives,
      hspan⟩

instance : IsWeighed FieldDefinition where
  fits {field} hweight hspans := by
    have hparts : weight field.description + weight field.name + weight field.arguments + weight field.type +
      weight field.directives < byteRange 8 := hweight
    obtain ⟨hspan, hinside⟩ := Outline.forall_mem_spans_node.1 hspans
    obtain ⟨harguments, hdirectives⟩ := Outline.forall_mem_spans_append.1 hinside
    have htype : weight field.type.innermostName < byteRange 8 := show weight field.type < _ by omega
    exact ⟨fits_text? (by omega), fits_text (by omega), fits (by omega) harguments, htype,
      fits (by omega) hdirectives, hspan⟩

instance : IsWeighed EnumValueDefinition where
  fits {value} hweight hspans := by
    have hparts : weight value.description + weight value.name + weight value.directives < byteRange 8 := hweight
    obtain ⟨hspan, hdirectives⟩ := Outline.forall_mem_spans_node.1 hspans
    exact ⟨fits_text? (by omega), fits_text (by omega), fits (by omega) hdirectives, hspan⟩

instance : IsWeighed TypeBody where
  fits {body} hweight hspans := by
    have hparts : weight (interfacesOf body) + weight (fieldsOf body) + weight (inputFieldsOf body) +
      weight (valuesOf body) + weight (membersOf body) < byteRange 8 := hweight
    have hinterfaces : weight (interfacesOf body) < byteRange 8 := by omega
    have hfields : weight (fieldsOf body) < byteRange 8 := by omega
    have hinputFields : weight (inputFieldsOf body) < byteRange 8 := by omega
    have hvalues : weight (valuesOf body) < byteRange 8 := by omega
    have hmembers : weight (membersOf body) < byteRange 8 := by omega
    cases body with
    | scalar => trivial
    | object | interface => exact ⟨fits_texts hinterfaces, fits hfields hspans⟩
    | union => exact fits_texts hmembers
    | enum values => exact show Fits values from fits hvalues hspans
    | inputObject fields => exact show Fits fields from fits hinputFields hspans

instance : IsWeighed TypeDefinition where
  fits {type} hweight hspans := by
    have hparts : weight type.description + weight type.name + weight type.directives + weight type.body <
      byteRange 8 := hweight
    obtain ⟨hspan, hinside⟩ := Outline.forall_mem_spans_node.1 hspans
    obtain ⟨hdirectives, hbody⟩ := Outline.forall_mem_spans_append.1 hinside
    exact ⟨fits_text? (by omega), fits_text (by omega), fits (by omega) hdirectives, fits (by omega) hbody, hspan⟩

instance : IsWeighed DirectiveDefinition where
  fits {directive} hweight hspans := by
    have hparts : weight directive.description + weight directive.name + weight directive.arguments +
      weight directive.locations < byteRange 8 := hweight
    obtain ⟨hspan, harguments⟩ := Outline.forall_mem_spans_node.1 hspans
    exact ⟨fits_text? (by omega), fits_text (by omega), fits (by omega) harguments,
      fits_list (fun _ _ _ ↦ trivial) (by omega), hspan⟩

end Storable.IsWeighed

/-! ### Types with extensions folded in -/

namespace TypeDefinition

variable {type base : TypeDefinition} {added : List TypeExtension}

/-- The weight of an extension is that of its name, its directives and its members. -/
theorem weight_extension (ext : TypeExtension) : weight ext = weight ext.name + weight ext.directives +
    (weight (interfacesOf ext.body) + weight (fieldsOf ext.body) + weight (inputFieldsOf ext.body) +
      weight (valuesOf ext.body) + weight (membersOf ext.body)) := rfl

/-- What extensions add weighs no more than they do, all collections taken together. -/
theorem weight_added_le (added : List TypeExtension) :
    weight (added.flatMap TypeExtension.directives) + (weight (added.flatMap fun ext ↦ interfacesOf ext.body) +
      weight (added.flatMap fun ext ↦ fieldsOf ext.body) + weight (added.flatMap fun ext ↦ inputFieldsOf ext.body) +
      weight (added.flatMap fun ext ↦ valuesOf ext.body) + weight (added.flatMap fun ext ↦ membersOf ext.body)) ≤
      weight added := by
  induction added with
  | nil => exact Nat.le_refl 0
  | cons ext added ih =>
    have hext := weight_extension ext
    simp only [List.flatMap_cons, weight_append, weight_cons]
    omega

/-- A type with extensions folded in weighs no more than all of them together. -/
theorem Folds.weight_le (h : type.Folds base added) : weight type ≤ weight base + weight added := by
  have hadded := weight_added_le added
  have hbase : weight base = weight base.description + weight base.name + weight base.directives +
    (weight (interfacesOf base.body) + weight (fieldsOf base.body) + weight (inputFieldsOf base.body) +
      weight (valuesOf base.body) + weight (membersOf base.body)) := rfl
  show weight type.description + weight type.name + weight type.directives +
    (weight (interfacesOf type.body) + weight (fieldsOf type.body) + weight (inputFieldsOf type.body) +
      weight (valuesOf type.body) + weight (membersOf type.body)) ≤ _
  rw [h.description, h.name, h.directives, h.interfaces, h.fields, h.inputFields, h.values, h.members]
  simp only [weight_append]
  omega

theorem mem_spans_body_iff {body : TypeBody} {span : Span} :
    span ∈ (outline body).spans ↔ span ∈ (outline (fieldsOf body)).spans ∨
      span ∈ (outline (inputFieldsOf body)).spans ∨ span ∈ (outline (valuesOf body)).spans := by
  cases body <;> simp [outline, fieldsOf, inputFieldsOf, valuesOf, Outline.spans]

/-- The spans of a type are its own, those of its directives, and those of its members. -/
theorem mem_spans_type_iff {span : Span} : span ∈ (outline type).spans ↔ span = type.span ∨
    span ∈ (outline type.directives).spans ∨ span ∈ (outline (fieldsOf type.body)).spans ∨
      span ∈ (outline (inputFieldsOf type.body)).spans ∨ span ∈ (outline (valuesOf type.body)).spans := by
  rw [← mem_spans_body_iff]
  simp [outline, Outline.spans, Outline.mem_spans_append]

/-- What stands inside of one of the collections of an extension stands inside of the extension. -/
theorem mem_spans_extension {ext : TypeExtension} {span : Span} (h : span ∈ (outline ext.directives).spans ∨
    span ∈ (outline (fieldsOf ext.body)).spans ∨ span ∈ (outline (inputFieldsOf ext.body)).spans ∨
      span ∈ (outline (valuesOf ext.body)).spans) : span ∈ (outline ext).spans := by
  rw [← mem_spans_body_iff, ← Outline.mem_spans_append] at h
  exact List.mem_cons_of_mem _ (List.mem_append_left _ h)

/-- A span in a list that was added to was there, or came with what was added. -/
theorem mem_spans_of_append_flatMap {α : Type} [HasOutline α] {as : List α} {f : TypeExtension → List α}
    {span : Span} (h : span ∈ (outline (as ++ added.flatMap f)).spans)
    (hf : ∀ ext, span ∈ (outline (f ext)).spans → span ∈ (outline ext).spans) :
    span ∈ (outline as).spans ∨ span ∈ (outline added).spans := by
  obtain ⟨a, ha, hspan⟩ := mem_spans_list_iff.1 h
  rcases List.mem_append.1 ha with ha | ha
  · exact .inl (mem_spans_of_mem ha hspan)
  · obtain ⟨ext, hext, ha⟩ := List.mem_flatMap.1 ha
    exact .inr (mem_spans_of_mem hext (hf ext (mem_spans_of_mem ha hspan)))

/-- A type has the nodes of its definition and of its extensions. -/
theorem Folds.mem_spans (h : type.Folds base added) {span : Span} (hspan : span ∈ (outline type).spans) :
    span ∈ (outline base).spans ∨ span ∈ (outline added).spans := by
  rw [mem_spans_type_iff, h.span, h.directives, h.fields, h.inputFields, h.values] at hspan
  rw [mem_spans_type_iff]
  rcases hspan with hspan | hspan | hspan | hspan | hspan
  · exact .inl (.inl hspan)
  · exact (mem_spans_of_append_flatMap hspan fun _ h ↦ mem_spans_extension (.inl h)).imp_left
      fun h ↦ .inr (.inl h)
  · exact (mem_spans_of_append_flatMap hspan fun _ h ↦ mem_spans_extension (.inr (.inl h))).imp_left
      fun h ↦ .inr (.inr (.inl h))
  · exact (mem_spans_of_append_flatMap hspan fun _ h ↦ mem_spans_extension (.inr (.inr (.inl h)))).imp_left
      fun h ↦ .inr (.inr (.inr (.inl h)))
  · exact (mem_spans_of_append_flatMap hspan fun _ h ↦ mem_spans_extension (.inr (.inr (.inr h)))).imp_left
      fun h ↦ .inr (.inr (.inr (.inr h)))

end TypeDefinition

/-! ### Schemas -/

/-- How many bytes there are in some sources, their names counted. -/
def Source.totalSize (sources : List Source) : Nat :=
  (sources.map fun source ↦ source.name.utf8ByteSize + source.body.utf8ByteSize).sum

/-- A source is no longer than all of them. -/
theorem Source.size_le_totalSize {source : Source} {sources : List Source} (h : source ∈ sources) :
    source.name.utf8ByteSize + source.body.utf8ByteSize ≤ totalSize sources :=
  List.single_le_sum (by simp) _ (List.mem_map_of_mem h)

/-- What documents define and extend weighs at most twice what their sources are long. -/
theorem weight_documents_le {sources : List Source} {documents : List Document}
    (h : List.Forall₂ (fun source document ↦ Document.ofSource source = .ok document) sources documents) :
    weight (documents.flatMap Document.types) + weight (documents.flatMap Document.directives) +
      weight (documents.flatMap Document.typeExtensions) ≤ 2 * Source.totalSize sources := by
  induction h with
  | nil => exact Nat.le_refl 0
  | @cons source document sources documents hread _ ih =>
    have hdocument := Document.weight_le_of_ofTokens (Except.mapError_eq_ok_iff.1 hread)
    have hparts := weight_document document
    have hsize : Source.totalSize (source :: sources) =
        source.name.utf8ByteSize + source.body.utf8ByteSize + Source.totalSize sources := rfl
    simp only [List.flatMap_cons, weight_append]
    omega

namespace Schema

variable {documents : List Document} {schema : Schema}

/-- The documents behind a schema, and what they come to in it, are light, and their spans fit. -/
structure IsLight (documents : List Document) : Prop where
  weight_lt : weight (documents.flatMap Document.types) + weight (documents.flatMap Document.directives) +
    weight (documents.flatMap Document.typeExtensions) < byteRange 8
  spans : ∀ document ∈ documents, ∀ span ∈ (outline document).spans, Fits span

/-- Documents are light if their sources are not too long together. Names of sources count too, as spans carry
them. -/
theorem isLight_of_totalSize {sources : List Source}
    (h : List.Forall₂ (fun source document ↦ Document.ofSource source = .ok document) sources documents)
    (hsize : 2 * Source.totalSize sources < byteRange 8) : IsLight documents where
  weight_lt := (weight_documents_le h).trans_lt hsize
  spans document hdocument span hspan := by
    obtain ⟨source, hsource, hread⟩ := exists_mem_of_forall₂ h hdocument
    have hle := Source.size_le_totalSize hsource
    refine Document.fits_of_mem_spans hread ?_ ?_ hspan
    · show source.name.utf8ByteSize < _
      omega
    · show source.body.utf8ByteSize < _
      omega

namespace IsLight

variable (h : IsLight documents)

include h

/-- The spans in a definition of a type fit. -/
theorem fits_of_mem_type {type : TypeDefinition} (htype : type ∈ documents.flatMap Document.types) :
    ∀ span ∈ (outline type).spans, Fits span := by
  obtain ⟨document, hdocument, hmem⟩ := List.mem_flatMap.1 htype
  exact fun span hspan ↦ h.spans document hdocument span
    (mem_spans_document.2 (.inl (mem_spans_of_mem hmem hspan)))

/-- The spans in a definition of a directive fit. -/
theorem fits_of_mem_directive {directive : DirectiveDefinition}
    (hdirective : directive ∈ documents.flatMap Document.directives) :
    ∀ span ∈ (outline directive).spans, Fits span := by
  obtain ⟨document, hdocument, hmem⟩ := List.mem_flatMap.1 hdirective
  exact fun span hspan ↦ h.spans document hdocument span
    (mem_spans_document.2 (.inr (.inr (.inl (mem_spans_of_mem hmem hspan)))))

/-- The spans in an extension fit. -/
theorem fits_of_mem_typeExtension {ext : TypeExtension}
    (hext : ext ∈ documents.flatMap Document.typeExtensions) : ∀ span ∈ (outline ext).spans, Fits span := by
  obtain ⟨document, hdocument, hmem⟩ := List.mem_flatMap.1 hext
  exact fun span hspan ↦ h.spans document hdocument span
    (mem_spans_document.2 (.inr (.inr (.inr (.inl (mem_spans_of_mem hmem hspan))))))

/-- Types fit, with any of the extensions folded in. -/
theorem fits_types {types : Table String TypeDefinition} (keep : TypeDefinition → TypeExtension → Bool)
    (hfolds : List.Forall₂ (fun base entry ↦ entry.1 = base.name ∧
      entry.2.Folds base ((documents.flatMap Document.typeExtensions).filter (keep base)))
      (documents.flatMap Document.types) types.entries) : Fits types := by
  have hweight := h.weight_lt
  refine ⟨?_, ?_⟩
  · have hlength := length_le_weight (documents.flatMap Document.types)
    rw [← hfolds.length_eq]
    omega
  · rintro ⟨key, type⟩ hentry
    obtain ⟨base, hbase, hkey, hfold⟩ := exists_mem_of_forall₂ hfolds hentry
    have hbase_lt := weight_lt_of_mem hbase
    have hname : weight base.name ≤ weight base := by
      show weight base.name ≤ weight base.description + weight base.name + weight base.directives + weight base.body
      omega
    refine ⟨?_, Storable.IsWeighed.fits ?_ fun span hspan ↦ ?_⟩
    · rw [show key = base.name from hkey]
      exact fits_text (show weight base.name < _ by omega)
    · have hle := hfold.weight_le
      -- whichever extensions are folded in, they weigh no more than all of them
      have hkept := weight_filter_le (keep base) (documents.flatMap Document.typeExtensions)
      dsimp only at hle ⊢
      omega
    · rcases hfold.mem_spans hspan with hspan | hspan
      · exact h.fits_of_mem_type hbase span hspan
      · obtain ⟨ext, hext, hspan⟩ := mem_spans_list_iff.1 hspan
        exact h.fits_of_mem_typeExtension (List.mem_of_mem_filter hext) span hspan

/-- The table of directives fits. Directives are not extended, so it holds what the documents define. -/
theorem fits_directives :
    Fits (Table.listing DirectiveDefinition.name (documents.flatMap Document.directives)) := by
  have hweight := h.weight_lt
  refine ⟨?_, fun entry hentry ↦ ?_⟩
  · have hlength := length_le_weight (documents.flatMap Document.directives)
    simp only [Table.listing, List.length_map]
    omega
  · obtain ⟨directive, hdirective, rfl⟩ := List.mem_map.1 hentry
    have hlt := weight_lt_of_mem hdirective
    have hname : weight directive.name ≤ weight directive := by
      show weight directive.name ≤ weight directive.description + weight directive.name +
        weight directive.arguments + weight directive.locations
      omega
    exact ⟨fits_text (show weight directive.name < _ by omega),
      Storable.IsWeighed.fits (show weight directive < _ by omega) (h.fits_of_mem_directive hdirective)⟩

end IsLight

/-- **A schema fits if its sources are not too long.** -/
theorem fits_of_ofSources {sources : List Source} (h : ofSources sources = .ok schema)
    (hsize : 2 * Source.totalSize (Builtin.source :: sources) < byteRange 8) : Fits schema := by
  obtain ⟨documents, hread, hdocument⟩ := ofSources_eq_ok_iff.1 h
  obtain ⟨built, extended, roots, hbuild, hextend, hroots, rfl⟩ :=
    uncheckedOf_mergeAll_eq_ok_iff.1 (ofDocument_eq_ok_iff.1 hdocument).1
  have hlight : IsLight (Builtin.document :: documents) :=
    isLight_of_totalSize (.cons Builtin.ofSource_source hread) hsize
  rw [← List.flatMap_cons, ← List.flatMap_cons] at hbuild
  have hexts : documents.flatMap Document.typeExtensions =
      (Builtin.document :: documents).flatMap Document.typeExtensions := by
    rw [List.flatMap_cons, Builtin.typeExtensions_eq_nil, List.nil_append]
  rw [hexts] at hextend
  obtain ⟨-, hfolds, -, hdirectives⟩ := Definitions.folds_of_build hbuild hextend
  have htypes : Fits extended.types := hlight.fits_types _ hfolds
  -- the name of a root type is a key of the table
  have hroot (operation : Operation) : Fits (roots.get operation) := by
    intro name hname
    obtain ⟨type, htype, -⟩ := Definitions.exists_object_of_resolveRoots hroots hname
    exact (htypes.2 _ (Table.mem_entries_of_find? htype)).1
  refine ⟨⟨hroot .query, hroot .mutation, hroot .subscription⟩, htypes, ?_⟩
  · show Fits extended.directives
    rw [hdirectives]
    exact hlight.fits_directives

end Schema

end TypeSystem
