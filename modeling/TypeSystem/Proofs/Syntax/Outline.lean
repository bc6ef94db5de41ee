import TypeSystem.Proofs.Syntax.Spans
import TypeSystem.Proofs.Token.Parts

/-!
# Outlines

The outline of a value is the spans of the nodes in it, each with those of the nodes inside the node. It is
all of a document that matters where it is asked how nodes lie in a text, and as it is the same for nodes of
every sort, the answer is given once: an outline lies *over* a list of tokens (`Outline.Over`) if its nodes
cover runs of these tokens, one run behind the other, and the nodes inside a node lie over its run. No span
of a value is left out (`HasOutline.IsComplete`).
-/

namespace TypeSystem

/-- The spans of nodes one after another, each with those of the nodes inside. -/
inductive Outline where
  | nil
  | cons (span : Span) (inside others : Outline)

namespace Outline

/-- The nodes of one outline, followed by those of another. -/
def append : Outline → Outline → Outline
  | nil, b => b
  | cons span inside others, b => cons span inside (others.append b)

instance : Append Outline := ⟨append⟩

theorem nil_append (a : Outline) : nil ++ a = a := rfl

theorem cons_append (span : Span) (inside others a : Outline) :
    cons span inside others ++ a = cons span inside (others ++ a) := rfl

theorem append_nil (a : Outline) : a ++ nil = a := by
  induction a with
  | nil => rfl
  | cons span inside others _ ih => rw [cons_append, ih]

theorem append_assoc (a b c : Outline) : a ++ b ++ c = a ++ (b ++ c) := by
  induction a with
  | nil => rfl
  | cons span inside others _ ih => rw [cons_append, cons_append, cons_append, ih]

/-- The spans of all nodes, inner ones behind the outer one. -/
def spans : Outline → List Span
  | nil => []
  | cons span inside others => span :: (inside.spans ++ others.spans)

/-- A span of two outlines is one of the first or of the second. -/
theorem mem_spans_append {a b : Outline} {span : Span} :
    span ∈ (a ++ b).spans ↔ span ∈ a.spans ∨ span ∈ b.spans := by
  induction a with
  | nil => simp [nil_append, spans]
  | cons first inside others _ ih => simp [cons_append, spans, ih, or_assoc]

/-- What holds of all spans of two outlines holds of those of both. -/
theorem forall_mem_spans_append {a b : Outline} {P : Span → Prop} :
    (∀ span ∈ (a ++ b).spans, P span) ↔ (∀ span ∈ a.spans, P span) ∧ ∀ span ∈ b.spans, P span := by
  simp only [mem_spans_append, or_imp, forall_and]

/-- What holds of all spans of a node holds of its own and of those inside. -/
theorem forall_mem_spans_node {node : Span} {inside : Outline} {P : Span → Prop} :
    (∀ span ∈ (cons node inside nil).spans, P span) ↔ P node ∧ ∀ span ∈ inside.spans, P span := by
  simp [spans]

end Outline

/-! ### Outlines of values -/

/-- Types of values with nodes in them. -/
class HasOutline (α : Type) where
  /-- The nodes in the value. -/
  outline : α → Outline

namespace HasOutline

variable {α β : Type}

instance [HasOutline α] [HasOutline β] : HasOutline (α × β) :=
  ⟨fun a ↦ outline a.1 ++ outline a.2⟩

instance [HasOutline α] : HasOutline (Option α) :=
  ⟨fun a ↦ a.elim .nil outline⟩

instance [HasOutline α] : HasOutline (List α) :=
  ⟨fun as ↦ as.foldr (fun a others ↦ outline a ++ others) .nil⟩

instance : HasOutline AppliedDirective := ⟨fun directive ↦ .cons directive.span .nil .nil⟩

instance : HasOutline InputValueDefinition :=
  ⟨fun value ↦ .cons value.span (outline value.directives) .nil⟩

instance : HasOutline FieldDefinition :=
  ⟨fun field ↦ .cons field.span (outline field.arguments ++ outline field.directives) .nil⟩

instance : HasOutline EnumValueDefinition :=
  ⟨fun value ↦ .cons value.span (outline value.directives) .nil⟩

instance : HasOutline TypeBody where
  outline
    | .scalar | .union _ => .nil
    | .object _ fields | .interface _ fields => outline fields
    | .enum values => outline values
    | .inputObject fields => outline fields

instance : HasOutline TypeDefinition :=
  ⟨fun type ↦ .cons type.span (outline type.directives ++ outline type.body) .nil⟩

instance : HasOutline TypeExtension :=
  ⟨fun ext ↦ .cons ext.span (outline ext.directives ++ outline ext.body) .nil⟩

instance : HasOutline SchemaDefinition :=
  ⟨fun schema ↦ .cons schema.span (outline schema.directives) .nil⟩

instance : HasOutline SchemaExtension := ⟨fun ext ↦ .cons ext.span (outline ext.directives) .nil⟩

instance : HasOutline DirectiveDefinition :=
  ⟨fun directive ↦ .cons directive.span (outline directive.arguments) .nil⟩

instance : HasOutline Definition where
  outline
    | .type definition => outline definition
    | .schema definition => outline definition
    | .directive definition => outline definition
    | .typeExtension ext => outline ext
    | .schemaExtension ext => outline ext

instance : HasOutline Document :=
  ⟨fun document ↦ outline document.types ++ outline document.schemas ++ outline document.directives ++
    outline document.typeExtensions ++ outline document.schemaExtensions⟩

variable [HasOutline α]

theorem outline_nil : outline ([] : List α) = .nil := rfl

theorem outline_cons (a : α) (as : List α) : outline (a :: as) = outline a ++ outline as := rfl

/-- The nodes of a list are those of its members. -/
theorem mem_spans_list_iff {as : List α} {span : Span} :
    span ∈ (outline as).spans ↔ ∃ a ∈ as, span ∈ (outline a).spans := by
  induction as with
  | nil => simp [outline_nil, Outline.spans]
  | cons a as ih => simp [outline_cons, Outline.mem_spans_append, ih]

/-- A span of a value is a span of any list with the value in it. -/
theorem mem_spans_of_mem {a : α} {as : List α} {span : Span} (ha : a ∈ as) (h : span ∈ (outline a).spans) :
    span ∈ (outline as).spans :=
  mem_spans_list_iff.2 ⟨a, ha, h⟩

end HasOutline

open HasOutline (outline)

/-- A span of a document is one of its five lists. -/
theorem mem_spans_document {document : Document} {span : Span} :
    span ∈ (outline document).spans ↔ span ∈ (outline document.types).spans ∨
      span ∈ (outline document.schemas).spans ∨ span ∈ (outline document.directives).spans ∨
      span ∈ (outline document.typeExtensions).spans ∨ span ∈ (outline document.schemaExtensions).spans := by
  show span ∈ (outline document.types ++ outline document.schemas ++ outline document.directives ++
    outline document.typeExtensions ++ outline document.schemaExtensions).spans ↔ _
  simp only [Outline.mem_spans_append, or_assoc]

/-- A document has the nodes of its items. -/
theorem mem_spans_ofDefinitions {items : List Definition} {span : Span} :
    span ∈ (outline (Document.ofDefinitions items)).spans ↔ span ∈ (outline items).spans := by
  induction items with
  | nil => rfl
  | cons item items ih =>
    rw [HasOutline.outline_cons, Outline.mem_spans_append, ← ih]
    show span ∈ (outline (Document.cons item (Document.ofDefinitions items))).spans ↔ _
    -- the item is in front of the list for its sort
    cases item <;>
      simp only [outline, Document.cons, List.foldr_cons, Outline.mem_spans_append] <;> grind

/-! ### All spans of a value -/

/-- Values of the type have no other spans than those in their outlines: two changes of spans that agree on
these change the value in the same way. -/
class HasOutline.IsComplete (α : Type) [HasSpans α] [HasOutline α] : Prop where
  mapSpans_congr : ∀ {f g : Span → Span} {a : α}, (∀ span ∈ (outline a).spans, f span = g span) →
    HasSpans.mapSpans f a = HasSpans.mapSpans g a

namespace HasOutline.IsComplete

variable {α : Type} [HasSpans α] [HasOutline α] [IsComplete α]

instance : IsComplete (List α) where
  mapSpans_congr {f g as} h := by
    show as.map (HasSpans.mapSpans f) = as.map (HasSpans.mapSpans g)
    induction as with
    | nil => rfl
    | cons a as ih =>
      obtain ⟨ha, has⟩ := Outline.forall_mem_spans_append.1 h
      rw [List.map_cons, List.map_cons, mapSpans_congr ha, ih has]

instance : IsComplete AppliedDirective where
  mapSpans_congr {f g directive} h := by
    obtain ⟨hspan, -⟩ := Outline.forall_mem_spans_node.1 h
    show AppliedDirective.mk _ _ (f directive.span) = .mk _ _ (g directive.span)
    rw [hspan]

instance : IsComplete InputValueDefinition where
  mapSpans_congr {f g value} h := by
    obtain ⟨hspan, hdirectives⟩ := Outline.forall_mem_spans_node.1 h
    show InputValueDefinition.mk _ _ _ _ (HasSpans.mapSpans f value.directives) (f value.span) =
      .mk _ _ _ _ (HasSpans.mapSpans g value.directives) (g value.span)
    rw [hspan, mapSpans_congr hdirectives]

instance : IsComplete FieldDefinition where
  mapSpans_congr {f g field} h := by
    obtain ⟨hspan, hinside⟩ := Outline.forall_mem_spans_node.1 h
    obtain ⟨harguments, hdirectives⟩ := Outline.forall_mem_spans_append.1 hinside
    show FieldDefinition.mk _ _ (HasSpans.mapSpans f field.arguments) _ (HasSpans.mapSpans f field.directives)
      (f field.span) = .mk _ _ (HasSpans.mapSpans g field.arguments) _ (HasSpans.mapSpans g field.directives)
      (g field.span)
    rw [hspan, mapSpans_congr harguments, mapSpans_congr hdirectives]

instance : IsComplete EnumValueDefinition where
  mapSpans_congr {f g value} h := by
    obtain ⟨hspan, hdirectives⟩ := Outline.forall_mem_spans_node.1 h
    show EnumValueDefinition.mk _ _ (HasSpans.mapSpans f value.directives) (f value.span) =
      .mk _ _ (HasSpans.mapSpans g value.directives) (g value.span)
    rw [hspan, mapSpans_congr hdirectives]

instance : IsComplete TypeBody where
  mapSpans_congr {f g body} h := by
    cases body with
    | scalar | union => rfl
    | object interfaces fields => exact congrArg (TypeBody.object interfaces) (mapSpans_congr h)
    | interface interfaces fields => exact congrArg (TypeBody.interface interfaces) (mapSpans_congr h)
    | enum values => exact congrArg TypeBody.enum (mapSpans_congr h)
    | inputObject fields => exact congrArg TypeBody.inputObject (mapSpans_congr h)

instance : IsComplete TypeDefinition where
  mapSpans_congr {f g type} h := by
    obtain ⟨hspan, hinside⟩ := Outline.forall_mem_spans_node.1 h
    obtain ⟨hdirectives, hbody⟩ := Outline.forall_mem_spans_append.1 hinside
    show TypeDefinition.mk _ _ (HasSpans.mapSpans f type.directives) (HasSpans.mapSpans f type.body)
      (f type.span) = .mk _ _ (HasSpans.mapSpans g type.directives) (HasSpans.mapSpans g type.body)
      (g type.span)
    rw [hspan, mapSpans_congr hdirectives, mapSpans_congr hbody]

instance : IsComplete TypeExtension where
  mapSpans_congr {f g ext} h := by
    obtain ⟨hspan, hinside⟩ := Outline.forall_mem_spans_node.1 h
    obtain ⟨hdirectives, hbody⟩ := Outline.forall_mem_spans_append.1 hinside
    show TypeExtension.mk _ (HasSpans.mapSpans f ext.directives) (HasSpans.mapSpans f ext.body) (f ext.span) =
      .mk _ (HasSpans.mapSpans g ext.directives) (HasSpans.mapSpans g ext.body) (g ext.span)
    rw [hspan, mapSpans_congr hdirectives, mapSpans_congr hbody]

instance : IsComplete SchemaDefinition where
  mapSpans_congr {f g schema} h := by
    obtain ⟨hspan, hdirectives⟩ := Outline.forall_mem_spans_node.1 h
    show SchemaDefinition.mk _ (HasSpans.mapSpans f schema.directives) _ (f schema.span) =
      .mk _ (HasSpans.mapSpans g schema.directives) _ (g schema.span)
    rw [hspan, mapSpans_congr hdirectives]

instance : IsComplete SchemaExtension where
  mapSpans_congr {f g ext} h := by
    obtain ⟨hspan, hdirectives⟩ := Outline.forall_mem_spans_node.1 h
    show SchemaExtension.mk (HasSpans.mapSpans f ext.directives) _ (f ext.span) =
      .mk (HasSpans.mapSpans g ext.directives) _ (g ext.span)
    rw [hspan, mapSpans_congr hdirectives]

instance : IsComplete DirectiveDefinition where
  mapSpans_congr {f g directive} h := by
    obtain ⟨hspan, harguments⟩ := Outline.forall_mem_spans_node.1 h
    show DirectiveDefinition.mk _ _ (HasSpans.mapSpans f directive.arguments) _ _ (f directive.span) =
      .mk _ _ (HasSpans.mapSpans g directive.arguments) _ _ (g directive.span)
    rw [hspan, mapSpans_congr harguments]

instance : IsComplete Document where
  mapSpans_congr {f g document} h := by
    obtain ⟨h, hschemaExtensions⟩ := Outline.forall_mem_spans_append.1 h
    obtain ⟨h, htypeExtensions⟩ := Outline.forall_mem_spans_append.1 h
    obtain ⟨h, hdirectives⟩ := Outline.forall_mem_spans_append.1 h
    obtain ⟨htypes, hschemas⟩ := Outline.forall_mem_spans_append.1 h
    show Document.mk (HasSpans.mapSpans f document.types) (HasSpans.mapSpans f document.schemas)
      (HasSpans.mapSpans f document.directives) (HasSpans.mapSpans f document.typeExtensions)
      (HasSpans.mapSpans f document.schemaExtensions) = HasSpans.mapSpans g document
    rw [mapSpans_congr htypes, mapSpans_congr hschemas, mapSpans_congr hdirectives,
      mapSpans_congr htypeExtensions, mapSpans_congr hschemaExtensions]
    rfl

end HasOutline.IsComplete

/-! ### Outlines over tokens -/

/-- The nodes of an outline cover runs of tokens, one behind the other and each in a text of a given name,
and the nodes inside a node cover runs within its own. -/
inductive Outline.Over (source : Option String) : Outline → List Token → Prop where
  | nil (ts : List Token) : Over source .nil ts
  | cons {inside others : Outline} (gap : List Token) {run rest : List Token} {first : Token}
      (over_run : Over source inside (first :: run)) (over_rest : Over source others rest) :
      Over source (.cons ⟨first.span.start, Token.lastStop first.span.stop run, source⟩ inside others)
        (gap ++ first :: run ++ rest)

/-- A span runs from the start of one token to the end of the same or a later one. -/
def Token.Extent (ts : List Token) (span : Span) : Prop :=
  ∃ before first run after, ts = before ++ first :: run ++ after ∧ span.start = first.span.start ∧
    span.stop = lastStop first.span.stop run

/-- A token alone is an extent. -/
theorem Token.extent_of_mem {ts : List Token} {t : Token} (ht : t ∈ ts) : Extent ts t.span := by
  obtain ⟨before, after, rfl⟩ := List.append_of_mem ht
  exact ⟨before, t, [], after, by simp, rfl, rfl⟩

/-- An extent of some tokens is one of more tokens, before and behind. -/
theorem Token.Extent.append {ts : List Token} {span : Span} (h : Extent ts span) (front back : List Token) :
    Extent (front ++ ts ++ back) span := by
  obtain ⟨before, first, run, after, rfl, hstart, hstop⟩ := h
  exact ⟨front ++ before, first, run, after ++ back, by simp, hstart, hstop⟩

namespace Outline.Over

variable {source : Option String} {a b : Outline} {ts us : List Token}

/-- Outlines over two runs of tokens are, beside one another, over the run of both. -/
theorem append (ha : a.Over source ts) (hb : b.Over source us) : (a ++ b).Over source (ts ++ us) := by
  induction ha with
  | nil ts =>
    cases hb with
    | nil us => exact .nil _
    | @cons inside others gap run rest first over_run over_rest =>
      have h := cons (ts ++ gap) over_run over_rest
      rwa [List.append_assoc ts, List.append_assoc ts] at h
  | @cons inside others gap run rest first over_run over_rest _ ih =>
    have h := cons gap over_run ih
    rwa [← List.append_assoc] at h

/-- More tokens may follow. -/
theorem more (h : a.Over source ts) (us : List Token) : a.Over source (ts ++ us) := by
  have happend := h.append (Over.nil us)
  rwa [append_nil] at happend

/-- Every node has the extent of some tokens, in the text of the name given. -/
theorem extent (h : a.Over source ts) {span : Span} (hspan : span ∈ a.spans) :
    Token.Extent ts span ∧ span.source = source := by
  induction h with
  | nil ts => cases hspan
  | @cons inside others gap run rest first over_run over_rest ih ih' =>
    rw [spans, List.mem_cons, List.mem_append] at hspan
    rcases hspan with rfl | hspan | hspan
    · exact ⟨⟨gap, first, run, rest, rfl, rfl, rfl⟩, rfl⟩
    · exact ⟨(ih hspan).1.append gap rest, (ih hspan).2⟩
    · have hextent := (ih' hspan).1.append (gap ++ first :: run) []
      rw [List.append_nil] at hextent
      exact ⟨hextent, (ih' hspan).2⟩

end Outline.Over

end TypeSystem
