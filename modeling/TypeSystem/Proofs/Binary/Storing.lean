import Mathlib.Data.List.Nodup
import TypeSystem.Binary.Schema
import TypeSystem.Proofs.Binary.Keeping

/-!
# Stored schemas

A schema that is stored as bytes is read back from them as it was, whatever follows the bytes, and it cannot
be read back from fewer of them (`decode_encode_or_cut`). The only condition is on sizes: numbers are stored in
at most eight bytes, so every number in the schema and every size of a text or list has to fit into those
(`Storable.Fits`). Besides, the keys of a table have to be distinct, since of two entries with one key only
the later value would be read.

Each codec keeps the values that fit, which follows the codec from part to part; only type references need an
induction of their own, on the lists around the name.
-/

namespace TypeSystem

/-! ### Sizes -/

/-- Types of values with numbers and sizes in them. -/
class Storable (α : Type) where
  /-- Every number in the value, and the size of every text and list in it, fits into eight bytes. -/
  Fits : α → Prop

namespace Storable

variable {α β : Type}

instance : Storable Nat := ⟨fun n ↦ n < Binary.byteRange 8⟩

instance : Storable String := ⟨fun s ↦ s.utf8ByteSize < Binary.byteRange 8⟩

instance [Storable α] [Storable β] : Storable (α × β) := ⟨fun a ↦ Fits a.1 ∧ Fits a.2⟩

instance [Storable α] : Storable (Option α) := ⟨fun found ↦ ∀ a ∈ found, Fits a⟩

instance [Storable α] : Storable (List α) :=
  ⟨fun as ↦ as.length < Binary.byteRange 8 ∧ ∀ a ∈ as, Fits a⟩

instance : Storable DirectiveLocation := ⟨fun _ ↦ True⟩

instance : Storable Position := ⟨fun p ↦ Fits p.line ∧ Fits p.column ∧ Fits p.unit16 ∧ Fits p.offset⟩

instance : Storable Span := ⟨fun s ↦ Fits s.start ∧ Fits s.stop ∧ Fits s.source⟩

instance : Storable Argument := ⟨fun a ↦ Fits a.name ∧ Fits a.value⟩

instance : Storable AppliedDirective := ⟨fun d ↦ Fits d.name ∧ Fits d.arguments ∧ Fits d.span⟩

instance : Storable TypeReference := ⟨fun type ↦ Fits type.innermostName⟩

instance : Storable InputValueDefinition :=
  ⟨fun v ↦ Fits v.description ∧ Fits v.name ∧ Fits v.type ∧ Fits v.defaultValue ∧ Fits v.directives ∧
    Fits v.span⟩

instance : Storable FieldDefinition :=
  ⟨fun f ↦ Fits f.description ∧ Fits f.name ∧ Fits f.arguments ∧ Fits f.type ∧ Fits f.directives ∧
    Fits f.span⟩

instance : Storable EnumValueDefinition :=
  ⟨fun v ↦ Fits v.description ∧ Fits v.name ∧ Fits v.directives ∧ Fits v.span⟩

instance : Storable TypeBody where
  Fits
    | .scalar => True
    | .object interfaces fields | .interface interfaces fields => Fits interfaces ∧ Fits fields
    | .union members => Fits members
    | .enum values => Fits values
    | .inputObject fields => Fits fields

instance : Storable TypeDefinition :=
  ⟨fun d ↦ Fits d.description ∧ Fits d.name ∧ Fits d.directives ∧ Fits d.body ∧ Fits d.span⟩

instance : Storable DirectiveDefinition :=
  ⟨fun d ↦ Fits d.description ∧ Fits d.name ∧ Fits d.arguments ∧ Fits d.locations ∧ Fits d.span⟩

instance : Storable RootTypes := ⟨fun r ↦ Fits r.query ∧ Fits r.mutation ∧ Fits r.subscription⟩

instance [Storable α] : Storable (Table String α) := ⟨fun t ↦ Fits t.entries⟩

instance : Storable Schema := ⟨fun s ↦ Fits s.roots ∧ Fits s.types ∧ Fits s.directives⟩

end Storable

open Storable

/-! ### Tables -/

namespace Table

variable {κ α : Type} [DecidableEq κ]

/-- Entries under new keys come behind those of the table. -/
theorem foldl_put_of_nodup {entries : List (κ × α)} {t : Table κ α}
    (h : (t.keys ++ entries.map Prod.fst).Nodup) :
    entries.foldl (fun t (key, a) ↦ t.put key a) t = ⟨t.entries ++ entries⟩ := by
  induction entries generalizing t with
  | nil => simp
  | cons e entries ih =>
    obtain ⟨key, a⟩ := e
    rw [List.map_cons] at h
    have hnew : key ∉ t.keys := fun hmem ↦ (List.disjoint_of_nodup_append h) hmem List.mem_cons_self
    have hpush : t.put key a = t.push key a := if_neg hnew
    show entries.foldl (fun t (key, a) ↦ t.put key a) (t.put key a) = _
    rw [hpush, ih]
    · simp [push]
    · rw [keys_push, List.append_assoc]
      exact h

/-- A table is made by its own entries. -/
theorem ofEntries_entries {t : Table κ α} (h : t.keys.Nodup) : ofEntries t.entries = t :=
  foldl_put_of_nodup (t := empty) h

end Table

namespace Binary.Codec

open Reader

/-! ### Type references -/

/-- What is read after the form of a type reference. -/
def readForm : ReferenceForm → Reader TypeReference
  | .named => do
    let name ← text.read
    TypeReference.named name <$> nullability.read
  | .list => do
    let element ← typeReference.read
    TypeReference.list element <$> nullability.read

/-- Reading a type reference, step by step. -/
theorem read_typeReference : typeReference.read = referenceForm.read >>= readForm := by
  funext bytes
  show readReference bytes = _
  rw [readReference]
  split
  · next e h => exact (bind_of_error h).symm
  · next rest h =>
    rw [bind_of_ok h]
    rfl
  · next rest h =>
    rw [bind_of_ok h, readForm]
    split
    · next e hread =>
      have herror : typeReference.read rest = .error e := hread
      exact (bind_of_error herror).symm
    · next element left hread =>
      have hok : typeReference.read rest = .ok (element, left) := hread
      rw [bind_of_ok hok]

theorem keeps_nullability (n : Nullability) : nullability.Keeps n :=
  keeps_oneOf (by decide) (by cases n <;> decide)

theorem keeps_referenceForm (form : ReferenceForm) : referenceForm.Keeps form :=
  keeps_oneOf (by decide) (by cases form <;> decide)

/-- A name is kept as a reference if it is kept as a text. -/
theorem keeps_named {name : String} (h : text.Keeps name) (n : Nullability) :
    typeReference.Keeps (.named name n) := by
  show typeReference.read.Takes (writeReference (.named name n)) _
  rw [read_typeReference, writeReference, List.append_assoc]
  refine (keeps_referenceForm .named).bind ?_
  exact Takes.bind h (Takes.map (keeps_nullability n) _)

/-- A list is kept as a reference if its elements are. -/
theorem keeps_listOf {element : TypeReference} (h : typeReference.Keeps element) (n : Nullability) :
    typeReference.Keeps (.list element n) := by
  show typeReference.read.Takes (writeReference (.list element n)) _
  rw [read_typeReference, writeReference, List.append_assoc]
  refine (keeps_referenceForm .list).bind ?_
  exact Takes.bind h (Takes.map (keeps_nullability n) _)

/-- References are kept, however deeply lists are nested in them. -/
theorem keeps_typeReference {type : TypeReference} (fits : Fits type) : typeReference.Keeps type := by
  -- induction on the lists around the name
  induction type with
  | named name n => exact keeps_named (keeps_text fits) n
  | list element n ih => exact keeps_listOf (ih fits) n

/-! ### Nodes -/

/-- A text that may be missing is kept if its numbers fit. -/
theorem keeps_text? {found : Option String} (fits : Fits found) : text.optional.Keeps found :=
  keeps_optional fun s hs ↦ keeps_text (fits s hs)

/-- A list is kept if the codec of its members keeps what fits. -/
theorem keeps_list_of_fits {α : Type} [Storable α] {codec : Codec α} (hcodec : ∀ {a}, Fits a → codec.Keeps a)
    {as : List α} (fits : Fits as) : codec.list.Keeps as :=
  keeps_list fits.1 fun a ha ↦ hcodec (fits.2 a ha)

theorem keeps_position {p : Position} (fits : Fits p) : position.Keeps p := by
  obtain ⟨hline, hcolumn, hunit, hoffset⟩ := fits
  exact .map (.both (keeps_number hline) (.both (keeps_number hcolumn)
    (.both (keeps_number hunit) (keeps_number hoffset)))) rfl

theorem keeps_span {s : Span} (fits : Fits s) : span.Keeps s := by
  obtain ⟨hstart, hstop, hsource⟩ := fits
  exact .map (.both (keeps_position hstart) (.both (keeps_position hstop) (keeps_text? hsource))) rfl

theorem keeps_argument {a : Argument} (fits : Fits a) : argument.Keeps a := by
  obtain ⟨hname, hvalue⟩ := fits
  exact .map (.both (keeps_text hname) (keeps_text hvalue)) rfl

theorem keeps_appliedDirective {d : AppliedDirective} (fits : Fits d) : appliedDirective.Keeps d := by
  obtain ⟨hname, harguments, hspan⟩ := fits
  exact .map (.both (keeps_text hname) (.both (keeps_list_of_fits keeps_argument harguments)
    (keeps_span hspan))) rfl

theorem keeps_inputValue {v : InputValueDefinition} (fits : Fits v) : inputValue.Keeps v := by
  obtain ⟨hdescription, hname, htype, hdefault, hdirectives, hspan⟩ := fits
  exact .map (.both (keeps_text? hdescription) (.both (keeps_text hname) (.both (keeps_typeReference htype)
    (.both (keeps_text? hdefault) (.both (keeps_list_of_fits keeps_appliedDirective hdirectives)
      (keeps_span hspan)))))) rfl

theorem keeps_field {f : FieldDefinition} (fits : Fits f) : field.Keeps f := by
  obtain ⟨hdescription, hname, harguments, htype, hdirectives, hspan⟩ := fits
  exact .map (.both (keeps_text? hdescription) (.both (keeps_text hname)
    (.both (keeps_list_of_fits keeps_inputValue harguments) (.both (keeps_typeReference htype)
      (.both (keeps_list_of_fits keeps_appliedDirective hdirectives) (keeps_span hspan)))))) rfl

theorem keeps_enumValue {v : EnumValueDefinition} (fits : Fits v) : enumValue.Keeps v := by
  obtain ⟨hdescription, hname, hdirectives, hspan⟩ := fits
  exact .map (.both (keeps_text? hdescription) (.both (keeps_text hname)
    (.both (keeps_list_of_fits keeps_appliedDirective hdirectives) (keeps_span hspan)))) rfl

/-- The members of a type are kept by the codec for its kind. -/
theorem keeps_members {directives : List AppliedDirective} {body : TypeBody} (hdirectives : Fits directives)
    (hbody : Fits body) : (members body.kind).Keeps (directives, body) := by
  have happlied := keeps_list_of_fits keeps_appliedDirective hdirectives
  cases body with
  | scalar => exact .map happlied rfl
  | object interfaces fields | interface interfaces fields =>
    exact .map (.both (keeps_list_of_fits keeps_text hbody.1)
      (.both happlied (keeps_list_of_fits keeps_field hbody.2))) rfl
  | union members => exact .map (.both happlied (keeps_list_of_fits keeps_text hbody)) rfl
  | enum values => exact .map (.both happlied (keeps_list_of_fits keeps_enumValue hbody)) rfl
  | inputObject fields => exact .map (.both happlied (keeps_list_of_fits keeps_inputValue hbody)) rfl

/-- Every kind of type is kept if its numbers fit. -/
theorem keeps_type {d : TypeDefinition} (fits : Fits d) : type.Keeps d := by
  obtain ⟨hdescription, hname, hdirectives, hbody, hspan⟩ := fits
  refine .choice (keeps_oneOf (by decide) (TypeKind.mem_all _)) ?_
  exact .map (.both (keeps_text? hdescription) (.both (keeps_text hname)
    (.both (keeps_members hdirectives hbody) (keeps_span hspan)))) rfl

/-- Directives are kept if their numbers fit. -/
theorem keeps_directive {d : DirectiveDefinition} (fits : Fits d) : directive.Keeps d := by
  obtain ⟨hdescription, hname, harguments, hlocations, hspan⟩ := fits
  have hlocation (location : DirectiveLocation) : (oneOf DirectiveLocation.all).Keeps location :=
    keeps_oneOf (by decide) (DirectiveLocation.mem_all location)
  exact .map (.both (keeps_text? hdescription) (.both (keeps_text hname)
    (.both (keeps_list_of_fits keeps_inputValue harguments) (.both (keeps_bool _)
      (.both (keeps_list hlocations.1 fun _ _ ↦ hlocation _) (keeps_span hspan)))))) rfl

/-! ### Schemas -/

theorem keeps_roots {r : RootTypes} (fits : Fits r) : roots.Keeps r := by
  obtain ⟨hquery, hmutation, hsubscription⟩ := fits
  exact .map (.both (keeps_text? hquery) (.both (keeps_text? hmutation) (keeps_text? hsubscription))) rfl

/-- A table is kept if its entries fit and no key comes twice. Reading puts the entries one by one, which is
why a key that came twice would be lost. -/
theorem keeps_table {α : Type} [Storable α] {codec : Codec α} (hcodec : ∀ {a}, Fits a → codec.Keeps a)
    {t : Table String α} (fits : Fits t) (hnodup : t.keys.Nodup) : codec.table.Keeps t := by
  have hentry {e : String × α} (he : Fits e) : (text.both codec).Keeps e :=
    .both (keeps_text he.1) (hcodec he.2)
  exact .map (keeps_list_of_fits hentry fits) (Table.ofEntries_entries hnodup)

/-- Schemas are kept if their numbers fit and no key comes twice. -/
theorem keeps_schema {s : Schema} (fits : Fits s) (types_nodup : s.types.keys.Nodup)
    (directives_nodup : s.directives.keys.Nodup) : schema.Keeps s := by
  obtain ⟨hroots, htypes, hdirectives⟩ := fits
  exact .map (.both (keeps_roots hroots) (.both (keeps_table keeps_type htypes types_nodup)
    (keeps_table keeps_directive hdirectives directives_nodup))) rfl

end Binary.Codec

namespace Schema

/-- **A stored schema is read back whole, and only whole.** From its bytes, whatever follows them, a schema is
read back as it was; and if the bytes are cut off anywhere, reading finds that they end too early. -/
theorem decode_encode_or_cut {schema : Schema} (fits : Fits schema) (types_nodup : schema.types.keys.Nodup)
    (directives_nodup : schema.directives.keys.Nodup) :
    (∀ rest, decode (schema.encode ++ rest) = .ok schema) ∧
      ∀ front, front <+: schema.encode → front ≠ schema.encode →
        decode front = .error .unexpectedEnd := by
  have hkeeps := Binary.Codec.keeps_schema fits types_nodup directives_nodup
  refine ⟨fun rest ↦ ?_, fun front hprefix hne ↦ ?_⟩
  · rw [decode, encode, hkeeps.whole rest]
    rfl
  · obtain ⟨back, hback⟩ := hprefix
    have hback_ne : back ≠ [] := by
      rintro rfl
      exact hne (by rw [← hback, List.append_nil])
    rw [decode, hkeeps.cut front back hback hback_ne]
    rfl

/-- A schema with numbers on both sides of every change of width, and a type that does not have the name that
is its key. -/
def ofEveryWidth : Schema where
  roots := ⟨some "Q", none, none⟩
  types := ⟨[("Q", ⟨none, "É", [], .object ["I"] [⟨none, "f", [], .list (.named "Int" .nonNull) .nullable, [],
      .emptyAt .origin⟩],
    ⟨⟨250, 251, 65535, 65536⟩, ⟨4294967295, 4294967296, 18446744073709551614, 18446744073709551615⟩,
      some "s"⟩⟩)]⟩
  directives := .empty

/-- Every number of the example can be written. -/
theorem fits_ofEveryWidth : Fits ofEveryWidth := by
  have hsizes : ∀ s ∈ ["Q", "É", "I", "f", "Int", "s"], s.utf8ByteSize < 18446744073709551616 := by decide
  simpa [ofEveryWidth, Fits, Binary.byteRange, Span.emptyAt, Position.origin, TypeReference.innermostName,
    Table.empty, and_assoc] using hsizes

/-- A schema in which numbers of every width occur is read back, and is not read from any part of its bytes.
-/
theorem decode_encode_or_cut_ofEveryWidth :
    Fits ofEveryWidth ∧ ofEveryWidth.types.keys.Nodup ∧ ofEveryWidth.directives.keys.Nodup ∧
      (∀ rest, decode (ofEveryWidth.encode ++ rest) = .ok ofEveryWidth) ∧
      ∀ front, front <+: ofEveryWidth.encode → front ≠ ofEveryWidth.encode →
        decode front = .error .unexpectedEnd := by
  have hnodup : ofEveryWidth.types.keys.Nodup ∧ ofEveryWidth.directives.keys.Nodup := by decide
  exact ⟨fits_ofEveryWidth, hnodup.1, hnodup.2,
    decode_encode_or_cut fits_ofEveryWidth hnodup.1 hnodup.2⟩

end Schema

end TypeSystem
