import Mathlib.Data.List.Induction
import TypeSystem.Proofs.Binary.Brevity
import TypeSystem.Proofs.Binary.Storing

/-!
# Stored schemas are as short as can be

Bytes of a schema may be longer than they need be: numbers may be written too wide, a table may have entries
with one key, and anything may follow. All of them are read, but what is written for the schema that is read
is shorter than any of them, unless it is the very same bytes (`encode_shortest`). So the written form is
the one shortest of all that are read as a schema.

Each codec of the nodes of a schema is brief, which follows the codec from part to part. Two of them need an
argument of their own. A type reference is read from the outside in, and the induction is on the bytes that
are left. A table that has been read from entries with one key writes fewer entries than have been read, as
the later entry replaces the earlier one (`Table.entries_ofEntries`).
-/

namespace TypeSystem

/-! ### Tables made from entries -/

namespace Table

open scoped List

variable {κ α : Type} [DecidableEq κ]

/-- Nothing is replaced under a key that is not there. -/
theorem replace_of_notMem {t : Table κ α} {key : κ} (h : key ∉ t.keys) (a : α) : t.replace key a = t := by
  rw [replace]
  refine congrArg Table.mk ((List.map_congr_left fun e he ↦ ?_).trans (List.map_id t.entries))
  exact if_neg fun hkey ↦ h (List.mem_map.2 ⟨e, he, hkey⟩)

/-- A value that is put under a new key comes last; under a key that is there, it replaces the other value
in its place. -/
theorem entries_put {t : Table κ α} (hnodup : t.keys.Nodup) (key : κ) (a : α) :
    (t.put key a).entries = t.entries ++ [(key, a)] ∨
      ∃ front b back, t.entries = front ++ (key, b) :: back ∧
        (t.put key a).entries = front ++ (key, a) :: back := by
  unfold put
  split
  · next hkey =>
    obtain ⟨⟨key', b⟩, hmem, hsame⟩ := List.mem_map.1 hkey
    obtain rfl : key = key' := hsame.symm
    obtain ⟨front, back, hentries⟩ := List.append_of_mem hmem
    rw [keys, hentries, List.map_append, List.map_cons, List.nodup_middle, List.nodup_cons,
      List.mem_append, not_or] at hnodup
    -- no other entry has the key
    obtain ⟨⟨hfront, hback⟩, -⟩ := hnodup
    have hfront := replace_of_notMem (t := ⟨front⟩) hfront a
    have hback := replace_of_notMem (t := ⟨back⟩) hback a
    refine .inr ⟨front, b, back, hentries, ?_⟩
    calc (t.replace key a).entries
      _ = (replace ⟨front⟩ key a).entries ++
          (if key = key then (key, a) else (key, b)) :: (replace ⟨back⟩ key a).entries := by
        rw [replace, hentries, List.map_append, List.map_cons]
        rfl
      _ = front ++ (key, a) :: back := by rw [hfront, hback, if_pos rfl]
  · exact .inl rfl

/-- The last entry is the last one that is put. -/
theorem ofEntries_append_singleton (entries : List (κ × α)) (key : κ) (a : α) :
    ofEntries (entries ++ [(key, a)]) = (ofEntries entries).put key a := by
  rw [ofEntries, List.foldl_append]
  rfl

/-- A table made from entries has no key twice, however often the entries repeat one. -/
theorem nodup_keys_ofEntries (entries : List (κ × α)) : (ofEntries entries).keys.Nodup := by
  induction entries using List.reverseRecOn with
  | nil => exact List.nodup_nil
  | append_singleton entries e ih =>
    obtain ⟨key, a⟩ := e
    rw [ofEntries_append_singleton, keys_put]
    split
    · exact ih
    · next hnew =>
      rw [← List.concat_eq_append]
      exact ih.concat hnew

/-- The entries of a table that is made from a list are those of the list, less the ones that later entries
have replaced; and if none has been replaced, they stand as in the list. -/
theorem entries_ofEntries (entries : List (κ × α)) :
    ∃ replaced, (ofEntries entries).entries ++ replaced ~ entries ∧
      (replaced = [] → (ofEntries entries).entries = entries) := by
  induction entries using List.reverseRecOn with
  | nil => exact ⟨[], .refl _, fun _ ↦ rfl⟩
  | append_singleton entries e ih =>
    obtain ⟨key, a⟩ := e
    obtain ⟨replaced, hperm, hsame⟩ := ih
    rw [ofEntries_append_singleton]
    -- the last entry is new to the table, or takes the place of an earlier one
    rcases entries_put (nodup_keys_ofEntries entries) key a with hput | ⟨front, b, back, hentries, hput⟩
    · refine ⟨replaced, ?_, fun hnil ↦ by rw [hput, hsame hnil]⟩
      calc ((ofEntries entries).put key a).entries ++ replaced
        _ = (ofEntries entries).entries ++ (key, a) :: replaced := by rw [hput, List.append_assoc]; rfl
        _ ~ (key, a) :: ((ofEntries entries).entries ++ replaced) := List.perm_middle
        _ ~ (key, a) :: entries := hperm.cons _
        _ ~ entries ++ [(key, a)] := (List.perm_append_singleton _ _).symm
    · refine ⟨(key, b) :: replaced, ?_, fun hnil ↦ absurd hnil (List.cons_ne_nil _ _)⟩
      calc ((ofEntries entries).put key a).entries ++ (key, b) :: replaced
        _ = front ++ (key, a) :: (back ++ (key, b) :: replaced) := by rw [hput, List.append_assoc]; rfl
        _ ~ (key, a) :: (front ++ (back ++ (key, b) :: replaced)) := List.perm_middle
        _ ~ (key, a) :: (front ++ (key, b) :: (back ++ replaced)) :=
          (List.perm_middle.append_left front).cons _
        _ = (key, a) :: ((ofEntries entries).entries ++ replaced) := by
          rw [hentries, List.append_assoc, List.cons_append]
        _ ~ (key, a) :: entries := hperm.cons _
        _ ~ entries ++ [(key, a)] := (List.perm_append_singleton _ _).symm

end Table

namespace Binary.Codec

open Reader

/-! ### Type references -/

theorem isBrief_nullability : nullability.IsBrief :=
  isBrief_oneOf (by decide) (by decide)

theorem isBrief_referenceForm : referenceForm.IsBrief :=
  isBrief_oneOf (by decide) (by decide)

/-- Type references are brief, however deeply lists are nested in them. -/
theorem isBrief_typeReference : typeReference.IsBrief := by
  intro bytes
  -- induction on the bytes: the element of a list is read from fewer
  induction hlength : bytes.length using Nat.strongRecOn generalizing bytes with
  | ind length ih =>
    intro rest type hread
    rw [read_typeReference] at hread
    obtain ⟨form, left, hform, hread⟩ := bind_eq_ok_iff.1 hread
    have hleft := hlength ▸ length_lt_of_oneOf hform
    obtain ⟨front, rfl, -, hfront⟩ := isBrief_referenceForm _ _ _ hform
    cases form with
    | named =>
      have hnamed : (readForm .named).Yields fun type taken ↦
          typeReference.Keeps type ∧ NoLonger (writeReference type) (front ++ taken) := by
        refine Yields.bind isBrief_text fun name taken hname ↦ .map ?_
        refine isBrief_nullability.mono fun n taken' hn ↦ ⟨keeps_named hname.1 n, ?_⟩
        rw [← List.append_assoc]
        exact (hfront.append hname.2).append hn.2
      obtain ⟨taken, rfl, hbrief⟩ := hnamed left rest type hread
      exact ⟨front ++ taken, (List.append_assoc _ _ _).symm, hbrief⟩
    | list =>
      obtain ⟨element, left', helement, hlast⟩ := bind_eq_ok_iff.1 hread
      obtain ⟨taken, rfl, hkeeps, hbrief⟩ := ih left.length hleft left rfl left' element helement
      rw [map_eq_pure_bind] at hlast
      obtain ⟨n, _, hn, heq⟩ := bind_eq_ok_iff.1 hlast
      cases heq
      obtain ⟨taken', rfl, -, hn⟩ := isBrief_nullability _ _ _ hn
      refine ⟨front ++ taken ++ taken', ?_, keeps_listOf hkeeps n, (hfront.append hbrief).append hn⟩
      rw [List.append_assoc, List.append_assoc]

/-! ### Nodes -/

theorem isBrief_position : position.IsBrief :=
  (isBrief_number.both (isBrief_number.both (isBrief_number.both isBrief_number))).map fun _ ↦ rfl

theorem isBrief_span : span.IsBrief :=
  (isBrief_position.both (isBrief_position.both isBrief_text.optional)).map fun _ ↦ rfl

theorem isBrief_argument : argument.IsBrief :=
  (isBrief_text.both isBrief_text).map fun _ ↦ rfl

theorem isBrief_appliedDirective : appliedDirective.IsBrief :=
  (isBrief_text.both (isBrief_argument.list.both isBrief_span)).map fun _ ↦ rfl

theorem isBrief_inputValue : inputValue.IsBrief :=
  (isBrief_text.optional.both (isBrief_text.both (isBrief_typeReference.both (isBrief_text.optional.both
    (isBrief_appliedDirective.list.both isBrief_span))))).map fun _ ↦ rfl

theorem isBrief_field : field.IsBrief :=
  (isBrief_text.optional.both (isBrief_text.both (isBrief_inputValue.list.both (isBrief_typeReference.both
    (isBrief_appliedDirective.list.both isBrief_span))))).map fun _ ↦ rfl

theorem isBrief_enumValue : enumValue.IsBrief :=
  (isBrief_text.optional.both (isBrief_text.both
    (isBrief_appliedDirective.list.both isBrief_span))).map fun _ ↦ rfl

/-- The members of a type are those of a type of the kind for which they are read. -/
theorem yields_members (kind : TypeKind) :
    (members kind).read.Yields fun m taken ↦ m.2.kind = kind ∧ (members kind).Keeps m ∧
      NoLonger ((members kind).write m) taken := by
  have happlied := isBrief_appliedDirective.list
  cases kind with
  | scalar => exact happlied.yields_map (fun _ ↦ rfl) fun _ ↦ rfl
  | object =>
    exact (isBrief_text.list.both (happlied.both isBrief_field.list)).yields_map (fun _ ↦ rfl) fun _ ↦ rfl
  | interface =>
    exact (isBrief_text.list.both (happlied.both isBrief_field.list)).yields_map (fun _ ↦ rfl) fun _ ↦ rfl
  | union => exact (happlied.both isBrief_text.list).yields_map (fun _ ↦ rfl) fun _ ↦ rfl
  | enum => exact (happlied.both isBrief_enumValue.list).yields_map (fun _ ↦ rfl) fun _ ↦ rfl
  | inputObject => exact (happlied.both isBrief_inputValue.list).yields_map (fun _ ↦ rfl) fun _ ↦ rfl

/-- Definitions of types are brief, whichever of the six kinds a definition is of. -/
theorem isBrief_type : type.IsBrief := by
  refine (isBrief_oneOf (by decide) (by decide)).choice (fun kind ↦ ?_) fun kind ↦ ?_
  · have hmembers : (members kind).IsBrief := (yields_members kind).mono fun _ _ h ↦ h.2
    exact (isBrief_text.optional.both (isBrief_text.both (hmembers.both isBrief_span))).map fun _ ↦ rfl
  · have hkind : ((members kind).both span).read.Yields fun v _ ↦ v.1.2.kind = kind :=
      yields_both (yields_members kind) isBrief_span fun _ _ _ _ hm _ ↦ hm.1
    have hnamed : (text.both ((members kind).both span)).read.Yields fun v _ ↦ v.2.1.2.kind = kind :=
      yields_both isBrief_text hkind fun _ _ _ _ _ h ↦ h
    refine Yields.map (yields_both isBrief_text.optional hnamed ?_)
    exact fun _ _ _ _ _ h ↦ h

theorem isBrief_directive : directive.IsBrief :=
  (isBrief_text.optional.both (isBrief_text.both (isBrief_inputValue.list.both (isBrief_bool.both
    ((isBrief_oneOf (by decide) (by decide)).list.both isBrief_span))))).map fun _ ↦ rfl

/-! ### Schemas -/

theorem isBrief_roots : roots.IsBrief :=
  (isBrief_text.optional.both (isBrief_text.optional.both isBrief_text.optional)).map fun _ ↦ rfl

/-- **Tables are brief.** Here the bytes may become fewer: an entry whose key comes again is written once. -/
theorem isBrief_table {α : Type} {codec : Codec α} (h : codec.IsBrief) : codec.table.IsBrief := by
  refine Yields.map ((yields_list (isBrief_text.both h)).mono fun entries taken hread ↦ ?_)
  obtain ⟨hlength, hkeeps, hbrief⟩ := hread
  obtain ⟨replaced, hperm, hsame⟩ := Table.entries_ofEntries entries
  have hnodup := Table.nodup_keys_ofEntries entries
  generalize Table.ofEntries entries = t at hperm hsame hnodup ⊢
  have hfewer : t.entries.length ≤ entries.length := by
    rw [← hperm.length_eq, List.length_append]
    exact Nat.le_add_right _ _
  have hlist : (text.both codec).list.Keeps t.entries :=
    keeps_list (Nat.lt_of_le_of_lt hfewer hlength)
      fun e he ↦ hkeeps e (hperm.subset (List.mem_append_left _ he))
  refine ⟨.map hlist (Table.ofEntries_entries hnodup), NoLonger.trans ?_ hbrief⟩
  show NoLonger ((text.both codec).list.write t.entries) ((text.both codec).list.write entries)
  cases replaced with
  | nil =>
    rw [hsame rfl]
    exact .refl _
  | cons e replaced =>
    -- what would be written for an entry that is replaced is saved
    have hsaved : 0 < ((text.both codec).write e).length := by
      have hsize := length_writeNumber_pos e.1.utf8ByteSize
      simp only [both, text, List.length_append]
      omega
    have hnumber := length_writeNumber_mono hfewer
    have hwritten := (hperm.flatMap_right (text.both codec).write).length_eq
    simp only [List.flatMap_append, List.flatMap_cons, List.length_append] at hwritten
    refine .inr ?_
    simp only [list, List.length_append]
    omega

/-- Schemas are brief, as their parts are. -/
theorem isBrief_schema : schema.IsBrief :=
  (isBrief_roots.both ((isBrief_table isBrief_type).both (isBrief_table isBrief_directive))).map fun _ ↦ rfl

end Binary.Codec

namespace Schema

/-- **What is written for a schema is shorter than anything else that is read as it.** Wherever bytes are read
as a schema, no more bytes are written for it, and as many only if they are the same ones; and from what is
written the same schema is read. -/
theorem encode_shortest {bytes : List UInt8} {schema : Schema} (h : decode bytes = .ok schema) :
    schema.encode.length ≤ bytes.length ∧ (schema.encode.length = bytes.length → schema.encode = bytes) ∧
      decode schema.encode = .ok schema := by
  rw [decode] at h
  cases hread : Binary.Codec.schema.read bytes with
  | error e =>
    rw [hread] at h
    cases h
  | ok found =>
    obtain ⟨found, rest⟩ := found
    rw [hread] at h
    obtain rfl : found = schema := Except.ok.inj h
    obtain ⟨taken, rfl, hkeeps, hbrief⟩ := Binary.Codec.isBrief_schema bytes rest found hread
    have hbrief : Binary.NoLonger found.encode taken := hbrief
    have hle := hbrief.length_le
    rw [List.length_append]
    refine ⟨Nat.le_add_right_of_le hle, fun hlength ↦ ?_, ?_⟩
    · -- then nothing follows the bytes that were taken
      obtain rfl : rest = [] := List.eq_nil_of_length_eq_zero (by omega)
      rw [List.append_nil]
      exact hbrief.eq_of_length_eq hlength
    · have hwhole := hkeeps.whole []
      rw [List.append_nil] at hwhole
      rw [decode, encode, hwhole]
      rfl

/-- Bytes that are longer than they need be: the number of types is written too wide, both types have one
key, and one more byte follows the schema. -/
def roundabout : List UInt8 :=
  let span := List.replicate 9 0
  [0, 0, 0] ++
    ([251, 2, 0] ++ ([1, 65, 0, 0, 1, 65, 0] ++ span) ++ ([1, 65, 0, 1, 1, 100, 1, 65, 0] ++ span)) ++ [0] ++ [7]

/-- The later of two types with one key. -/
def ofRoundabout : Schema where
  roots := ⟨none, none, none⟩
  types := ⟨[("A", ⟨some "d", "A", [], .scalar, .emptyAt .origin⟩)]⟩
  directives := .empty

/-- Bytes that are longer than need be in three ways: a number with a marker that could do without, a key that
comes twice, and bytes that follow the schema. -/
theorem encode_shortest_roundabout : decode roundabout = .ok ofRoundabout ∧
    ofRoundabout.encode.length ≤ roundabout.length ∧
    (ofRoundabout.encode.length = roundabout.length → ofRoundabout.encode = roundabout) ∧
    decode ofRoundabout.encode = .ok ofRoundabout := by
  have hdecode : decode roundabout = .ok ofRoundabout := rfl
  exact ⟨hdecode, encode_shortest hdecode⟩

end Schema

end TypeSystem
