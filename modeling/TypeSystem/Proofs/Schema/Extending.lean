import TypeSystem.Proofs.Schema.Folding

/-!
# How far extensions come

Extensions are folded into the tables one after another, and the first that finds no type of its own kind
ends the run. Where that happens can be told from the tables as they were and the list of extensions alone,
since extending adds no type and changes the kind of none (`kind?_of_extendAll`): no extension can make
another one fail, or help it. So the run has a closed form (`extendAll_folds_or_stops`). The extensions
before the first that is refused are folded in, each behind what its type has from those before it; the
refused one gives the error; and nothing becomes of the rest.
-/

namespace TypeSystem

open Binary.Codec (interfacesOf fieldsOf membersOf valuesOf inputFieldsOf)

/-! ### What a folded type is -/

/-- The members of a type are the items of its collections, by its kind. -/
theorem TypeBody.eq_of_collections_eq {a b : TypeBody} (kind : a.kind = b.kind)
    (interfaces : interfacesOf a = interfacesOf b)
    (fields : fieldsOf a = fieldsOf b)
    (inputFields : inputFieldsOf a = inputFieldsOf b)
    (values : valuesOf a = valuesOf b)
    (members : membersOf a = membersOf b) : a = b := by
  cases a <;> cases b <;> cases kind <;>
    simp_all [interfacesOf, fieldsOf, inputFieldsOf, valuesOf, membersOf]

/-- There is one type only that a definition with given extensions makes. -/
theorem TypeDefinition.Folds.unique {type type' base : TypeDefinition} {added : List TypeExtension}
    (h : type.Folds base added) (h' : type'.Folds base added) : type = type' := by
  have hbody : type.body = type'.body :=
    TypeBody.eq_of_collections_eq (h.kind.trans h'.kind.symm) (h.interfaces.trans h'.interfaces.symm)
      (h.fields.trans h'.fields.symm) (h.inputFields.trans h'.inputFields.symm)
      (h.values.trans h'.values.symm) (h.members.trans h'.members.symm)
  have hdescription := h.description.trans h'.description.symm
  have hname := h.name.trans h'.name.symm
  have hdirectives := h.directives.trans h'.directives.symm
  have hspan := h.span.trans h'.span.symm
  obtain ⟨description, name, directives, body, span⟩ := type
  obtain ⟨description', name', directives', body', span'⟩ := type'
  cases hdescription
  cases hname
  cases hdirectives
  cases hbody
  cases hspan
  rfl

namespace Definitions

variable {d d' d'' : Definitions} {ext : TypeExtension} {exts exts' : List TypeExtension} {e : ValidationError}

/-- The tables `d'` are `d` with extensions folded in: every type stands in its place, and has in each of its
collections what it had, followed by what the extensions of its name add to it, in their order; directives
are the same. -/
structure Folded (d : Definitions) (exts : List TypeExtension) (d' : Definitions) : Prop where
  directives : d'.directives = d.directives
  types : List.Forall₂ (fun entry entry' ↦ entry'.1 = entry.1 ∧
    entry'.2.Folds entry.2 (exts.filter fun ext ↦ ext.name = entry.1)) d.types.entries d'.types.entries

/-- There is one way in which extensions can be folded in. -/
theorem Folded.unique (h : d.Folded exts d') (h' : d.Folded exts d'') : d' = d'' := by
  have hentries : d'.types.entries = d''.types.entries := by
    refine List.right_unique_forall₂' ?_ h.types h'.types
    rintro ⟨key, base⟩ ⟨key₁, type₁⟩ ⟨key₂, type₂⟩ ⟨hkey₁, hfolds₁⟩ ⟨hkey₂, hfolds₂⟩
    cases hkey₁
    cases hkey₂
    exact congrArg (key, ·) (hfolds₁.unique hfolds₂)
  obtain ⟨⟨entries'⟩, directives'⟩ := d'
  obtain ⟨⟨entries''⟩, directives''⟩ := d''
  cases h.directives
  cases h'.directives
  cases hentries
  rfl

/-- Only the order of the extensions of each type matters. -/
theorem Folded.of_filter_eq (h : d.Folded exts d')
    (hsame : ∀ name, exts'.filter (·.name = name) = exts.filter (·.name = name)) : d.Folded exts' d' where
  directives := h.directives
  types := by
    simp only [hsame]
    exact h.types

/-! ### What becomes of one extension -/

/-- An extension names a type of its own kind. -/
def Admits (d : Definitions) (ext : TypeExtension) : Prop :=
  ∃ base, d.type? ext.name = some base ∧ base.kind = ext.kind

/-- An extension names no type, or one of another kind, and this is the error for that. -/
inductive Refuses (d : Definitions) (ext : TypeExtension) : ValidationError → Prop where
  | undefined (missing : d.type? ext.name = none) : Refuses d ext (.undefinedExtension ext.name ext.span)
  | mismatched {base : TypeDefinition} (found : d.type? ext.name = some base) (other : base.kind ≠ ext.kind) :
      Refuses d ext (.mismatchedExtension ext.name base.kind ext.kind ext.span)

/-- An extension is admitted if a type of its kind has its name. -/
theorem admits_iff : d.Admits ext ↔ (d.type? ext.name).map TypeDefinition.kind = some ext.kind := by
  rw [Admits, Option.map_eq_some_iff]

/-- An extension is admitted, or it is refused for one reason. -/
theorem admits_or_refuses (d : Definitions) (ext : TypeExtension) :
    d.Admits ext ∨ ∃ e, d.Refuses ext e := by
  cases hfound : d.type? ext.name with
  | none => exact .inr ⟨_, .undefined hfound⟩
  | some base =>
    by_cases hkind : base.kind = ext.kind
    · exact .inl ⟨base, hfound, hkind⟩
    · exact .inr ⟨_, .mismatched hfound hkind⟩

/-- The reason for which an extension is refused is the error that comes out. -/
theorem extend_eq_error_of_refuses (h : d.Refuses ext e) : d.extend ext = .error e := by
  cases h with
  | undefined missing => simp only [extend, missing]
  | @mismatched base found other =>
    have hnone : base.extend? ext = none := by
      rw [Option.eq_none_iff_forall_not_mem]
      intro type htype
      exact other (TypeDefinition.extend?_isSome_iff.1 (Option.isSome_of_mem htype))
    simp only [extend, found, hnone]

/-- Whether and why an extension is refused depends on the kinds of the types alone. -/
theorem Refuses.of_kind?_eq (h : d.Refuses ext e)
    (hsame : ∀ name, (d'.type? name).map TypeDefinition.kind = (d.type? name).map TypeDefinition.kind) :
    d'.Refuses ext e := by
  have hname := hsame ext.name
  cases h with
  | undefined missing =>
    rw [missing, Option.map_none, Option.map_eq_none_iff] at hname
    exact .undefined hname
  | mismatched found other =>
    rw [found, Option.map_some, Option.map_eq_some_iff] at hname
    obtain ⟨base', found', hkind⟩ := hname
    rw [← hkind] at other ⊢
    exact .mismatched found' other

/-! ### What becomes of several -/

/-- Kinds of types stay as they are, however far extensions come. -/
theorem kind?_of_extendAll (d : Definitions) (exts : List TypeExtension) (name : String) :
    ((d.extendAll exts).definitions.type? name).map TypeDefinition.kind =
      (d.type? name).map TypeDefinition.kind := by
  induction exts generalizing d with
  | nil => rfl
  | cons ext exts ih =>
    unfold extendAll change
    split
    · next next hok => exact (ih next).trans (kind?_of_extend hok name)
    · rfl

/-- Several extensions are folded in without an error just if each one is admitted. Whether one is does not
depend on the others, as they change neither names nor kinds. -/
theorem error_extendAll_eq_none_iff : (d.extendAll exts).error = none ↔ ∀ ext ∈ exts, d.Admits ext := by
  simp only [admits_iff, ← exists_extendAll_eq_ok_iff, Progress.result]
  generalize d.extendAll exts = p
  obtain ⟨reached, _ | e⟩ := p
  · simp
  · simp

/-- Without an error every type has all extensions of its name folded in, in order. -/
theorem folded_of_extendAll (hd : d.types.keys.Nodup) (h : (d.extendAll exts).error = none) :
    d.Folded exts (d.extendAll exts).definitions := by
  have hresult : (d.extendAll exts).result = .ok (d.extendAll exts).definitions := by
    rw [Progress.result, h]
  obtain ⟨hdirectives, htypes⟩ := folds_of_extendAll hd hresult
  exact ⟨hdirectives, htypes⟩

/-- The first extension that is refused, out of a list with one that is not admitted. -/
theorem exists_first_refused (h : ¬ ∀ ext ∈ exts, d.Admits ext) :
    ∃ before ext after e, exts = before ++ ext :: after ∧ (∀ other ∈ before, d.Admits other) ∧
      d.Refuses ext e := by
  induction exts with
  | nil => exact absurd (List.forall_mem_nil _) h
  | cons ext exts ih =>
    rcases d.admits_or_refuses ext with hext | ⟨e, hext⟩
    · obtain ⟨before, other, after, e, rfl, hbefore, hother⟩ :=
        ih fun hall ↦ h (List.forall_mem_cons.2 ⟨hext, hall⟩)
      exact ⟨ext :: before, other, after, e, rfl, List.forall_mem_cons.2 ⟨hext, hbefore⟩, hother⟩
    · exact ⟨[], ext, exts, e, rfl, List.forall_mem_nil _, hext⟩

/-- An extension that is refused ends the run, with the tables that those before it have reached. -/
theorem extendAll_eq_of_first_refused {before after : List TypeExtension}
    (hbefore : ∀ other ∈ before, d.Admits other) (hext : d.Refuses ext e) :
    d.extendAll (before ++ ext :: after) = ⟨(d.extendAll before).definitions, some e⟩ := by
  have hend : d.extendAll before = ⟨(d.extendAll before).definitions, none⟩ := by
    rw [← error_extendAll_eq_none_iff.2 hbefore]
  exact change_eq_of_first_failure hend
    (extend_eq_error_of_refuses (hext.of_kind?_eq (d.kind?_of_extendAll before)))

/-- What comes of folding extensions into the tables `d`. -/
structure Extends (d : Definitions) (exts : List TypeExtension) (p : Progress) : Prop where
  /-- All of them are folded in exactly if each names a type of its own kind. -/
  ends_iff : p.error = none ↔ ∀ ext ∈ exts, d.Admits ext
  /-- Then each type has what its extensions add to it. -/
  folded : p.error = none → d.Folded exts p.definitions
  /-- Extensions of different types may then change places. -/
  reordered : p.error = none → ∀ exts' : List TypeExtension,
    (∀ name, exts'.filter (·.name = name) = exts.filter (·.name = name)) → d.extendAll exts' = p
  /-- Otherwise the first that names no type of its own kind gives the error, and only those before it are
  folded in. -/
  stops : p.error ≠ none → ∃ before ext after e, exts = before ++ ext :: after ∧
    (∀ other ∈ before, d.Admits other) ∧ d.Refuses ext e ∧ p.error = some e ∧
    p.definitions = (d.extendAll before).definitions ∧ d.Folded before p.definitions

/-- **Extensions are folded in up to the first that is refused.** Into tables with distinct keys, extensions
are folded by appending to each type what they add to it, in order, if each of them names a type of its own
kind. If not, the first that does not gives the error, which tells what it names and where it stands, and
the tables are those that the extensions before it make. -/
theorem extendAll_folds_or_stops (hd : d.types.keys.Nodup) (exts : List TypeExtension) :
    d.Extends exts (d.extendAll exts) where
  ends_iff := error_extendAll_eq_none_iff
  folded := folded_of_extendAll hd
  reordered hend exts' hsame := by
    have hadmits' : ∀ ext ∈ exts', d.Admits ext := by
      intro ext hext
      have hmem : ext ∈ exts.filter (·.name = ext.name) := by
        rw [← hsame]
        exact List.mem_filter.2 ⟨hext, by simp⟩
      exact error_extendAll_eq_none_iff.1 hend ext (List.mem_of_mem_filter hmem)
    have hend' := error_extendAll_eq_none_iff.2 hadmits'
    have hdefinitions : (d.extendAll exts').definitions = (d.extendAll exts).definitions :=
      (folded_of_extendAll hd hend').unique ((folded_of_extendAll hd hend).of_filter_eq hsame)
    calc d.extendAll exts' = ⟨(d.extendAll exts').definitions, (d.extendAll exts').error⟩ := rfl
      _ = ⟨(d.extendAll exts).definitions, (d.extendAll exts).error⟩ := by
        rw [hdefinitions, hend', hend]
  stops herror := by
    obtain ⟨before, ext, after, e, rfl, hbefore, hext⟩ :=
      exists_first_refused fun hall ↦ herror (error_extendAll_eq_none_iff.2 hall)
    rw [extendAll_eq_of_first_refused hbefore hext]
    exact ⟨before, ext, after, e, rfl, hbefore, hext, rfl, rfl,
      folded_of_extendAll hd (error_extendAll_eq_none_iff.2 hbefore)⟩

/-- The union `U` of `A`, and the scalar `S`. -/
def unionAndScalar : Definitions :=
  ⟨.listing TypeDefinition.name
    [⟨none, "U", [], .union ["A"], .emptyAt .origin⟩, ⟨none, "S", [], .scalar, .emptyAt .origin⟩], .empty⟩

/-- An extension of the given name by one member of a union. -/
def byMember (name member : String) : TypeExtension :=
  ⟨name, [], .union [member], .emptyAt .origin⟩

/-- Of four extensions, the third is of a type of another kind. -/
theorem extendAll_folds_or_stops_at_scalar :
    unionAndScalar.types.keys.Nodup ∧
      unionAndScalar.Extends [byMember "U" "B", byMember "U" "C", byMember "S" "D", byMember "U" "E"]
        ⟨⟨.listing TypeDefinition.name [⟨none, "U", [], .union ["A", "B", "C"], .emptyAt .origin⟩,
          ⟨none, "S", [], .scalar, .emptyAt .origin⟩], .empty⟩,
        some (.mismatchedExtension "S" .scalar .union (.emptyAt .origin))⟩ :=
  have hnodup : unionAndScalar.types.keys.Nodup := by decide
  ⟨hnodup, extendAll_folds_or_stops hnodup
    [byMember "U" "B", byMember "U" "C", byMember "S" "D", byMember "U" "E"]⟩

end Definitions

end TypeSystem
