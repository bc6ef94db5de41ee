import Mathlib.Data.List.Forall2
import TypeSystem.Binary.Syntax
import TypeSystem.Proofs.Schema.SelfReference

/-!
# Definitions and their extensions, folded

What the steps of a build come to, each said without the step by step of it. Indexing succeeds exactly if
no name is defined twice, and lists the definitions in their order (`build_eq_ok_iff`). Extending succeeds
exactly if every extension finds a type of its own kind (`exists_extendAll_eq_ok_iff`), and leaves each type
in its place, with what its extensions add behind what it had (`folds_of_extendAll`): `Folds` says so,
collection by collection. Root types are found exactly if no operation is declared twice and every
declared name is that of an object type (`resolveRoots_eq_ok_iff`).

Indexing and extending are runs of changes, one item after another. A run that fails ends at the first change
that does, with the tables that those before it have reached (`change_eq_of_first_failure`).
-/

namespace TypeSystem

open Binary.Codec (interfacesOf fieldsOf membersOf valuesOf inputFieldsOf)

/-! ### Lists that agree -/

/-- Whatever is in the second of two lists that agree, one by one, agrees with something in the first. -/
theorem exists_mem_of_forall₂ {α β : Type} {R : α → β → Prop} {as : List α} {bs : List β}
    (h : List.Forall₂ R as bs) {b : β} (hb : b ∈ bs) : ∃ a ∈ as, R a b := by
  induction h with
  | nil => cases hb
  | @cons a _ _ _ hab _ ih =>
    rcases List.mem_cons.1 hb with rfl | hb
    · exact ⟨a, List.mem_cons_self, hab⟩
    · obtain ⟨a', ha', hR⟩ := ih hb
      exact ⟨a', List.mem_cons_of_mem _ ha', hR⟩

/-- Lists that agree in something, item by item, have the same list of it. -/
theorem map_eq_map_of_forall₂ {α β γ : Type} {f : α → γ} {g : β → γ} {as : List α} {bs : List β}
    (h : List.Forall₂ (fun a b ↦ g b = f a) as bs) : bs.map g = as.map f := by
  induction h with
  | nil => rfl
  | cons hab _ ih => rw [List.map_cons, List.map_cons, hab, ih]

/-- Lists that agree with a third one between them agree in what follows from both. -/
theorem forall₂_of_forall₂ {α β γ : Type} {R : α → β → Prop} {S : β → γ → Prop} {T : α → γ → Prop}
    (hT : ∀ {a b c}, R a b → S b c → T a c) {as : List α} {bs : List β} {cs : List γ}
    (hR : List.Forall₂ R as bs) (hS : List.Forall₂ S bs cs) : List.Forall₂ T as cs := by
  induction hR generalizing cs with
  | nil =>
    cases hS
    exact .nil
  | cons hab _ ih =>
    cases hS with
    | cons hbc hothers => exact .cons (hT hab hbc) (ih hothers)

/-! ### Tables that list their values -/

namespace Table

variable {κ α β : Type}

/-- The table of a list of values, each under its own name. -/
def listing (name : α → κ) (as : List α) : Table κ α := ⟨as.map fun a ↦ (name a, a)⟩

/-- The keys of a table that lists its values are their names, in order. -/
@[simp] theorem keys_listing (name : α → κ) (as : List α) : (listing name as).keys = as.map name := by
  simp [keys, listing]

variable [DecidableEq κ]

/-- A name finds a value of a list exactly if it is the name of that value, where names are distinct. -/
theorem find?_listing_eq_some_iff {name : α → κ} {as : List α} (h : (as.map name).Nodup) {key : κ} {a : α} :
    (listing name as).find? key = some a ↔ a ∈ as ∧ name a = key := by
  rw [← keys_listing] at h
  constructor
  · intro hfind
    obtain ⟨b, hb, heq⟩ := List.mem_map.1 (mem_entries_of_find? hfind)
    cases heq
    exact ⟨hb, rfl⟩
  · rintro ⟨ha, rfl⟩
    exact find?_eq_some_of_mem h (List.mem_map_of_mem (f := fun a ↦ (name a, a)) ha)

/-- Tables whose entries agree, one by one, find values that agree. -/
theorem find?_rel {R : κ → α → β → Prop} {t : Table κ α} {u : Table κ β}
    (h : List.Forall₂ (fun e e' ↦ e'.1 = e.1 ∧ R e.1 e.2 e'.2) t.entries u.entries) (key : κ) :
    Option.Rel (R key) (t.find? key) (u.find? key) := by
  obtain ⟨entries⟩ := t
  obtain ⟨entries'⟩ := u
  simp only [find?] at h ⊢
  induction h with
  | nil => exact .none
  | @cons e e' entries entries' hhead htail ih =>
    obtain ⟨k, a⟩ := e
    obtain ⟨k', b⟩ := e'
    obtain ⟨rfl, hab⟩ := hhead
    rw [List.lookup_cons, List.lookup_cons]
    by_cases hk : key = k'
    · subst hk
      simp only [beq_self_eq_true]
      exact .some hab
    · simp only [beq_eq_false_iff_ne.2 hk]
      exact ih

end Table

namespace Definitions

variable {d d' : Definitions}

/-! ### Runs of changes -/

section Changes

variable {α : Type} {step : Definitions → α → Except ValidationError Definitions}

theorem result_change_nil : (d.change step []).result = .ok d := rfl

/-- A run of changes is the first change, and the run of the others from what it gives. -/
theorem result_change_cons (a : α) (as : List α) :
    (d.change step (a :: as)).result = step d a >>= fun next ↦ (next.change step as).result := by
  cases h : step d a with
  | error e => simp only [change, h]; rfl
  | ok next => simp only [change, h]; rfl

/-- A run that comes to its end goes on with what is to come. -/
theorem change_append_of_end {as bs : List α} (h : (d.change step as).error = none) :
    d.change step (as ++ bs) = (d.change step as).definitions.change step bs := by
  induction as generalizing d with
  | nil => rfl
  | cons a as ih =>
    rw [List.cons_append]
    cases ha : step d a with
    | error e =>
      simp only [change, ha] at h
      cases h
    | ok next =>
      simp only [change, ha] at h ⊢
      exact ih h

/-- A run ends at the first change that fails, with the tables that those before it have reached. -/
theorem change_eq_of_first_failure {before after : List α} {a : α} {reached : Definitions}
    {e : ValidationError} (hbefore : d.change step before = ⟨reached, none⟩)
    (ha : step reached a = .error e) : d.change step (before ++ a :: after) = ⟨reached, some e⟩ := by
  rw [change_append_of_end (by rw [hbefore]), hbefore]
  simp only [change, ha]

theorem eq_of_result_eq_ok {p : Progress} (h : p.result = .ok d) : p = ⟨d, none⟩ := by
  obtain ⟨reached, _ | e⟩ := p
  · cases h
    rfl
  · cases h

/-- Types are added before directives, so the directives are not looked at if a type fails. -/
theorem result_add (types : List TypeDefinition) (directives : List DirectiveDefinition) :
    (d.add types directives).result =
      (d.change addType types).result >>= fun next ↦ (next.change addDirective directives).result := by
  unfold add
  split
  · next next heq => rw [heq]; rfl
  · next stopped hstopped =>
    cases hp : d.change addType types with
    | mk reached error =>
      cases error with
      | none => exact absurd hp (hstopped reached)
      | some e => rfl

/-- Values are pushed one after another, each under its name, exactly if no name is there twice. The two
tables of definitions are the two ways to look at them, given by `table` and `set`. -/
theorem result_change_push_eq_ok_iff {name : α → String} (table : Definitions → Table String α)
    (set : Definitions → Table String α → Definitions) (table_set : ∀ d t, table (set d t) = t)
    (set_set : ∀ d t u, set (set d t) u = set d u) (set_table : ∀ d, set d (table d) = d)
    (hstep : ∀ {d d' a}, step d a = .ok d' ↔
      name a ∉ (table d).keys ∧ d' = set d ((table d).push (name a) a))
    (hd : (table d).keys.Nodup) (as : List α) :
    (d.change step as).result = .ok d' ↔
      ((table d).keys ++ as.map name).Nodup ∧
        d' = set d ⟨(table d).entries ++ as.map fun a ↦ (name a, a)⟩ := by
  induction as generalizing d with
  | nil =>
    have hsame : set d ⟨(table d).entries⟩ = d := set_table d
    simp only [result_change_nil, List.map_nil, List.append_nil, hsame, hd, true_and, Except.ok.injEq]
    exact eq_comm
  | cons a as ih =>
    rw [result_change_cons, Except.bind_eq_ok_iff]
    have hkeys : ((table d).keys ++ (a :: as).map name).Nodup ↔
        name a ∉ (table d).keys ∧ (((table d).push (name a) a).keys ++ as.map name).Nodup := by
      rw [Table.keys_push, List.append_assoc, List.map_cons, List.singleton_append]
      refine ⟨fun h ↦ ⟨fun hmem ↦ ?_, h⟩, fun h ↦ h.2⟩
      exact List.disjoint_of_nodup_append h hmem List.mem_cons_self
    -- distinct names: the first is new to the table, and the others to the table with it
    rw [hkeys]
    constructor
    · rintro ⟨next, hnext, hrest⟩
      obtain ⟨hnew, rfl⟩ := hstep.1 hnext
      have hnodup : (table (set d ((table d).push (name a) a))).keys.Nodup := by
        rw [table_set, Table.keys_push, ← List.concat_eq_append]
        exact hd.concat hnew
      obtain ⟨hnames, rfl⟩ := (ih hnodup).1 hrest
      rw [table_set] at hnames
      refine ⟨⟨hnew, hnames⟩, ?_⟩
      rw [set_set, table_set, Table.push, List.append_assoc]
      rfl
    · rintro ⟨⟨hnew, hrest⟩, rfl⟩
      refine ⟨_, hstep.2 ⟨hnew, rfl⟩, (ih ?_).2 ⟨?_, ?_⟩⟩
      · rw [table_set]
        exact hrest.of_append_left
      · rwa [table_set]
      · rw [set_set, table_set, Table.push, List.append_assoc]
        rfl

end Changes

/-! ### Indexing -/

/-- A type is added just if its name is new, and then it comes last. -/
theorem addType_eq_ok_iff {type : TypeDefinition} :
    d.addType type = .ok d' ↔
      type.name ∉ d.types.keys ∧ d' = { d with types := d.types.push type.name type } := by
  rw [addType, type?, ← Table.find?_eq_none_iff]
  cases d.types.find? type.name <;> simp [eq_comm]

/-- A directive is added just if its name is new, and then it comes last. -/
theorem addDirective_eq_ok_iff {directive : DirectiveDefinition} :
    d.addDirective directive = .ok d' ↔
      directive.name ∉ d.directives.keys ∧
        d' = { d with directives := d.directives.push directive.name directive } := by
  rw [addDirective, directive?, ← Table.find?_eq_none_iff]
  cases d.directives.find? directive.name <;> simp [eq_comm]

/-- Types are indexed exactly if no two of them have one name, and then they are listed in order. -/
theorem result_change_addType_eq_ok_iff {types : List TypeDefinition} :
    (empty.change addType types).result = .ok d ↔
      (types.map TypeDefinition.name).Nodup ∧ d = ⟨.listing TypeDefinition.name types, .empty⟩ :=
  result_change_push_eq_ok_iff (d := empty) Definitions.types (fun d t ↦ { d with types := t })
    (fun _ _ ↦ rfl) (fun _ _ _ ↦ rfl) (fun _ ↦ rfl) addType_eq_ok_iff List.nodup_nil types

/-- So are directives, behind types that are indexed already. -/
theorem result_change_addDirective_eq_ok_iff {t : Table String TypeDefinition}
    {directives : List DirectiveDefinition} :
    ((⟨t, .empty⟩ : Definitions).change addDirective directives).result = .ok d ↔
      (directives.map DirectiveDefinition.name).Nodup ∧
        d = ⟨t, .listing DirectiveDefinition.name directives⟩ :=
  result_change_push_eq_ok_iff (d := ⟨t, .empty⟩) Definitions.directives
    (fun d t ↦ { d with directives := t }) (fun _ _ ↦ rfl) (fun _ _ _ ↦ rfl) (fun _ ↦ rfl)
    addDirective_eq_ok_iff List.nodup_nil directives

/-- Definitions are indexed exactly if no two types and no two directives have one name, and then they are
listed in order. -/
theorem build_eq_ok_iff {types : List TypeDefinition} {directives : List DirectiveDefinition} :
    build types directives = .ok d ↔
      (types.map TypeDefinition.name).Nodup ∧ (directives.map DirectiveDefinition.name).Nodup ∧
        d = ⟨.listing TypeDefinition.name types, .listing DirectiveDefinition.name directives⟩ := by
  rw [build, result_add, Except.bind_eq_ok_iff]
  constructor
  · rintro ⟨next, hnext, hrest⟩
    obtain ⟨hnodup, rfl⟩ := result_change_addType_eq_ok_iff.1 hnext
    exact ⟨hnodup, result_change_addDirective_eq_ok_iff.1 hrest⟩
  · rintro ⟨hnodup, hrest⟩
    exact ⟨_, result_change_addType_eq_ok_iff.2 ⟨hnodup, rfl⟩, result_change_addDirective_eq_ok_iff.2 hrest⟩

end Definitions

/-! ### Extending -/

/-- A type is a definition with extensions folded in: its items are those of the definition, followed by
those that the extensions add, in order; everything else is as defined. -/
structure TypeDefinition.Folds (type base : TypeDefinition) (added : List TypeExtension) : Prop where
  name : type.name = base.name
  kind : type.kind = base.kind
  description : type.description = base.description
  span : type.span = base.span
  directives : type.directives = base.directives ++ added.flatMap TypeExtension.directives
  interfaces : interfacesOf type.body = interfacesOf base.body ++ added.flatMap fun ext ↦ interfacesOf ext.body
  fields : fieldsOf type.body = fieldsOf base.body ++ added.flatMap fun ext ↦ fieldsOf ext.body
  inputFields :
    inputFieldsOf type.body = inputFieldsOf base.body ++ added.flatMap fun ext ↦ inputFieldsOf ext.body
  values : valuesOf type.body = valuesOf base.body ++ added.flatMap fun ext ↦ valuesOf ext.body
  members : membersOf type.body = membersOf base.body ++ added.flatMap fun ext ↦ membersOf ext.body

namespace TypeDefinition

variable {type base mid : TypeDefinition} {ext : TypeExtension} {added more : List TypeExtension}

/-- A type is itself with nothing folded in. -/
theorem Folds.refl (base : TypeDefinition) : base.Folds base [] := by
  constructor <;> simp

/-- Extensions folded into a type that has extensions folded in come behind those. -/
theorem Folds.trans (h : mid.Folds base added) (h' : type.Folds mid more) :
    type.Folds base (added ++ more) where
  name := h'.name.trans h.name
  kind := h'.kind.trans h.kind
  description := h'.description.trans h.description
  span := h'.span.trans h.span
  directives := by rw [h'.directives, h.directives, List.flatMap_append, List.append_assoc]
  interfaces := by rw [h'.interfaces, h.interfaces, List.flatMap_append, List.append_assoc]
  fields := by rw [h'.fields, h.fields, List.flatMap_append, List.append_assoc]
  inputFields := by rw [h'.inputFields, h.inputFields, List.flatMap_append, List.append_assoc]
  values := by rw [h'.values, h.values, List.flatMap_append, List.append_assoc]
  members := by rw [h'.members, h.members, List.flatMap_append, List.append_assoc]

/-- One extension that is taken is one that is folded in. -/
theorem folds_of_extend? (h : base.extend? ext = some type) : type.Folds base [ext] := by
  obtain ⟨body, hbody, rfl⟩ := Option.map_eq_some_iff.1 h
  obtain ⟨extName, extDirectives, extBody, extSpan⟩ := ext
  obtain ⟨description, baseName, baseDirectives, baseBody, baseSpan⟩ := base
  dsimp only at hbody ⊢
  -- the two bodies are of one kind, and each kind has its own collections
  cases baseBody <;> cases extBody <;>
    simp only [TypeBody.append?, Option.some.injEq, reduceCtorEq] at hbody <;> subst hbody <;>
    constructor <;>
    simp [TypeDefinition.kind, TypeBody.kind, interfacesOf, fieldsOf, inputFieldsOf, valuesOf, membersOf]

/-- A type takes extensions of its own kind. -/
theorem extend?_isSome_iff : (base.extend? ext).isSome ↔ base.kind = ext.kind := by
  rw [extend?, Option.isSome_map]
  exact TypeBody.append?_isSome _ _

/-- Extending leaves the kind of a type. -/
theorem kind_of_extend? (h : base.extend? ext = some type) : type.kind = base.kind :=
  (folds_of_extend? h).kind

end TypeDefinition

namespace Definitions

variable {d d' : Definitions} {ext : TypeExtension}

/-- An extension succeeds just if a type of its name takes it, and then that type is replaced where it stands.
-/
theorem extend_eq_ok_iff :
    d.extend ext = .ok d' ↔ ∃ base type, d.type? ext.name = some base ∧ base.extend? ext = some type ∧
      d' = { d with types := d.types.replace ext.name type } := by
  unfold extend
  cases hbase : d.type? ext.name with
  | none => simp
  | some base =>
    cases htype : base.extend? ext with
    | none => simp [htype]
    | some type => simp [htype, eq_comm]

/-- An extension folds itself into the type that it names, and leaves the others as they are. -/
theorem folds_of_extend (hd : d.types.keys.Nodup) (h : d.extend ext = .ok d') :
    d'.directives = d.directives ∧
      List.Forall₂ (fun e e' ↦ e'.1 = e.1 ∧ e'.2.Folds e.2 ([ext].filter fun x ↦ x.name = e.1))
        d.types.entries d'.types.entries := by
  obtain ⟨base, type, hbase, htype, rfl⟩ := extend_eq_ok_iff.1 h
  refine ⟨rfl, List.forall₂_map_right_iff.2 (List.forall₂_same.2 ?_)⟩
  rintro ⟨key, b⟩ hmem
  by_cases hkey : key = ext.name
  · subst hkey
    obtain rfl : b = base := Option.some.inj ((Table.find?_eq_some_of_mem hd hmem).symm.trans hbase)
    simpa using TypeDefinition.folds_of_extend? htype
  · simpa [hkey, Ne.symm hkey] using TypeDefinition.Folds.refl b

/-- Extending neither adds a name nor moves one. -/
theorem keys_of_extend (h : d.extend ext = .ok d') : d'.types.keys = d.types.keys := by
  obtain ⟨base, type, -, -, rfl⟩ := extend_eq_ok_iff.1 h
  exact Table.keys_replace _ _ _

/-- Extending leaves each type in its place, with the extensions of its name folded in. -/
theorem folds_of_extendAll {exts : List TypeExtension} (hd : d.types.keys.Nodup)
    (h : (d.extendAll exts).result = .ok d') :
    d'.directives = d.directives ∧
      List.Forall₂ (fun e e' ↦ e'.1 = e.1 ∧ e'.2.Folds e.2 (exts.filter fun x ↦ x.name = e.1))
        d.types.entries d'.types.entries := by
  induction exts generalizing d with
  | nil =>
    cases h
    exact ⟨rfl, List.forall₂_same.2 fun e _ ↦ ⟨rfl, .refl e.2⟩⟩
  | cons ext exts ih =>
    rw [extendAll, result_change_cons] at h
    obtain ⟨next, hnext, hrest⟩ := Except.bind_eq_ok_iff.1 h
    obtain ⟨hdirectives, hfirst⟩ := folds_of_extend hd hnext
    obtain ⟨hdirectives', hothers⟩ := ih (by rwa [keys_of_extend hnext]) hrest
    refine ⟨hdirectives'.trans hdirectives, ?_⟩
    refine forall₂_of_forall₂ (fun hhead hhead' ↦ ⟨hhead'.1.trans hhead.1, ?_⟩) hfirst hothers
    rw [← List.singleton_append, List.filter_append]
    exact hhead.2.trans (hhead.1 ▸ hhead'.2)

/-- Indexed and extended, types are in the order of their definitions, each with the extensions of its name
folded in, and directives are as defined. -/
theorem folds_of_build {types : List TypeDefinition} {directives : List DirectiveDefinition}
    {exts : List TypeExtension} (hbuild : build types directives = .ok d)
    (hextend : (d.extendAll exts).result = .ok d') :
    (types.map TypeDefinition.name).Nodup ∧
      List.Forall₂ (fun base entry ↦ entry.1 = base.name ∧
        entry.2.Folds base (exts.filter fun ext ↦ ext.name = base.name)) types d'.types.entries ∧
      (directives.map DirectiveDefinition.name).Nodup ∧
      d'.directives = .listing DirectiveDefinition.name directives := by
  obtain ⟨htypes, hdirectives, rfl⟩ := build_eq_ok_iff.1 hbuild
  obtain ⟨hsame, hfolds⟩ := folds_of_extendAll (by rwa [Table.keys_listing]) hextend
  exact ⟨htypes, List.forall₂_map_left_iff.1 hfolds, hdirectives, hsame⟩

/-- Kinds of types stay as they are when a type is extended. -/
theorem kind?_of_extend (h : d.extend ext = .ok d') (name : String) :
    (d'.type? name).map TypeDefinition.kind = (d.type? name).map TypeDefinition.kind := by
  obtain ⟨base, type, hbase, htype, rfl⟩ := extend_eq_ok_iff.1 h
  rw [type?, Table.find?_replace]
  split
  · next heq =>
    subst heq
    rw [← type?, hbase]
    exact congrArg some (TypeDefinition.kind_of_extend? htype)
  · rfl

/-- Types are extended exactly if every extension finds a type of its own kind. -/
theorem exists_extendAll_eq_ok_iff {exts : List TypeExtension} :
    (∃ d', (d.extendAll exts).result = .ok d') ↔
      ∀ ext ∈ exts, (d.type? ext.name).map TypeDefinition.kind = some ext.kind := by
  have hfirst (d : Definitions) (ext : TypeExtension) : (∃ next, d.extend ext = .ok next) ↔
      (d.type? ext.name).map TypeDefinition.kind = some ext.kind := by
    simp only [extend_eq_ok_iff, Option.map_eq_some_iff, ← TypeDefinition.extend?_isSome_iff,
      Option.isSome_iff_exists]
    constructor
    · rintro ⟨next, base, type, hbase, htype, -⟩
      exact ⟨base, hbase, type, htype⟩
    · rintro ⟨base, hbase, type, htype⟩
      exact ⟨_, base, type, hbase, htype, rfl⟩
  induction exts generalizing d with
  | nil => exact ⟨fun _ ext hext ↦ absurd hext List.not_mem_nil, fun _ ↦ ⟨d, rfl⟩⟩
  | cons ext exts ih =>
    simp only [extendAll, result_change_cons, Except.bind_eq_ok_iff, List.forall_mem_cons]
    constructor
    · rintro ⟨d', next, hnext, hrest⟩
      refine ⟨(hfirst d ext).1 ⟨next, hnext⟩, fun x hx ↦ ?_⟩
      rw [← kind?_of_extend hnext]
      exact ih.1 ⟨d', hrest⟩ x hx
    · rintro ⟨hext, hexts⟩
      obtain ⟨next, hnext⟩ := (hfirst d ext).2 hext
      obtain ⟨d', hrest⟩ := (ih (d := next)).2 fun x hx ↦ (kind?_of_extend hnext _).trans (hexts x hx)
      exact ⟨d', next, hnext, hrest⟩

end Definitions

/-! ### Root types -/

namespace RootTypes

/-- The root type of an operation is the one declared for it, where no operation is declared twice. -/
theorem get_ofDeclarations_eq_some_iff {declared : List RootDeclaration}
    (h : (declared.map RootDeclaration.operation).Nodup) {operation : Operation} {name : String} :
    (ofDeclarations declared).get operation = some name ↔
      ∃ declaration ∈ declared, declaration.operation = operation ∧ declaration.type = name := by
  induction declared using List.reverseRecOn with
  | nil => simp [ofDeclarations]
  | append_singleton declared last ih =>
    rw [List.map_append, List.map_singleton] at h
    have hlast : (ofDeclarations (declared ++ [last])).get operation =
        if last.operation = operation then some last.type else (ofDeclarations declared).get operation := by
      rw [ofDeclarations, List.foldl_append]
      exact get_set _ _ _ _
    rw [hlast]
    split
    · next heq =>
      -- no earlier declaration is for this operation
      have hnew : ∀ declaration ∈ declared, declaration.operation ≠ operation := by
        rintro declaration hmem rfl
        exact List.disjoint_of_nodup_append h (List.mem_map_of_mem hmem) (by simp [heq])
      constructor
      · intro hname
        exact ⟨last, by simp, heq, Option.some.inj hname⟩
      · rintro ⟨declaration, hmem, hop, rfl⟩
        rcases List.mem_append.1 hmem with hmem | hmem
        · exact absurd hop (hnew declaration hmem)
        · rw [List.mem_singleton.1 hmem]
    · next hne =>
      rw [ih (List.nodup_append.1 h).1]
      constructor
      · rintro ⟨declaration, hmem, hdeclared⟩
        exact ⟨declaration, List.mem_append_left _ hmem, hdeclared⟩
      · rintro ⟨declaration, hmem, hop, hname⟩
        rcases List.mem_append.1 hmem with hmem | hmem
        · exact ⟨declaration, hmem, hop, hname⟩
        · rw [List.mem_singleton.1 hmem] at hop
          exact absurd hop hne

/-- Root types are known by what they are for each operation. -/
theorem ext_get {roots roots' : RootTypes} (h : ∀ operation, roots.get operation = roots'.get operation) :
    roots = roots' := by
  obtain ⟨query, mutation, subscription⟩ := roots
  obtain ⟨query', mutation', subscription'⟩ := roots'
  obtain rfl : query = query' := h .query
  obtain rfl : mutation = mutation' := h .mutation
  obtain rfl : subscription = subscription' := h .subscription
  rfl

end RootTypes

namespace Definitions

variable {d : Definitions}

/-- An object type is a type, and of that kind. -/
theorem object?_eq_some_iff {name : String} {type : TypeDefinition} :
    d.object? name = some type ↔ d.type? name = some type ∧ type.kind = .object := by
  simp [object?, Option.filter_eq_some_iff]

/-- The root declarations of a document: those that its extensions add to, then those that they add. -/
def rootDeclarations (d : Definitions) (schemas : List SchemaDefinition)
    (extensions : List SchemaExtension) : List RootDeclaration :=
  d.baseDeclarations schemas ++ extensions.flatMap fun ext ↦ ext.roots.declarations ext.span

/-- What is declared in the order of the operations, once at most for each, repeats none of them. -/
theorem nodup_operations_filterMap {f : Operation → Option RootDeclaration}
    (hf : ∀ operation declaration, f operation = some declaration → declaration.operation = operation) :
    ((Operation.all.filterMap f).map RootDeclaration.operation).Nodup := by
  have hkeep (operations : List Operation) :
      ((operations.filterMap f).map RootDeclaration.operation).Sublist operations := by
    induction operations with
    | nil => exact .refl _
    | cons operation operations ih =>
      rw [List.filterMap_cons]
      cases h : f operation with
      | none => exact ih.cons _
      | some declaration =>
        rw [List.map_cons, hf operation declaration h]
        exact ih.cons_cons _
  exact (hkeep _).nodup (by decide)

/-- What the base declares it declares once for each operation, wherever it comes from. -/
theorem nodup_operations_baseDeclarations (schemas : List SchemaDefinition) :
    ((d.baseDeclarations schemas).map RootDeclaration.operation).Nodup := by
  cases schemas with
  | nil =>
    rw [baseDeclarations, defaultDeclarations]
    refine nodup_operations_filterMap fun operation declaration h ↦ ?_
    obtain ⟨type, -, rfl⟩ := Option.map_eq_some_iff.1 h
    rfl
  | cons schema _ =>
    rw [baseDeclarations, RootTypes.declarations]
    refine nodup_operations_filterMap fun operation declaration h ↦ ?_
    obtain ⟨type, -, rfl⟩ := Option.map_eq_some_iff.1 h
    rfl

/-- Further declarations succeed just if no operation is declared twice, and then they come behind the others.
-/
theorem declareAll_eq_ok_iff {declared more all : List RootDeclaration}
    (h : (declared.map RootDeclaration.operation).Nodup) :
    declareAll declared more = .ok all ↔
      ((declared ++ more).map RootDeclaration.operation).Nodup ∧ all = declared ++ more := by
  induction more generalizing declared with
  | nil => simp [declareAll, h, eq_comm]
  | cons declaration more ih =>
    have hsplit : declared ++ declaration :: more = declared ++ [declaration] ++ more := by simp
    unfold declareAll
    split
    · next hany =>
      obtain ⟨earlier, hmem, heq⟩ := List.any_eq_true.1 hany
      refine ⟨fun h ↦ (nomatch h), fun ⟨hnodup, _⟩ ↦ ?_⟩
      rw [List.map_append] at hnodup
      refine absurd ?_ (List.disjoint_of_nodup_append hnodup (List.mem_map_of_mem hmem))
      rw [of_decide_eq_true heq]
      simp
    · next hany =>
      have hnew : ∀ earlier ∈ declared, earlier.operation ≠ declaration.operation := by
        simpa using hany
      rw [ih ?_, hsplit]
      rw [List.map_append, List.nodup_append]
      refine ⟨h, List.nodup_singleton _, fun o ho p hp ↦ ?_⟩
      obtain ⟨earlier, hmem, rfl⟩ := List.mem_map.1 ho
      rw [List.mem_singleton.1 hp]
      exact hnew earlier hmem

/-- No declaration is bad just if each one names an object type. -/
theorem badDeclaration?_eq_none_iff {declared : List RootDeclaration} :
    d.badDeclaration? declared = none ↔
      ∀ declaration ∈ declared, ∃ type, d.type? declaration.type = some type ∧ type.kind = .object := by
  simp only [badDeclaration?, List.find?_eq_none, Option.isNone_iff_eq_none, ← object?_eq_some_iff,
    ← Option.isSome_iff_exists, Option.isSome_iff_ne_none, ne_eq]

/-- Root types are found exactly if there is one schema block at most, no operation is declared twice and
every declared name is that of an object type. -/
theorem resolveRoots_eq_ok_iff {schemas : List SchemaDefinition} {extensions : List SchemaExtension}
    {roots : RootTypes} :
    d.resolveRoots schemas extensions = .ok roots ↔
      schemas.length ≤ 1 ∧
      ((d.rootDeclarations schemas extensions).map RootDeclaration.operation).Nodup ∧
      (∀ declaration ∈ d.rootDeclarations schemas extensions,
        ∃ type, d.type? declaration.type = some type ∧ type.kind = .object) ∧
      roots = .ofDeclarations (d.rootDeclarations schemas extensions) := by
  unfold resolveRoots
  split
  · next first second others =>
    simp
  · next hfew =>
    have hlength : schemas.length ≤ 1 := by
      match schemas, hfew with
      | [], _ => simp
      | [_], _ => simp
      | first :: second :: others, hfew => exact absurd rfl (hfew first second others)
    -- the base declares nothing twice, so only what is added can
    have hdeclared {all : List RootDeclaration} :
        declareAll (d.baseDeclarations schemas)
            (extensions.flatMap fun ext ↦ ext.roots.declarations ext.span) = .ok all ↔
          ((d.rootDeclarations schemas extensions).map RootDeclaration.operation).Nodup ∧
            all = d.rootDeclarations schemas extensions :=
      declareAll_eq_ok_iff (nodup_operations_baseDeclarations schemas)
    simp only [Except.bind_eq_ok_iff, ← badDeclaration?_eq_none_iff, hlength, true_and]
    constructor
    · rintro ⟨declared, hall, h⟩
      obtain ⟨hnodup, rfl⟩ := hdeclared.1 hall
      refine ⟨hnodup, ?_⟩
      split at h
      · cases h
      · next hnone => exact ⟨hnone, (Except.ok.inj h).symm⟩
    · rintro ⟨hnodup, hgood, rfl⟩
      refine ⟨_, hdeclared.2 ⟨hnodup, rfl⟩, ?_⟩
      rw [hgood]

/-- The root types that are found are object types. -/
theorem exists_object_of_resolveRoots {schemas : List SchemaDefinition} {extensions : List SchemaExtension}
    {roots : RootTypes} (h : d.resolveRoots schemas extensions = .ok roots) {operation : Operation} {name : String}
    (hname : roots.get operation = some name) : ∃ type, d.type? name = some type ∧ type.kind = .object := by
  obtain ⟨-, hoperations, hobjects, rfl⟩ := resolveRoots_eq_ok_iff.1 h
  obtain ⟨declaration, hmem, -, rfl⟩ := (RootTypes.get_ofDeclarations_eq_some_iff hoperations).1 hname
  exact hobjects declaration hmem

end Definitions

end TypeSystem
