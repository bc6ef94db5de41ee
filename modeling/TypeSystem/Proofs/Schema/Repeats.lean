import TypeSystem.Proofs.Schema.Folding

/-!
# Names defined twice

A list either has distinct names or there is a first item that has the name of an earlier one
(`nodup_or_exists_firstRepeat`), and then the earlier one is the only one of that name before it. Indexing
finds out which: it fails exactly at the first repeat, types before directives, and the error tells of the
pair (`build_indexes_or_reports`). The reason is that as long as nothing repeats, the table is the listing of
the items so far, so that a name finds something in it exactly if it is taken.

As indexing is the first step of a build, a repeat is reported whatever else is wrong with a document.
-/

namespace TypeSystem

/-! ### The first repeat in a list -/

section Lists

variable {α κ : Type} {key : α → κ} {items : List α} {first again : α}

/-- Of the items of a list, `again` is the first that has the key of an earlier one, and `first` is that
earlier one. -/
def FirstRepeat (key : α → κ) (items : List α) (first again : α) : Prop :=
  ∃ before after, items = before ++ again :: after ∧ (before.map key).Nodup ∧ first ∈ before ∧
    key first = key again

/-- A repeat has the key of what it repeats. -/
theorem FirstRepeat.key_eq (h : FirstRepeat key items first again) : key first = key again := by
  obtain ⟨-, -, -, -, -, hkey⟩ := h
  exact hkey

/-- Where there is a first repeat, the keys are not distinct. -/
theorem FirstRepeat.not_nodup (h : FirstRepeat key items first again) : ¬ (items.map key).Nodup := by
  obtain ⟨before, after, rfl, -, hmem, hkey⟩ := h
  intro hnodup
  rw [List.map_append] at hnodup
  refine List.disjoint_of_nodup_append hnodup (List.mem_map_of_mem hmem) ?_
  rw [hkey, List.map_cons]
  exact List.mem_cons_self

/-- A front with distinct keys ends before the first repeat. -/
theorem FirstRepeat.of_append (h : FirstRepeat key items first again) {front back : List α}
    (hitems : items = front ++ back) (hnodup : (front.map key).Nodup) :
    ∃ before after, back = before ++ again :: after ∧ ((front ++ before).map key).Nodup ∧
      first ∈ front ++ before := by
  obtain ⟨before, after, rfl, hbefore, hmem, hkey⟩ := h
  rcases List.append_eq_append_iff.1 hitems with ⟨middle, rfl, hback⟩ | ⟨middle, rfl, hback⟩
  · cases middle with
    | nil =>
      rw [List.append_nil] at hnodup ⊢
      exact ⟨[], after, hback.symm, by rwa [List.append_nil], by rwa [List.append_nil]⟩
    | cons item middle =>
      -- then the repeat would be in the front
      obtain ⟨rfl, -⟩ := List.cons.inj hback
      have hfirst : FirstRepeat key (before ++ again :: middle) first again :=
        ⟨before, middle, rfl, hbefore, hmem, hkey⟩
      exact absurd hnodup hfirst.not_nodup
  · exact ⟨middle, after, hback, hbefore, hmem⟩

theorem nodup_or_exists_firstRepeat (key : α → κ) (items : List α) :
    (items.map key).Nodup ∨ ∃ first again, FirstRepeat key items first again := by
  induction items using List.reverseRecOn with
  | nil => exact .inl List.nodup_nil
  | append_singleton items last ih =>
    rcases ih with hnodup | ⟨first, again, before, after, rfl, hrepeat⟩
    · by_cases hlast : key last ∈ items.map key
      · obtain ⟨first, hmem, hkey⟩ := List.mem_map.1 hlast
        exact .inr ⟨first, last, items, [], rfl, hnodup, hmem, hkey⟩
      · rw [List.map_append, List.map_singleton, ← List.concat_eq_append]
        exact .inl (hnodup.concat hlast)
    · exact .inr ⟨first, again, before, after ++ [last], by simp, hrepeat⟩

end Lists

namespace Table

variable {κ α : Type} {name : α → κ} {as : List α} {t : Table κ α}

/-- A table lists the values of a list, in order, each under its own name, by which it is found. -/
structure Lists [DecidableEq κ] (name : α → κ) (t : Table κ α) (as : List α) : Prop where
  keys : t.keys = as.map name
  values : t.values = as
  find? : ∀ a ∈ as, t.find? (name a) = some a

/-- A table made by listing values with distinct names lists them. -/
theorem lists_listing [DecidableEq κ] (h : (as.map name).Nodup) : (listing name as).Lists name as where
  keys := keys_listing name as
  values := by
    rw [Table.values, listing, List.map_map]
    exact List.map_id as
  find? a ha := (find?_listing_eq_some_iff h).2 ⟨ha, rfl⟩

/-- There is one such table only. -/
theorem Lists.eq_listing [DecidableEq κ] (h : t.Lists name as) : t = listing name as := by
  have hentries : t.entries = (as.map name).zip as := List.zip_of_prod h.keys h.values
  have hlisting : (as.map fun a ↦ (name a, a)) = (as.map name).zip as :=
    List.zip_of_prod (keys_listing name as) (by rw [List.map_map]; exact List.map_id as)
  obtain ⟨entries⟩ := t
  rw [listing, hlisting, ← hentries]

end Table

/-! ### Indexing -/

/-- What comes of indexing lists of types and directives: the error for the first type that has the name of
an earlier one; if there is none, that for the first directive that has the name of an earlier one; and if
there is none of these either, the tables of both lists. A type and a directive may have one name. -/
inductive Indexed (types : List TypeDefinition) (directives : List DirectiveDefinition) :
    Except ValidationError Definitions → Prop where
  | repeatedType {first again : TypeDefinition} (h : FirstRepeat TypeDefinition.name types first again) :
      Indexed types directives (.error (.duplicateType again.name first.span again.span))
  | repeatedDirective {first again : DirectiveDefinition}
      (types_nodup : (types.map TypeDefinition.name).Nodup)
      (h : FirstRepeat DirectiveDefinition.name directives first again) :
      Indexed types directives (.error (.duplicateDirective again.name first.span again.span))
  | listed {d : Definitions} (types_nodup : (types.map TypeDefinition.name).Nodup)
      (directives_nodup : (directives.map DirectiveDefinition.name).Nodup)
      (types_listed : d.types.Lists TypeDefinition.name types)
      (directives_listed : d.directives.Lists DirectiveDefinition.name directives) :
      Indexed types directives (.ok d)

namespace Definitions

variable {types : List TypeDefinition} {directives : List DirectiveDefinition}
  {result : Except ValidationError Definitions}

/-- Types with distinct names are all added, in order. -/
theorem change_addType_of_nodup (h : (types.map TypeDefinition.name).Nodup) :
    empty.change addType types = ⟨⟨.listing TypeDefinition.name types, .empty⟩, none⟩ :=
  eq_of_result_eq_ok (result_change_addType_eq_ok_iff.2 ⟨h, rfl⟩)

/-- Directives with distinct names are all added, in order. -/
theorem change_addDirective_of_nodup {t : Table String TypeDefinition}
    (h : (directives.map DirectiveDefinition.name).Nodup) :
    (⟨t, .empty⟩ : Definitions).change addDirective directives =
      ⟨⟨t, .listing DirectiveDefinition.name directives⟩, none⟩ :=
  eq_of_result_eq_ok (result_change_addDirective_eq_ok_iff.2 ⟨h, rfl⟩)

/-- A repeated type is reported at its second definition, with the first one beside it. Types come first, so
nothing is asked of the directives. -/
theorem build_of_repeatedType {first again : TypeDefinition}
    (h : FirstRepeat TypeDefinition.name types first again) :
    build types directives = .error (.duplicateType again.name first.span again.span) := by
  obtain ⟨before, after, rfl, hnodup, hmem, hname⟩ := h
  have hfound := (Table.find?_listing_eq_some_iff hnodup).2 ⟨hmem, hname⟩
  have htaken : addType ⟨.listing TypeDefinition.name before, .empty⟩ again =
      .error (.duplicateType again.name first.span again.span) := by
    simp only [addType, type?, hfound]
  rw [build, add, change_eq_of_first_failure (change_addType_of_nodup hnodup) htaken]
  rfl

/-- A repeated directive is reported likewise, if the names of types are distinct. -/
theorem build_of_repeatedDirective {first again : DirectiveDefinition}
    (htypes : (types.map TypeDefinition.name).Nodup)
    (h : FirstRepeat DirectiveDefinition.name directives first again) :
    build types directives = .error (.duplicateDirective again.name first.span again.span) := by
  obtain ⟨before, after, rfl, hnodup, hmem, hname⟩ := h
  have hfound := (Table.find?_listing_eq_some_iff hnodup).2 ⟨hmem, hname⟩
  have htaken : addDirective ⟨.listing TypeDefinition.name types, .listing DirectiveDefinition.name before⟩
      again = .error (.duplicateDirective again.name first.span again.span) := by
    simp only [addDirective, directive?, hfound]
  rw [build, result_add, change_addType_of_nodup htypes]
  show Progress.result (change addDirective _ _) = _
  rw [change_eq_of_first_failure (change_addDirective_of_nodup hnodup) htaken]
  rfl

/-- Building gives what the rule says. -/
theorem build_of_indexed (h : Indexed types directives result) : build types directives = result := by
  cases h with
  | repeatedType h => exact build_of_repeatedType h
  | repeatedDirective types_nodup h => exact build_of_repeatedDirective types_nodup h
  | @listed d types_nodup directives_nodup types_listed directives_listed =>
    refine build_eq_ok_iff.2 ⟨types_nodup, directives_nodup, ?_⟩
    rw [← types_listed.eq_listing, ← directives_listed.eq_listing]

/-- The rule always says something: either names are distinct, or there is a first repeat. -/
theorem exists_indexed (types : List TypeDefinition) (directives : List DirectiveDefinition) :
    ∃ result, Indexed types directives result := by
  rcases nodup_or_exists_firstRepeat TypeDefinition.name types with htypes | ⟨first, again, h⟩
  · rcases nodup_or_exists_firstRepeat DirectiveDefinition.name directives with hnodup | ⟨first, again, h⟩
    · exact ⟨_, .listed (d := ⟨.listing TypeDefinition.name types, .listing DirectiveDefinition.name directives⟩)
        htypes hnodup (Table.lists_listing htypes) (Table.lists_listing hnodup)⟩
    · exact ⟨_, .repeatedDirective htypes h⟩
  · exact ⟨_, .repeatedType h⟩

/-- Building gives something just if the rule says so. One direction is checked case by case; the other
follows because the rule is total and building gives one result. -/
theorem build_eq_iff : build types directives = result ↔ Indexed types directives result := by
  refine ⟨fun h ↦ ?_, build_of_indexed⟩
  obtain ⟨result', h'⟩ := exists_indexed types directives
  rwa [← h, build_of_indexed h']

/-- A document whose definitions cannot be indexed is refused for that, whatever else is wrong with it. -/
theorem ofDocument_eq_error_of_build {document : Document} {e : ValidationError}
    (h : build (Builtin.document.types ++ document.types)
      (Builtin.document.directives ++ document.directives) = .error e) :
    Schema.ofDocument document = .error e := by
  unfold Schema.ofDocument
  show (build (Builtin.document.types ++ document.types)
    (Builtin.document.directives ++ document.directives) >>= _) = _
  rw [h]
  rfl

/-- **The first name defined twice is reported, before all else.** Indexing types and directives succeeds
exactly if names are distinct in each of the two lists, and otherwise reports the first pair of types with
one name or, if there is none, the first pair of directives. So does a build from the definitions of a
document behind the built-in ones. -/
theorem build_indexes_or_reports :
    (∀ (types : List TypeDefinition) (directives : List DirectiveDefinition)
      (result : Except ValidationError Definitions),
      build types directives = result ↔ Indexed types directives result) ∧
    ∀ document : Document,
      ((Builtin.document.types ++ document.types).map TypeDefinition.name).Nodup ∧
          ((Builtin.document.directives ++ document.directives).map DirectiveDefinition.name).Nodup ∨
        ∃ e, Indexed (Builtin.document.types ++ document.types)
            (Builtin.document.directives ++ document.directives) (.error e) ∧
          Schema.ofDocument document = .error e := by
  refine ⟨fun types directives result ↦ build_eq_iff, fun document ↦ ?_⟩
  obtain ⟨result, h⟩ := exists_indexed (Builtin.document.types ++ document.types)
    (Builtin.document.directives ++ document.directives)
  have hbuild := build_of_indexed h
  cases h with
  | listed types_nodup directives_nodup => exact .inl ⟨types_nodup, directives_nodup⟩
  | repeatedType hfirst =>
    exact .inr ⟨_, .repeatedType hfirst, ofDocument_eq_error_of_build hbuild⟩
  | repeatedDirective types_nodup hfirst =>
    exact .inr ⟨_, .repeatedDirective types_nodup hfirst, ofDocument_eq_error_of_build hbuild⟩

end Definitions

end TypeSystem
