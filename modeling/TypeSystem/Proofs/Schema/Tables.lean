import Mathlib.Data.List.Nodup
import TypeSystem.Schema.Definitions

/-!
# Well-formed tables of definitions

A table is *indexed by* a name when its keys are distinct and each is the name of its value. The
tables of types and directives are indexed by the names of their definitions (`WellFormed`): empty
tables are, and every change keeps it, whether a run of changes ends early or not.

What the rest of the theory needs from it is that a definition in a table is the one that its own name
finds (`IndexedBy.find?_name`).
-/

namespace TypeSystem

namespace Table

variable {κ α : Type}

/-- The keys are distinct, and each is the name of the value under it. -/
structure IndexedBy (name : α → κ) (t : Table κ α) : Prop where
  nodup : t.keys.Nodup
  named : ∀ {key a}, (key, a) ∈ t.entries → name a = key

/-- The values of a table are those of its entries. -/
theorem mem_values_iff {t : Table κ α} {a : α} : a ∈ t.values ↔ ∃ key, (key, a) ∈ t.entries := by
  simp only [values, List.mem_map, Prod.exists]
  exact ⟨fun ⟨key, b, h, hb⟩ ↦ ⟨key, hb ▸ h⟩, fun ⟨key, h⟩ ↦ ⟨key, a, h, rfl⟩⟩

theorem IndexedBy.empty {name : α → κ} : (Table.empty : Table κ α).IndexedBy name :=
  ⟨List.nodup_nil, fun h ↦ absurd h List.not_mem_nil⟩

variable [DecidableEq κ] {name : α → κ} {t : Table κ α}

namespace IndexedBy

/-- A value of the table is found by its own name. -/
theorem find?_name (h : t.IndexedBy name) {a : α} (ha : a ∈ t.values) : t.find? (name a) = some a := by
  obtain ⟨key, hkey⟩ := mem_values_iff.1 ha
  rw [h.named hkey]
  exact find?_eq_some_of_mem h.nodup hkey

/-- Whatever a name finds has that name. -/
theorem name_of_find? (h : t.IndexedBy name) {key : κ} {a : α} (ha : t.find? key = some a) :
    name a = key :=
  h.named (mem_entries_of_find? ha)

/-- A value pushed under its own new name keeps the table indexed. -/
theorem push (h : t.IndexedBy name) {a : α} (ha : t.find? (name a) = none) :
    (t.push (name a) a).IndexedBy name := by
  refine ⟨?_, fun hmem ↦ ?_⟩
  · rw [keys_push]
    refine List.Nodup.append h.nodup (List.nodup_singleton _) ?_
    intro key hkey hnew
    rw [List.mem_singleton] at hnew
    exact find?_eq_none_iff.1 ha (hnew ▸ hkey)
  · rcases List.mem_append.1 hmem with hold | hnew
    · exact h.named hold
    · cases List.mem_singleton.1 hnew
      rfl

/-- A value that keeps the name of the one it replaces keeps the table indexed. -/
theorem replace (h : t.IndexedBy name) (a : α) : (t.replace (name a) a).IndexedBy name := by
  refine ⟨by rw [keys_replace]; exact h.nodup, fun hmem ↦ ?_⟩
  obtain ⟨⟨k, b⟩, hb, heq⟩ := List.mem_map.1 hmem
  dsimp only at heq
  split at heq
  · next hk => cases heq; exact hk.symm
  · cases heq; exact h.named hb

end IndexedBy

end Table

/-- Extending leaves the name of a type. -/
theorem TypeDefinition.name_of_extend? {base type : TypeDefinition} {ext : TypeExtension}
    (h : base.extend? ext = some type) : type.name = base.name := by
  obtain ⟨body, -, rfl⟩ := Option.map_eq_some_iff.1 h
  rfl

namespace Definitions

/-- Both tables are indexed by the names of their definitions. -/
structure WellFormed (d : Definitions) : Prop where
  types : d.types.IndexedBy TypeDefinition.name
  directives : d.directives.IndexedBy DirectiveDefinition.name

namespace WellFormed

variable {d d' : Definitions}

theorem empty : Definitions.empty.WellFormed :=
  ⟨.empty, .empty⟩

/-- Adding a type puts it under its own name. -/
theorem addType (h : d.WellFormed) {type : TypeDefinition} (hd : d.addType type = .ok d') :
    d'.WellFormed := by
  unfold Definitions.addType at hd
  split at hd
  · cases hd
  · next hnone => cases hd; exact ⟨h.types.push hnone, h.directives⟩

/-- Adding a directive puts it under its own name. -/
theorem addDirective (h : d.WellFormed) {directive : DirectiveDefinition}
    (hd : d.addDirective directive = .ok d') : d'.WellFormed := by
  unfold Definitions.addDirective at hd
  split at hd
  · cases hd
  · next hnone => cases hd; exact ⟨h.types, h.directives.push hnone⟩

/-- Extending leaves names alone, so what is replaced is replaced under its name. -/
theorem extend (h : d.WellFormed) {ext : TypeExtension} (hd : d.extend ext = .ok d') :
    d'.WellFormed := by
  unfold Definitions.extend at hd
  split at hd
  · cases hd
  · next base hbase =>
    split at hd
    · cases hd
    · next type htype =>
      cases hd
      have hname : type.name = ext.name :=
        (TypeDefinition.name_of_extend? htype).trans (h.types.name_of_find? hbase)
      exact ⟨hname ▸ h.types.replace type, h.directives⟩

/-- A run of changes keeps what each of them keeps, however far it comes. -/
theorem change {α : Type} {step : Definitions → α → Except ValidationError Definitions}
    (hstep : ∀ (d d' : Definitions) (a : α), d.WellFormed → step d a = .ok d' → d'.WellFormed)
    (h : d.WellFormed) (as : List α) : (d.change step as).definitions.WellFormed := by
  induction as generalizing d with
  | nil => exact h
  | cons a as ih =>
    unfold Definitions.change
    split
    · next d' hok => exact ih (hstep d d' a h hok)
    · exact h

/-- Adding any number of types and directives keeps definitions well-formed, also if it fails on the way. -/
theorem add (h : d.WellFormed) (types : List TypeDefinition) (directives : List DirectiveDefinition) :
    (d.add types directives).definitions.WellFormed := by
  have htypes : (d.change Definitions.addType types).definitions.WellFormed :=
    change (fun _ _ _ hd ↦ hd.addType) h types
  unfold Definitions.add
  split
  · next heq =>
    rw [heq] at htypes
    exact change (fun _ _ _ hd ↦ hd.addDirective) htypes directives
  · exact htypes

/-- So does extending. -/
theorem extendAll (h : d.WellFormed) (extensions : List TypeExtension) :
    (d.extendAll extensions).definitions.WellFormed :=
  change (fun _ _ _ hd ↦ hd.extend) h extensions

/-- A run that nothing ended early ends in the tables it reached. -/
theorem of_result {p : Progress} (hp : p.definitions.WellFormed) (h : p.result = .ok d) :
    d.WellFormed := by
  unfold Progress.result at h
  split at h
  · cases h; exact hp
  · cases h

/-- The tables of two lists of definitions. -/
theorem build {types : List TypeDefinition} {directives : List DirectiveDefinition}
    (h : Definitions.build types directives = .ok d) : d.WellFormed :=
  of_result (empty.add types directives) h

end WellFormed

end Definitions

end TypeSystem
