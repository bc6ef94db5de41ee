/-!
# Tables

A table holds values under keys, in the order in which the keys first came in. A value can be pushed under a
new key, which comes last; it can replace the one under a key, which keeps its place; or it can be put there
either way. `find?` reads a table, and there is a law of it for each of the three.
-/

namespace TypeSystem

/-- Values under keys, in order. -/
structure Table (κ α : Type) where
  /-- The entries, oldest first. -/
  entries : List (κ × α)
deriving DecidableEq, Repr

namespace Table

variable {κ α : Type}

/-- The table without entries. -/
def empty : Table κ α := ⟨[]⟩

/-- The keys, in order. -/
def keys (t : Table κ α) : List κ := t.entries.map Prod.fst

/-- The values, in the order of their keys. -/
def values (t : Table κ α) : List α := t.entries.map Prod.snd

/-- How many entries there are. -/
def size (t : Table κ α) : Nat := t.entries.length

/-- The table with one more entry at its end. -/
def push (t : Table κ α) (key : κ) (a : α) : Table κ α := ⟨t.entries ++ [(key, a)]⟩

@[simp] theorem keys_empty : (empty : Table κ α).keys = [] := rfl

@[simp] theorem keys_push (t : Table κ α) (key : κ) (a : α) :
    (t.push key a).keys = t.keys ++ [key] := by
  simp [keys, push]

theorem mem_keys_of_mem {t : Table κ α} {key : κ} {a : α} (h : (key, a) ∈ t.entries) : key ∈ t.keys :=
  List.mem_map_of_mem (f := Prod.fst) h

variable [DecidableEq κ]

/-- The value under a key. -/
def find? (t : Table κ α) (key : κ) : Option α := t.entries.lookup key

/-- The table with another value under a key that it has. -/
def replace (t : Table κ α) (key : κ) (a : α) : Table κ α :=
  ⟨t.entries.map fun (k, b) ↦ if k = key then (k, a) else (k, b)⟩

/-- The table with a value under a key: in the key's place if it has one, otherwise at the end. -/
def put (t : Table κ α) (key : κ) (a : α) : Table κ α :=
  if key ∈ t.keys then t.replace key a else t.push key a

/-- The table that a list of entries makes, later values replacing earlier ones in their places. -/
def ofEntries (entries : List (κ × α)) : Table κ α :=
  entries.foldl (fun t (key, a) ↦ t.put key a) empty

/-! ### Keys -/

@[simp] theorem keys_replace (t : Table κ α) (key : κ) (a : α) :
    (t.replace key a).keys = t.keys := by
  simp only [keys, replace, List.map_map]
  refine List.map_congr_left fun e _ ↦ ?_
  simp only [Function.comp]
  split <;> rfl

/-- Putting a value under a key adds the key at the end, unless it is there. -/
theorem keys_put (t : Table κ α) (key : κ) (a : α) :
    (t.put key a).keys = if key ∈ t.keys then t.keys else t.keys ++ [key] := by
  unfold put
  split <;> simp

/-- A key is in the table exactly if there is a value under it. -/
theorem find?_isSome_iff {t : Table κ α} {key : κ} : (t.find? key).isSome ↔ key ∈ t.keys := by
  obtain ⟨entries⟩ := t
  simp only [find?, keys]
  induction entries with
  | nil => simp
  | cons e entries ih =>
    obtain ⟨k, a⟩ := e
    rw [List.lookup_cons, List.map_cons, List.mem_cons]
    by_cases h : key = k
    · simp [h]
    · simp only [beq_eq_false_iff_ne.2 h, h, false_or]
      exact ih

theorem find?_eq_none_iff {t : Table κ α} {key : κ} : t.find? key = none ↔ key ∉ t.keys := by
  rw [← find?_isSome_iff]
  cases t.find? key <;> simp

/-! ### Values -/

theorem mem_entries_of_find? {t : Table κ α} {key : κ} {a : α} (h : t.find? key = some a) :
    (key, a) ∈ t.entries := by
  obtain ⟨entries⟩ := t
  simp only [find?] at h
  induction entries with
  | nil => cases h
  | cons e entries ih =>
    obtain ⟨k, b⟩ := e
    rw [List.lookup_cons] at h
    by_cases hk : key = k
    · subst hk
      simp only [beq_self_eq_true, Option.some.injEq] at h
      simp [h]
    · simp only [beq_eq_false_iff_ne.2 hk] at h
      exact List.mem_cons_of_mem _ (ih h)

/-- An entry is found under its key where keys are distinct. -/
theorem find?_eq_some_of_mem {t : Table κ α} (hnodup : t.keys.Nodup) {key : κ} {a : α}
    (h : (key, a) ∈ t.entries) : t.find? key = some a := by
  obtain ⟨entries⟩ := t
  simp only [find?, keys] at *
  induction entries with
  | nil => cases h
  | cons e entries ih =>
    obtain ⟨k, b⟩ := e
    rw [List.map_cons, List.nodup_cons] at hnodup
    rw [List.lookup_cons]
    rcases List.mem_cons.1 h with heq | htail
    · cases heq
      simp
    · have hne : key ≠ k := by
        rintro rfl
        exact hnodup.1 (mem_keys_of_mem (t := ⟨entries⟩) htail)
      simp only [beq_eq_false_iff_ne.2 hne]
      exact ih hnodup.2 htail

/-- What is found does not depend on the order of the entries where keys are distinct. -/
theorem find?_perm {t t' : Table κ α} (hnodup : t.keys.Nodup) (h : t'.entries.Perm t.entries) (key : κ) :
    t'.find? key = t.find? key := by
  have hnodup' : t'.keys.Nodup := (h.map Prod.fst).nodup_iff.2 hnodup
  refine Option.ext fun a ↦ ⟨fun ha ↦ ?_, fun ha ↦ ?_⟩
  · exact find?_eq_some_of_mem hnodup (h.mem_iff.1 (mem_entries_of_find? ha))
  · exact find?_eq_some_of_mem hnodup' (h.mem_iff.2 (mem_entries_of_find? ha))

@[simp] theorem find?_empty (key : κ) : (empty : Table κ α).find? key = none := rfl

/-- A new key finds its value; any other key finds what it found before. -/
theorem find?_push {t : Table κ α} {key : κ} (h : key ∉ t.keys) (a : α) (other : κ) :
    (t.push key a).find? other = if other = key then some a else t.find? other := by
  simp only [find?, push, List.lookup_append]
  by_cases ho : other = key
  · subst ho
    have hnone : t.entries.lookup other = none := find?_eq_none_iff.2 h
    simp [hnone]
  · cases t.entries.lookup other <;> simp [List.lookup_cons, ho, beq_eq_false_iff_ne.2 ho]

/-- A key whose value is replaced finds the new value; any other key finds what it found before. -/
theorem find?_replace (t : Table κ α) (key : κ) (a : α) (other : κ) :
    (t.replace key a).find? other =
      if other = key then (t.find? key).map (fun _ ↦ a) else t.find? other := by
  obtain ⟨entries⟩ := t
  simp only [find?, replace]
  induction entries with
  | nil => simp
  | cons e entries ih =>
    obtain ⟨k, b⟩ := e
    rw [List.map_cons]
    by_cases hk : k = key
    · subst hk
      by_cases ho : other = k
      · simp [ho]
      · simp only [if_true, List.lookup_cons, beq_eq_false_iff_ne.2 ho, ih, ho, if_false]
    · by_cases ho : other = k
      · subst ho
        simp [hk]
      · simp only [hk, if_false, List.lookup_cons, beq_eq_false_iff_ne.2 ho, ih,
          beq_eq_false_iff_ne.2 (Ne.symm hk)]

/-- A value is found where it was put; any other key finds what it found before. -/
theorem find?_put (t : Table κ α) (key : κ) (a : α) (other : κ) :
    (t.put key a).find? other = if other = key then some a else t.find? other := by
  unfold put
  split
  · next hmem =>
    obtain ⟨b, hb⟩ := Option.isSome_iff_exists.1 (find?_isSome_iff.2 hmem)
    rw [find?_replace, hb]
    rfl
  · next hmem => exact find?_push hmem a other

end Table

end TypeSystem
