import Mathlib.Data.List.Basic
import TypeSystem.Files.Path

/-!
# Names and extensions

A path into a directory has the names of the directory's path and one more, except that a slash at its end
leaves no empty name between (`Path.names_child`). The extension of a file is what stands behind the last dot
of its name, unless nothing of the name stands before (`Path.HasExtension`).
-/

namespace TypeSystem.Path

open Text

variable {path directory name ext : String}

/-! ### Names -/

/-- No name of a path has a slash in it. -/
theorem slash_notMem_of_mem_names (h : name ∈ names path) : '/' ∉ name.toList := by
  obtain ⟨part, hpart, rfl⟩ := List.mem_map.1 h
  rw [String.toList_ofList]
  exact notMem_of_mem_split hpart

/-- A slash ends one run of names and begins the next. -/
theorem names_append_slash (before after : List Char) :
    (split '/' (before ++ '/' :: after)).map String.ofList =
      (split '/' before).map String.ofList ++ (split '/' after).map String.ofList := by
  rw [split_append_cons, List.map_append]

/-- The path of something in a directory goes on with its name where the directory's path ends, or ends but
for a slash. -/
theorem names_child (directory : String) (hname : '/' ∉ name.toList) :
    ∃ front, front ≠ [] ∧ names (child directory name) = front ++ [name] ∧
      (names directory = front ∨ names directory = front ++ [""]) := by
  have hne (cs : List Char) : (split '/' cs).map String.ofList ≠ [] := by
    simpa using split_ne_nil '/' cs
  have hlast : (split '/' name.toList).map String.ofList = [name] := by
    rw [split_of_notMem hname, List.map_singleton, String.ofList_toList]
  unfold child
  split
  · next hslash =>
    obtain ⟨before, hbefore⟩ := List.getLast?_eq_some_iff.1 hslash
    refine ⟨(split '/' before).map String.ofList, hne before, ?_, .inr ?_⟩
    · rw [names, String.toList_append, hbefore, List.append_assoc, List.singleton_append, names_append_slash, hlast]
    · rw [names, hbefore, names_append_slash]
      rfl
  · refine ⟨names directory, hne _, ?_, .inl rfl⟩
    have hchild : (directory ++ "/" ++ name).toList = directory.toList ++ '/' :: name.toList := by simp
    rw [names, hchild, names_append_slash, hlast]
    rfl

/-! ### Extensions -/

/-- The last name of the path, behind its last slash if it has one, ends in a dot and the extension, and
something stands before the dot. -/
def HasExtension (path ext : String) : Prop :=
  ∃ directory stem : List Char, path.toList = directory ++ stem ++ '.' :: ext.toList ∧
    (directory = [] ∨ directory.getLast? = some '/') ∧ stem ≠ [] ∧
    '/' ∉ stem ∧ '/' ∉ ext.toList ∧ '.' ∉ ext.toList

/-- The last part of a text is what stands behind the last separator. -/
theorem getLast?_split_eq_some_iff {separator : Char} {cs last : List Char} :
    (split separator cs).getLast? = some last ↔
      ∃ front, cs = front ++ last ∧ (front = [] ∨ front.getLast? = some separator) ∧ separator ∉ last := by
  constructor
  · intro h
    have hlast := notMem_of_mem_split (List.mem_of_getLast? h)
    obtain ⟨parts, hparts⟩ := List.getLast?_eq_some_iff.1 h
    have hjoined := joined_split separator cs
    rw [hparts] at hjoined
    by_cases hne : parts = []
    · rw [hne] at hjoined
      exact ⟨[], hjoined.symm, .inl rfl, hlast⟩
    · rw [joined_concat separator hne, List.append_cons] at hjoined
      exact ⟨_, hjoined.symm, .inr List.getLast?_concat, hlast⟩
  · rintro ⟨front, rfl, rfl | hfront, hlast⟩
    · rw [List.nil_append, split_of_notMem hlast]
      rfl
    · obtain ⟨before, rfl⟩ := List.getLast?_eq_some_iff.1 hfront
      rw [List.append_assoc, List.singleton_append, split_append_cons, split_of_notMem hlast]
      exact List.getLast?_concat

/-- Joined parts are empty only if there is no part, or a single empty one. -/
theorem joined_ne_nil {separator : Char} {parts : List (List Char)} (h : parts ≠ []) (h' : parts ≠ [[]]) :
    joined separator parts ≠ [] := by
  match parts with
  | [] => exact absurd rfl h
  | [part] => exact fun heq ↦ h' (congrArg (fun part ↦ [part]) heq)
  | part :: second :: parts => exact List.append_ne_nil_of_right_ne_nil _ (List.cons_ne_nil _ _)

/-- The extension that is found is the one that the path has. -/
theorem extension?_eq_some_iff : extension? path = some ext ↔ HasExtension path ext := by
  unfold extension?
  constructor
  · obtain ⟨last, hlast⟩ := Option.isSome_iff_exists.1 (List.getLast?_isSome.2 (split_ne_nil '/' path.toList))
    obtain ⟨directory, hpath, hdirectory, hslash⟩ := getLast?_split_eq_some_iff.1 hlast
    rw [hlast, Option.getD_some]
    dsimp only
    intro h
    -- a name without a dot, or with one at its front only, has no extension
    split at h
    · cases h
    · cases h
    · cases h
    · next back others hnone hlone hsplit =>
      have hparts : split '.' last = others.reverse ++ [back] := by
        rw [← List.reverse_cons, ← hsplit, List.reverse_reverse]
      have hne : others.reverse ≠ [] := fun hnil ↦ hnone (List.reverse_eq_nil_iff.1 hnil)
      have hne' : others.reverse ≠ [[]] := fun hlone' ↦ hlone (List.reverse_eq_iff.1 hlone')
      have hname := joined_split '.' last
      rw [hparts, joined_concat '.' hne] at hname
      obtain rfl := Option.some.inj h
      rw [← hname] at hpath hslash
      refine ⟨directory, joined '.' others.reverse, ?_, hdirectory, joined_ne_nil hne hne', ?_, ?_, ?_⟩
      · rw [hpath, String.toList_ofList, List.append_assoc]
      · exact fun hmem ↦ hslash (List.mem_append_left _ hmem)
      · rw [String.toList_ofList]
        exact fun hmem ↦ hslash (List.mem_append_right _ (List.mem_cons_of_mem _ hmem))
      · rw [String.toList_ofList]
        exact notMem_of_mem_split (hparts ▸ List.mem_append_right _ (List.mem_singleton_self _))
  · rintro ⟨directory, stem, hpath, hdirectory, hne, hstem, hslash, hdot⟩
    have hname : '/' ∉ stem ++ '.' :: ext.toList := by simp [hstem, hslash]
    rw [getLast?_split_eq_some_iff.2 ⟨directory, by rw [hpath, List.append_assoc], hdirectory, hname⟩,
      Option.getD_some]
    dsimp only
    -- the dot before the extension is the last one
    rw [split_append_cons, split_of_notMem hdot, List.reverse_concat]
    have hstem := joined_split '.' stem
    split
    · next hsplit => cases hsplit
    · next hsplit =>
      obtain ⟨-, hnil⟩ := List.cons.inj hsplit
      exact absurd (List.reverse_eq_nil_iff.1 hnil) (split_ne_nil '.' stem)
    · next hsplit =>
      obtain ⟨-, hlone⟩ := List.cons.inj hsplit
      rw [List.reverse_eq_iff.1 hlone] at hstem
      exact absurd hstem.symm hne
    · next hsplit =>
      obtain ⟨rfl, -⟩ := List.cons.inj hsplit
      rw [String.ofList_toList]

end TypeSystem.Path
