import Mathlib.Data.List.Nodup
import TypeSystem.Proofs.Schema.Tables
import TypeSystem.Schema.Reference

/-!
# The walk without its stack

The walk for a use of a directive (`Definitions.walk`) keeps a stack of its own. `Definitions.search` is the same
search as a plain recursion: it carries along the definitions not yet entered, and what is on the stack of the
walk is left to the calls that it is made from. They find the same (`walk_eq_search`), and so what is proved of
the search holds of the walk.

The two are compared frame by frame. If the search finds something from the topmost frame, then the walk ends
with that behind the labels of the stack (`walk_of_found`); if it finds nothing, then the walk comes back to the
stack below, having come to just the definitions that the search has entered (`walk_of_exhausted`).
-/

namespace TypeSystem

/-! ### The search -/

/-- The outcome of a search that began with `n` definitions not yet entered. -/
inductive SearchOutcome (n : Nat) where
  /-- The target, and the names on the way to it. -/
  | found (path : List Reference)
  /-- No target; the definitions still not entered. -/
  | exhausted (unentered : List Reference) (length_le : unentered.length ≤ n)

namespace SearchOutcome

variable {n m : Nat}

/-- The way to the target, if there is one. -/
def path? : SearchOutcome n → Option (List Reference)
  | found path => some path
  | exhausted _ _ => none

/-- What a search that found nothing has left. -/
def left? : SearchOutcome n → Option (List Reference)
  | found _ => none
  | exhausted left _ => some left

/-- An outcome, the bound made larger. -/
def weaken (h : n ≤ m) : SearchOutcome n → SearchOutcome m
  | found path => found path
  | exhausted unentered hu => exhausted unentered (Nat.le_trans hu h)

@[simp] theorem path?_weaken (h : n ≤ m) (outcome : SearchOutcome n) :
    (outcome.weaken h).path? = outcome.path? := by
  cases outcome <;> rfl

@[simp] theorem left?_weaken (h : n ≤ m) (outcome : SearchOutcome n) :
    (outcome.weaken h).left? = outcome.left? := by
  cases outcome <;> rfl

/-- A search finds something or leaves something. -/
theorem left?_isSome_of_path? {outcome : SearchOutcome n} (h : outcome.path? = none) :
    ∃ left, outcome.left? = some left := by
  cases outcome with
  | found path => cases h
  | exhausted left hleft => exact ⟨left, rfl⟩

end SearchOutcome

namespace Frame

variable {label : String} {name : Reference} {pending : List Reference}

/-- What comes first is taken first. -/
theorem next?_enter_cons : (enter label (name :: pending)).next? = some (name, enter label pending) := by
  simp [enter, next?]

end Frame

namespace Definitions

/-- Looks for the target among the names `pending` and what they refer to, entering only definitions that
are in `unentered`. -/
def search (d : Definitions) (target : Reference) (unentered : List Reference) :
    List Reference → SearchOutcome unentered.length
  | [] => .exhausted unentered (Nat.le_refl _)
  | name :: pending =>
    if name = target then .found [name]
    else if h : name ∈ unentered then
      have hlt : (unentered.erase name).length < unentered.length := by
        have := List.length_pos_of_mem h
        rw [List.length_erase_of_mem h]
        omega
      match search d target (unentered.erase name) (d.references name) with
      | .found path => .found (name :: path)
      | .exhausted left hleft => (search d target left pending).weaken (by omega)
    else search d target unentered pending
termination_by pending => (unentered.length, pending.length)

variable {d : Definitions} {target label : String} {name : Reference}
  {visited unentered pending left path : List Reference} {stack : List Frame}

/-! ### Frames -/

/-- No node is listed twice among all nodes. -/
theorem all_nodup (h : d.WellFormed) : d.all.Nodup := by
  refine List.Nodup.append (h.types.nodup.map fun _ _ heq ↦ Reference.type.inj heq)
    (h.directives.nodup.map fun _ _ heq ↦ Reference.directive.inj heq) ?_
  intro name htype hdirective
  obtain ⟨_, -, rfl⟩ := List.mem_map.1 htype
  obtain ⟨_, -, heq⟩ := List.mem_map.1 hdirective
  cases heq

/-- A definition is entered under the label that references to it have, also where the label is read off the
definition. -/
theorem frame?_of_mem (hd : d.WellFormed) (hname : name ∈ d.all) :
    d.frame? name = some (.enter name.label (d.references name)) := by
  cases name with
  | type name =>
    obtain ⟨type, htype⟩ := Option.isSome_iff_exists.1 (Table.find?_isSome_iff.2 (by simpa [all] using hname))
    simp only [frame?, references, type?, htype, Option.map_some, Option.getD_some, Reference.label,
      hd.types.name_of_find? htype]
  | directive name =>
    obtain ⟨directive, hdirective⟩ :=
      Option.isSome_iff_exists.1 (Table.find?_isSome_iff.2 (by simpa [all] using hname))
    simp only [frame?, references, directive?, hdirective, Option.map_some, Option.getD_some, Reference.label]

/-- What is not defined opens no frame. -/
theorem frame?_eq_none_of_notMem (hname : name ∉ d.all) : d.frame? name = none := by
  rw [Option.eq_none_iff_forall_ne_some]
  exact fun frame hframe ↦ hname (mem_all_of_frame? hframe)

/-! ### Single steps of the walk -/

/-- With no frame left the walk has found nothing. -/
theorem walk_nil : d.walk target visited [] = none := by
  rw [walk]

/-- A frame with nothing pending is taken off the stack. -/
theorem walk_of_pending_nil : d.walk target visited (.enter label [] :: stack) = d.walk target visited stack := by
  rw [walk]
  rfl

/-- At the target the labels of all frames, outermost first, are the path to it. -/
theorem walk_of_target : d.walk target visited (.enter label (.directive target :: pending) :: stack) =
    some ((stack.map Frame.label).reverse ++ [label, "@" ++ target]) := by
  rw [walk, Frame.next?_enter_cons]
  simp [Frame.enter, Reference.label]

/-- What was visited is passed over. -/
theorem walk_of_mem_visited (hne : name ≠ .directive target) (hname : name ∈ visited) :
    d.walk target visited (.enter label (name :: pending) :: stack) =
      d.walk target visited (.enter label pending :: stack) := by
  rw [walk, Frame.next?_enter_cons]
  simp [hne, hname]

/-- What is not defined is visited and opens no frame. -/
theorem walk_of_undefined (hne : name ≠ .directive target) (hname : name ∉ visited) (hframe : d.frame? name = none) :
    d.walk target visited (.enter label (name :: pending) :: stack) =
      d.walk target (name :: visited) (.enter label pending :: stack) := by
  rw [walk, Frame.next?_enter_cons]
  simp only [hne, hname, if_false]
  split
  · rfl
  · next hsome => cases hframe.symm.trans hsome

/-- What is defined and not visited is visited, and its frame goes on top of the others. -/
theorem walk_of_frame? {inner : Frame} (hne : name ≠ .directive target) (hname : name ∉ visited)
    (hframe : d.frame? name = some inner) :
    d.walk target visited (.enter label (name :: pending) :: stack) =
      d.walk target (name :: visited) (inner :: .enter label pending :: stack) := by
  rw [walk, Frame.next?_enter_cons]
  simp only [hne, hname, if_false]
  split
  · next hnone => cases hframe.symm.trans hnone
  · next hsome =>
    obtain rfl := Option.some.inj (hframe.symm.trans hsome)
    rfl

/-! ### What the walk has not come to -/

/-- The definitions still to be entered are those that the walk has not come to. -/
structure Remaining (d : Definitions) (visited unentered : List Reference) : Prop where
  nodup : unentered.Nodup
  mem_iff : ∀ name, name ∈ unentered ↔ name ∈ d.all ∧ name ∉ visited

namespace Remaining

/-- At first everything remains. -/
theorem nil (hd : d.WellFormed) : d.Remaining [] d.all where
  nodup := all_nodup hd
  mem_iff := by simp

/-- The walk comes to a definition. -/
theorem enter (h : d.Remaining visited unentered) (name : Reference) :
    d.Remaining (name :: visited) (unentered.erase name) where
  nodup := h.nodup.erase name
  mem_iff := by
    intro other
    rw [h.nodup.mem_erase_iff, h.mem_iff, List.mem_cons, not_or]
    exact and_left_comm

/-- The walk comes to a name that is not defined. -/
theorem pass (h : d.Remaining visited unentered) (hname : name ∉ d.all) :
    d.Remaining (name :: visited) unentered where
  nodup := h.nodup
  mem_iff := by
    intro other
    rw [h.mem_iff, List.mem_cons, not_or]
    exact and_congr_right fun hother ↦ (and_iff_right (ne_of_mem_of_not_mem hother hname)).symm

end Remaining

/-! ### Frame by frame -/

/-- A definition that may be entered is entered, with the rest of the frame below it. -/
theorem walk_of_mem_unentered (hd : d.WellFormed) (h : d.Remaining visited unentered)
    (hne : name ≠ .directive target) (hname : name ∈ unentered) :
    d.walk target visited (.enter label (name :: pending) :: stack) =
      d.walk target (name :: visited) (.enter name.label (d.references name) :: .enter label pending :: stack) := by
  obtain ⟨hall, hnew⟩ := (h.mem_iff name).1 hname
  exact walk_of_frame? hne hnew (frame?_of_mem hd hall)

/-- A name that may not be entered is passed over. -/
theorem exists_walk_of_notMem_unentered (h : d.Remaining visited unentered) (hne : name ≠ .directive target)
    (hname : name ∉ unentered) : ∃ visited', d.Remaining visited' unentered ∧
      d.walk target visited (.enter label (name :: pending) :: stack) =
        d.walk target visited' (.enter label pending :: stack) := by
  by_cases hvisited : name ∈ visited
  · exact ⟨visited, h, walk_of_mem_visited hne hvisited⟩
  · have hall : name ∉ d.all := fun hall ↦ hname ((h.mem_iff name).2 ⟨hall, hvisited⟩)
    exact ⟨name :: visited, h.pass hall, walk_of_undefined hne hvisited (frame?_eq_none_of_notMem hall)⟩

/-- Where the search finds nothing, the walk comes back to the stack below the frame. -/
theorem walk_of_exhausted (hd : d.WellFormed) (h : d.Remaining visited unentered)
    (hleft : (d.search (.directive target) unentered pending).left? = some left) :
    ∃ visited', d.Remaining visited' left ∧
      d.walk target visited (.enter label pending :: stack) = d.walk target visited' stack := by
  fun_induction search d (.directive target) unentered pending generalizing visited label stack left with
  | case1 unentered =>
    cases hleft
    exact ⟨visited, h, walk_of_pending_nil⟩
  | case2 => cases hleft
  | case3 => cases hleft
  | case4 unentered name pending hne hmem _ between hbetween hsearch ihinner ihouter =>
    rw [SearchOutcome.left?_weaken] at hleft
    rw [walk_of_mem_unentered hd h hne hmem]
    obtain ⟨visited', h', hinner⟩ := ihinner (h.enter name) (by rw [hsearch]; rfl)
    rw [hinner]
    exact ihouter h' hleft
  | case5 unentered name pending hne hmem ih =>
    obtain ⟨visited', h', hpassed⟩ := exists_walk_of_notMem_unentered h hne hmem
    rw [hpassed]
    exact ih h' hleft

/-- Where the search finds something, the walk ends with that, behind the labels of the stack. -/
theorem walk_of_found (hd : d.WellFormed) (h : d.Remaining visited unentered)
    (hpath : (d.search (.directive target) unentered pending).path? = some path) :
    d.walk target visited (.enter label pending :: stack) =
      some ((stack.map Frame.label).reverse ++ label :: path.map Reference.label) := by
  fun_induction search d (.directive target) unentered pending generalizing visited label stack path with
  | case1 => cases hpath
  | case2 =>
    cases hpath
    exact walk_of_target
  | case3 unentered name pending hne hmem _ path' hsearch ih =>
    cases hpath
    rw [walk_of_mem_unentered hd h hne hmem, ih (h.enter name) (by rw [hsearch]; rfl)]
    simp [Frame.enter]
  | case4 unentered name pending hne hmem _ between hbetween hsearch _ ih =>
    rw [SearchOutcome.path?_weaken] at hpath
    rw [walk_of_mem_unentered hd h hne hmem]
    -- the walk comes back from the inner frame, and goes on with this one
    obtain ⟨visited', h', hinner⟩ := walk_of_exhausted hd (h.enter name) (by rw [hsearch]; rfl)
    rw [hinner]
    exact ih h' hpath
  | case5 unentered name pending hne hmem ih =>
    obtain ⟨visited', h', hpassed⟩ := exists_walk_of_notMem_unentered h hne hmem
    rw [hpassed]
    exact ih h' hpath

/-- **The walk is the search.** From a single frame they find the same. -/
theorem walk_eq_search (hd : d.WellFormed) (h : d.Remaining visited unentered) :
    d.walk target visited [.enter label pending] =
      ((d.search (.directive target) unentered pending).path?).map fun path ↦
        label :: path.map Reference.label := by
  cases hpath : (d.search (.directive target) unentered pending).path? with
  | some path => exact walk_of_found hd h hpath
  | none =>
    obtain ⟨left, hleft⟩ := SearchOutcome.left?_isSome_of_path? hpath
    obtain ⟨visited', -, hwalk⟩ := walk_of_exhausted hd h hleft
    exact hwalk.trans walk_nil

/-- The path from a type is what the search finds in the references of the type, behind the type itself, which
is not entered again. -/
theorem pathFromType_eq_search (hd : d.WellFormed) (type : TypeDefinition) :
    d.pathFromType target type =
      ((d.search (.directive target) (d.all.erase (.type type.name)) type.references).path?).map fun path ↦
        (Reference.type type.name :: path).map Reference.label :=
  walk_eq_search hd ((Remaining.nil hd).enter _)

/-- The path from applied directives is what the search finds in them. -/
theorem pathFromApplied_eq_search (hd : d.WellFormed) (directives : List AppliedDirective) :
    d.pathFromApplied target directives =
      ((d.search (.directive target) d.all (appliedReferences directives)).path?).map fun path ↦
        path.map Reference.label := by
  rw [pathFromApplied, walk_eq_search hd (.nil hd), Option.map_map]
  rfl

end Definitions

end TypeSystem
