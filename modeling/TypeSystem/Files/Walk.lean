import TypeSystem.Files.Tree

/-!
# Walks

A walk visits every regular file at or under a path: depth first, each directory by the order of its names,
and through links. A link to a directory that the walk is inside of would lead round in a circle, and is an
error; a directory itself is never one.

This is what is documented of a walk that follows links and sorts by file name:

* a directory comes before what is in it, and what is in it in the order of the names;
* a link is taken for what it leads to, but keeps its own path;
* a link to a directory that the walk is inside of is an error that names both;
* the files before the first error have been met, and whoever takes files from the walk stops at the error.

Links and directories are used under the path by which the walk has come to them. So it counts how many links
there are on the whole way, and how long that path has become; files are only met.

A walk ends because a link leads only to directories that it is not inside of, of which there are fewer each
time, and because every other step leads down, which can be done only so often.
-/

namespace TypeSystem

/-- A file met on a walk. -/
structure Visit where
  /-- The path by which the file was met. -/
  path : String
  /-- The place where the file is. -/
  location : Location
deriving DecidableEq, Repr

/-- A directory that a walk is inside of. -/
structure Ancestor where
  /-- The path by which the walk came in. -/
  path : String
  /-- The place where the directory is. -/
  location : Location
  /-- How many links may still be followed from there on. -/
  links : Nat
deriving DecidableEq, Repr

/-- Why a walk cannot go on. -/
inductive WalkError where
  /-- Something on the way cannot be looked at. -/
  | unreachable (path : String) (cause : FileError)
  /-- A link leads to a directory that the walk is inside of. -/
  | loop (path ancestor : String)
deriving DecidableEq, Repr

namespace WalkError

/-- The error and, after a colon, what has caused it. -/
def message : WalkError → String
  | unreachable path cause =>
    "IO error for operation on " ++ path ++ ": " ++ cause.message ++ ": " ++ cause.message
  | loop path ancestor => "File system loop found: " ++ path ++ " points to an ancestor " ++ ancestor

end WalkError

/-- What has come of a walk. -/
structure Walk where
  /-- The files that were met, in order. -/
  visits : List Visit
  /-- Why the walk could not go on after them, if it could not. -/
  failure : Option WalkError
deriving DecidableEq, Repr

namespace Walk

/-- A walk that has met files and come to its end. -/
def ofVisits (visits : List Visit) : Walk := ⟨visits, none⟩

/-- A walk that could not even begin. -/
def ofError (e : WalkError) : Walk := ⟨[], some e⟩

/-- A walk and, if it has come to its end, another one after it. -/
def andThen (walk : Walk) (later : Unit → Walk) : Walk :=
  match walk.failure with
  | some _ => walk
  | none =>
    let rest := later ()
    ⟨walk.visits ++ rest.visits, rest.failure⟩

end Walk

/-- What a walk meets at a path. -/
inductive Encounter where
  | file (visit : Visit)
  | directory (ancestor : Ancestor)
deriving DecidableEq, Repr

namespace FileTree

/-- What a walk inside of `ancestors`, the innermost first, meets at a path. The path by itself leads to
`location`, and to `target` when it is used. -/
def meet (tree : FileTree) (ancestors : List Ancestor) (path : String) (location : Location)
    (target : Except FileError Spot) : Except WalkError Encounter :=
  match tree.get? location, target with
  | none, _ => .error (.unreachable path .notFound)
  | some (.file _), _ => .ok (.file ⟨path, location⟩)
  | some _, .error e => .error (.unreachable path e)
  | some .directory, .ok spot => .ok (.directory ⟨path, location, spot.links⟩)
  | some (.link _), .ok spot =>
    match tree.get? spot.location with
    | none => .error (.unreachable path .notFound)
    | some .directory =>
      match ancestors.find? fun ancestor ↦ ancestor.location = spot.location with
      | some ancestor => .error (.loop path ancestor.path)
      | none => .ok (.directory ⟨path, spot.location, spot.links⟩)
    | some _ => .ok (.file ⟨path, spot.location⟩)

/-- Where a name in a directory leads to, if the whole path to it may be used. -/
def traceIn (tree : FileTree) (directory : Ancestor) (name : String) : Except FileError Spot := do
  checkPath (Path.names (Path.child directory.path name))
  tree.follow .use directory.links directory.location [name]

/-- The length of the longest place. -/
def depth (tree : FileTree) : Nat :=
  tree.locations.foldl (fun n location ↦ max n location.length) 0

/-- Whether a walk is not inside of what is at a place. -/
def isOutside (ancestors : List Ancestor) (location : Location) : Bool :=
  !(ancestors.map Ancestor.location).contains location

/-- The places that a walk is not inside of. -/
def outside (tree : FileTree) (ancestors : List Ancestor) : List Location :=
  tree.locations.filter (isOutside ancestors)

/-! ### What a step leads to -/

/-- What has an entry is among the places of the tree. -/
theorem mem_locations_of_get? {tree : FileTree} {location : Location} {entry : Entry}
    (h : tree.get? location = some entry) : location ∈ tree.locations :=
  Table.find?_isSome_iff.1 (Option.isSome_of_eq_some h)

/-- No place has more names than the tree is deep. This is what bounds a walk downwards. -/
theorem length_le_depth {tree : FileTree} {location : Location} (h : location ∈ tree.locations) :
    location.length ≤ tree.depth := by
  have grows : ∀ (places : List Location) (n : Nat),
      n ≤ places.foldl (fun n location ↦ max n location.length) n := by
    intro places
    induction places with
    | nil => exact fun n ↦ Nat.le_refl n
    | cons p ps ih => exact fun n ↦ Nat.le_trans (Nat.le_max_left n p.length) (ih _)
  have reaches : ∀ (places : List Location) (n : Nat), location ∈ places →
      location.length ≤ places.foldl (fun n location ↦ max n location.length) n := by
    intro places
    induction places with
    | nil => intro n hmem; cases hmem
    | cons p ps ih =>
      intro n hmem
      rcases List.mem_cons.1 hmem with rfl | hmem
      · exact Nat.le_trans (Nat.le_max_right n _) (grows ps _)
      · exact ih _ hmem
  exact reaches _ 0 h

/-- A directory that is met is there, and either at the very place or one that the walk is not inside of. -/
theorem location_of_meet {tree : FileTree} {ancestors : List Ancestor} {path : String}
    {location : Location} {target : Except FileError Spot} {met : Ancestor}
    (h : tree.meet ancestors path location target = .ok (.directory met)) :
    met.location ∈ tree.locations ∧
      (met.location = location ∨ met.location ∉ ancestors.map Ancestor.location) := by
  unfold meet at h
  split at h
  · cases h
  · cases h
  · cases h
  · rename_i hentry
    cases h
    exact ⟨mem_locations_of_get? hentry, .inl rfl⟩
  · split at h
    · cases h
    · rename_i hentry
      split at h
      · cases h
      · rename_i hnone
        cases h
        refine ⟨mem_locations_of_get? hentry, .inr ?_⟩
        rintro hmem
        obtain ⟨a, ha, heq⟩ := List.mem_map.1 hmem
        have := List.find?_eq_none.1 hnone a ha
        simp [heq] at this
    · cases h

/-- What is outside of more directories is outside of fewer. -/
theorem isOutside_of_cons {ancestors : List Ancestor} {met : Ancestor} {location : Location}
    (h : isOutside (met :: ancestors) location) : isOutside ancestors location := by
  simp only [isOutside, List.map_cons, List.contains_cons, Bool.not_or, Bool.and_eq_true] at h ⊢
  exact h.2

/-- Going into a directory leaves no more outside. -/
theorem outside_cons_le (tree : FileTree) (ancestors : List Ancestor) (met : Ancestor) :
    (tree.outside (met :: ancestors)).length ≤ (tree.outside ancestors).length := by
  simp only [outside, ← List.countP_eq_length_filter]
  exact List.countP_mono_left fun _ _ ↦ isOutside_of_cons

/-- Going into a directory that the walk is not inside of leaves less outside. -/
theorem outside_cons_lt {tree : FileTree} {ancestors : List Ancestor} {met : Ancestor}
    (hmem : met.location ∈ tree.locations) (hout : met.location ∉ ancestors.map Ancestor.location) :
    (tree.outside (met :: ancestors)).length < (tree.outside ancestors).length := by
  simp only [outside, ← List.countP_eq_length_filter]
  obtain ⟨before, after, heq⟩ := List.append_of_mem hmem
  have le (places : List Location) :
      places.countP (isOutside (met :: ancestors)) ≤ places.countP (isOutside ancestors) :=
    List.countP_mono_left fun _ _ ↦ isOutside_of_cons
  have hbefore := le before
  have hafter := le after
  have hin : ¬ isOutside (met :: ancestors) met.location := by simp [isOutside]
  have hnow : isOutside ancestors met.location := by simpa [isOutside] using hout
  rw [heq, List.countP_append, List.countP_append, List.countP_cons_of_neg hin,
    List.countP_cons_of_pos hnow]
  omega

/-! ### The walk -/

/-- The walk over the names of a directory, the innermost of those that it is inside of. -/
def walkNames (tree : FileTree) (directory : Ancestor) (ancestors : List Ancestor) :
    List String → Walk
  | [] => .ofVisits []
  | name :: names =>
    match _hmeet : tree.meet (directory :: ancestors) (Path.child directory.path name)
      (directory.location ++ [name]) (tree.traceIn directory name) with
    | .error e => .ofError e
    | .ok (.file visit) =>
      (Walk.ofVisits [visit]).andThen fun _ ↦ walkNames tree directory ancestors names
    | .ok (.directory met) =>
      (walkNames tree met (directory :: ancestors) (tree.namesIn met.location)).andThen fun _ ↦
        walkNames tree directory ancestors names
termination_by names =>
  ((tree.outside (directory :: ancestors)).length, tree.depth - directory.location.length,
    names.length)
decreasing_by
  · exact Prod.Lex.right _ (Prod.Lex.right _ (Nat.lt_succ_self _))
  · obtain ⟨hmem, heq | hout⟩ := location_of_meet _hmeet
    · have hdepth := length_le_depth hmem
      rw [heq, List.length_append, List.length_singleton] at hdepth
      rcases Nat.lt_or_eq_of_le (outside_cons_le tree (directory :: ancestors) met) with hlt | hsame
      · exact Prod.Lex.left _ _ hlt
      · rw [hsame, heq, List.length_append, List.length_singleton]
        exact Prod.Lex.right _ (Prod.Lex.left _ _ (by omega))
    · exact Prod.Lex.left _ _ (outside_cons_lt hmem hout)
  · exact Prod.Lex.right _ (Prod.Lex.right _ (Nat.lt_succ_self _))

section

variable {tree : FileTree} {directory : Ancestor} {ancestors : List Ancestor} {name : String}

/-- A name that cannot be met ends the walk. -/
theorem walkNames_of_error {e : WalkError} (h : tree.meet (directory :: ancestors) (Path.child directory.path name)
      (directory.location ++ [name]) (tree.traceIn directory name) = .error e) (names : List String) :
    tree.walkNames directory ancestors (name :: names) = .ofError e := by
  rw [walkNames]
  split <;> simp_all

/-- A name that is met as a file is visited, and the walk goes on. -/
theorem walkNames_of_file {visit : Visit} (h : tree.meet (directory :: ancestors) (Path.child directory.path name)
      (directory.location ++ [name]) (tree.traceIn directory name) = .ok (.file visit)) (names : List String) :
    tree.walkNames directory ancestors (name :: names) =
      (Walk.ofVisits [visit]).andThen fun _ ↦ tree.walkNames directory ancestors names := by
  rw [walkNames]
  split <;> simp_all

/-- A name that is met as a directory is walked through before the names behind it. -/
theorem walkNames_of_directory {met : Ancestor} (h : tree.meet (directory :: ancestors)
      (Path.child directory.path name) (directory.location ++ [name]) (tree.traceIn directory name) =
        .ok (.directory met)) (names : List String) :
    tree.walkNames directory ancestors (name :: names) =
      (tree.walkNames met (directory :: ancestors) (tree.namesIn met.location)).andThen fun _ ↦
        tree.walkNames directory ancestors names := by
  rw [walkNames]
  split <;> simp_all

end

/-- The walk over what is at and under a path. -/
def walk (tree : FileTree) (path : String) : Walk :=
  match tree.resolve .inspect (Path.names path) with
  | .error e => .ofError (.unreachable path e)
  | .ok location =>
    match tree.meet [] path location (tree.trace .use (Path.names path)) with
    | .error e => .ofError e
    | .ok (.file visit) => .ofVisits [visit]
    | .ok (.directory met) => tree.walkNames met [] (tree.namesIn met.location)

end FileTree

end TypeSystem
