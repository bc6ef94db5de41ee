import TypeSystem.Proofs.Files.Visits

/-!
# The order in which a tree was made

Two trees with the same entries, listed in the order in which each was made, have the same at every place and
the same names in every directory (`FileTree.Rearranges`). Nothing else of a tree is asked on the way along a
path or on a walk, so both go alike (`FileTree.Rearranges.walk_eq`).
-/

namespace TypeSystem

namespace FileTree

/-- The trees have the same entries, and paths begin at the same place. -/
structure Rearranges (tree' tree : FileTree) : Prop where
  entries : tree'.entries.entries.Perm tree.entries.entries
  current : tree'.current = tree.current

variable {tree tree' : FileTree}

/-- Trees with the same at every place have the same entries, if each place is listed once. -/
theorem rearranges_of_get?_eq (hnodup : tree.locations.Nodup) (hnodup' : tree'.locations.Nodup)
    (hget : ∀ location, tree'.get? location = tree.get? location) (hcurrent : tree'.current = tree.current) :
    tree'.Rearranges tree := by
  have hmem {tree : FileTree} (hnodup : tree.locations.Nodup) (entry : Location × Entry) :
      entry ∈ tree.entries.entries ↔ tree.get? entry.1 = some entry.2 :=
    ⟨Table.find?_eq_some_of_mem hnodup, Table.mem_entries_of_find?⟩
  refine ⟨?_, hcurrent⟩
  rw [List.perm_ext_iff_of_nodup (.of_map _ hnodup') (.of_map _ hnodup)]
  intro entry
  rw [hmem hnodup', hmem hnodup, hget]

namespace Rearranges

variable (h : tree'.Rearranges tree) (hnodup : tree.locations.Nodup)
include h hnodup

/-! ### Looking things up -/

theorem nodup : tree'.locations.Nodup :=
  (h.entries.map Prod.fst).nodup_iff.2 hnodup

/-- The same entry is found at every place, since no place is listed twice. -/
theorem get?_eq (location : Location) : tree'.get? location = tree.get? location :=
  Table.find?_perm hnodup h.entries location

/-- The same names are found in every directory, and sorting them leaves no trace of their order in the list.
-/
theorem namesIn_eq (directory : Location) : tree'.namesIn directory = tree.namesIn directory := by
  obtain ⟨hsorted, hmem⟩ := lists_namesIn (h.nodup hnodup) directory
  simp only [h.get?_eq hnodup] at hmem
  exact Lists.unique ⟨hsorted, hmem⟩ (lists_namesIn hnodup directory)

/-! ### Following paths -/

theorem enter_eq (location : Location) : tree'.enter location = tree.enter location := by
  simp only [enter, h.get?_eq hnodup]

theorem start_eq (base : Location) (names : List String) : tree'.start base names = tree.start base names := by
  cases names with
  | nil => rfl
  | cons name names => simp only [start_cons, h.get?_eq hnodup]

/-- Following goes the same way. The induction is that of `FileTree.follow`, which looks at the tree through
`get?` alone. -/
theorem follow_eq (purpose : Purpose) (links : ℕ) (location : Location) (names : List String) :
    tree'.follow purpose links location names = tree.follow purpose links location names := by
  -- a link takes one off the links that are left, every other step one off the names
  induction links generalizing location names with
  | zero =>
    induction names generalizing location with
    | nil => rw [follow, follow]
    | cons name names ih => simp only [follow, h.enter_eq hnodup, h.get?_eq hnodup, ih]
  | succ links ihLinks =>
    induction names generalizing location with
    | nil => rw [follow, follow]
    | cons name names ih =>
      simp only [follow, h.enter_eq hnodup, h.get?_eq hnodup, h.start_eq hnodup, ih, ihLinks]

theorem trace_eq (purpose : Purpose) (path : List String) : tree'.trace purpose path = tree.trace purpose path := by
  simp only [trace, h.current, h.start_eq hnodup, h.follow_eq hnodup]

theorem resolve_eq (purpose : Purpose) (path : List String) :
    tree'.resolve purpose path = tree.resolve purpose path := by
  simp only [resolve, h.trace_eq hnodup]

theorem find_eq (purpose : Purpose) (path : List String) : tree'.find purpose path = tree.find purpose path := by
  simp only [find, h.resolve_eq hnodup, h.get?_eq hnodup]

theorem locate_eq (path : List String) : tree'.locate path = tree.locate path := by
  simp only [locate, h.current, h.start_eq hnodup, h.follow_eq hnodup]

/-! ### Walking -/

/-- What a name is met as is the same. -/
theorem meet_eq (ancestors : List Ancestor) (path : String) (location : Location) (target : Except FileError Spot) :
    tree'.meet ancestors path location target = tree.meet ancestors path location target := by
  simp only [meet, h.get?_eq hnodup]

theorem traceIn_eq (directory : Ancestor) (name : String) :
    tree'.traceIn directory name = tree.traceIn directory name := by
  simp only [traceIn, h.follow_eq hnodup]

/-- The walk over the names of a directory is the same, by the induction that bounds it. -/
theorem walkNames_eq (directory : Ancestor) (ancestors : List Ancestor) (names : List String) :
    tree'.walkNames directory ancestors names = tree.walkNames directory ancestors names := by
  fun_induction walkNames tree directory ancestors names with
  | case1 => rw [walkNames]
  | case2 directory ancestors name names e hmeet =>
    rw [← h.meet_eq hnodup, ← h.traceIn_eq hnodup] at hmeet
    exact walkNames_of_error hmeet names
  | case3 directory ancestors name names visit hmeet ih =>
    rw [← h.meet_eq hnodup, ← h.traceIn_eq hnodup] at hmeet
    rw [walkNames_of_file hmeet, ih]
  | case4 directory ancestors name names met hmeet ihInside ih =>
    rw [← h.meet_eq hnodup, ← h.traceIn_eq hnodup] at hmeet
    rw [walkNames_of_directory hmeet, h.namesIn_eq hnodup, ihInside, ih]

/-- Walks go alike through trees with the same entries. -/
theorem walk_eq (path : String) : tree'.walk path = tree.walk path := by
  simp only [walk, h.resolve_eq hnodup, h.trace_eq hnodup, h.meet_eq hnodup, h.namesIn_eq hnodup,
    h.walkNames_eq hnodup]

end Rearranges

end FileTree

end TypeSystem
