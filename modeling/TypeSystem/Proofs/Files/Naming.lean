import Mathlib.Data.List.Nodup
import TypeSystem.Proofs.Files.Paths
import TypeSystem.Proofs.Files.Writing

/-!
# Names in a file tree

Whatever is in a directory has a name that can stand in a path and leads there (`FileTree.IsName`), and is
listed once (`FileTree.IsOrderly`). This is so in every tree that is made from one directory by making directories,
writing files and making links under paths that are given as text (`FileTree.IsMade.isOrderly`), as a way that
begins in a directory ends in one or at such a name (`FileTree.Way.isNamed`).
-/

namespace TypeSystem

namespace FileTree

variable {tree : FileTree} {place location : Location} {entry : Entry} {content : List UInt8} {top : String}
  {names path target : List String} {links : ℕ} {spot : Spot} {purpose : Purpose}

/-- A name that something in a directory may have. -/
structure IsName (name : String) : Prop where
  no_slash : '/' ∉ name.toList
  not_here : ¬ isHere name
  not_up : name ≠ ".."

/-- Each place is listed once, and has a name, unless no directory holds it. The names in links have no slash in
them. -/
structure IsOrderly (tree : FileTree) : Prop extends IsRooted tree where
  nodup : tree.locations.Nodup
  isName : ∀ directory name, tree.get? (directory ++ [name]) ≠ none →
    IsName name ∨ directory = [] ∧ tree.get? [] = none
  no_slash : ∀ location target, tree.get? location = some (.link target) → ∀ name ∈ target, '/' ∉ name.toList

/-- What is in a directory has a name. -/
theorem IsOrderly.isName_of_get? (htree : tree.IsOrderly) {directory : Location} {name : String}
    (hdirectory : tree.get? directory = some .directory) (h : tree.get? (directory ++ [name]) ≠ none) :
    IsName name := by
  rcases htree.isName directory name h with hname | ⟨rfl, hnone⟩
  · exact hname
  · rw [hnone] at hdirectory
    cases hdirectory

/-! ### Places that are named -/

/-- The place has a name in the place above it. -/
def IsNamed (place : Location) : Prop := ∃ directory name, place = directory ++ [name] ∧ IsName name

/-- The names that are left to follow are some of those that were given. -/
theorem mem_of_mem_start {base : Location} {name : String} (h : name ∈ (tree.start base names).2) :
    name ∈ names := by
  cases names with
  | nil => exact h
  | cons first others =>
    rw [start_cons] at h
    split at h
    · exact List.mem_cons_of_mem _ h
    · exact h

/-- A way that begins in a directory ends in one, or at a name. -/
theorem Way.isNamed (h : tree.Way links location names spot) (htree : tree.IsOrderly)
    (hnames : ∀ name ∈ names, '/' ∉ name.toList)
    (hlocation : tree.get? location = some .directory ∨ IsNamed location) :
    tree.get? spot.location = some .directory ∨ IsNamed spot.location := by
  induction h with
  | done => exact hlocation
  | stay _ _ _ ih => exact ih (fun name hname ↦ hnames name (List.mem_cons_of_mem _ hname)) hlocation
  | up directory _ ih =>
    exact ih (fun name hname ↦ hnames name (List.mem_cons_of_mem _ hname)) (.inl (htree.above _ directory))
  | down _ not_here not_up _ _ _ ih =>
    refine ih (fun name hname ↦ hnames name (List.mem_cons_of_mem _ hname)) (.inr ⟨_, _, rfl, ?_⟩)
    exact ⟨hnames _ List.mem_cons_self, not_here, not_up⟩
  | through directory _ _ _ link _ ih =>
    refine ih (fun name hname ↦ ?_) (.inl (get?_start directory _))
    rcases List.mem_append.1 hname with hname | hname
    · exact htree.no_slash _ _ link name (mem_of_mem_start hname)
    · exact hnames name (List.mem_cons_of_mem _ hname)

/-- A path leads to a directory or to a name, unless it leads to a link. -/
theorem isNamed_of_resolve (htree : tree.IsOrderly) (hpath : ∀ name ∈ path, '/' ∉ name.toList)
    (h : tree.resolve purpose path = .ok place) (hdirectory : tree.get? place ≠ some .directory)
    (hlink : purpose = .inspect → ∀ target, tree.get? place ≠ some (.link target)) : IsNamed place := by
  obtain ⟨-, links, hfollow⟩ := resolve_eq_ok_iff.1 h
  refine ((way_of_follow hlink hfollow).isNamed htree (fun name hname ↦ ?_) ?_).resolve_left hdirectory
  · exact hpath name (mem_of_mem_start hname)
  · exact .inl (get?_start htree.current path)

/-! ### Trees that are made -/

/-- Putting an entry replaces what was at the place, so no place is listed twice. -/
theorem nodup_locations_put (h : tree.locations.Nodup) (place : Location) (entry : Entry) :
    (tree.put place entry).locations.Nodup := by
  show (tree.entries.put place entry).keys.Nodup
  rw [Table.keys_put]
  split
  · exact h
  · next hnew => exact List.concat_eq_append ▸ List.Nodup.concat hnew h

/-- Something put at a named place leaves a tree orderly, if it leaves it rooted. -/
theorem IsOrderly.put (htree : tree.IsOrderly) (hplace : IsNamed place) (hrooted : (tree.put place entry).IsRooted)
    (hentry : ∀ target, entry = .link target → ∀ name ∈ target, '/' ∉ name.toList) :
    (tree.put place entry).IsOrderly where
  toIsRooted := hrooted
  nodup := nodup_locations_put htree.nodup place entry
  isName directory name h := by
    obtain ⟨above, last, rfl, hlast⟩ := hplace
    rw [get?_put] at h
    rw [get?_put, if_neg (by simp)]
    split at h
    · next heq =>
      obtain ⟨-, hsame⟩ := List.append_inj' heq rfl
      obtain rfl := List.singleton_inj.1 hsame
      exact .inl hlast
    · exact htree.isName directory name h
  no_slash location target h := by
    rw [get?_put] at h
    split at h
    · exact hentry target (Option.some.inj h)
    · exact htree.no_slash location target h

/-- A file may be put at any place with a name that is no directory. -/
theorem IsOrderly.put_file (htree : tree.IsOrderly) (hplace : IsNamed place)
    (hdirectory : tree.get? place ≠ some .directory) (content : List UInt8) :
    (tree.put place (.file content)).IsOrderly :=
  htree.put hplace (htree.toIsRooted.put_of_ne_directory (by simp) hdirectory) (by simp)

/-- A single directory is an orderly tree. -/
theorem isOrderly_single (htop : IsName top) : (single top).IsOrderly where
  toIsRooted := isRooted_single top
  nodup := by
    show (((Table.empty : Table Location Entry).put [] .directory).put [top] .directory).keys.Nodup
    simp [Table.keys_put]
  isName directory name h := by
    rw [get?_single] at h
    by_cases heq : directory ++ [name] = [top]
    · obtain ⟨-, hsame⟩ := List.append_inj' (show directory ++ [name] = [] ++ [top] from heq) rfl
      obtain rfl := List.singleton_inj.1 hsame
      exact .inl htop
    · rw [if_neg (by simp [heq])] at h
      exact absurd rfl h
  no_slash location target h := by
    rw [get?_single] at h
    split at h <;> cases h

/-- A root directory is an orderly tree. -/
theorem isOrderly_root : root.IsOrderly where
  toIsRooted := isRooted_root
  nodup := List.nodup_singleton _
  isName directory name h := by
    rw [get?_root] at h
    by_cases heq : directory ++ [name] = [] ++ [""]
    · obtain ⟨rfl, -⟩ := List.append_inj' heq rfl
      exact .inr ⟨rfl, rfl⟩
    · exact absurd (if_neg heq) h
  no_slash location target h := by
    rw [get?_root] at h
    split at h <;> cases h

/-- Going into a directory changes where the tree is looked at from and nothing in it. -/
theorem IsOrderly.enter (htree : tree.IsOrderly) (h : tree.get? location = some .directory) :
    ({ tree with current := location } : FileTree).IsOrderly :=
  { htree with current := h }

/-- A tree in which a file has been written is orderly. -/
theorem IsOrderly.write (htree : tree.IsOrderly) (hpath : ∀ name ∈ path, '/' ∉ name.toList) {tree' : FileTree}
    (h : tree.write path content = .ok tree') : tree'.IsOrderly := by
  obtain ⟨place, hresolve, hplace, rfl⟩ := write_eq_ok_iff.1 h
  exact htree.put_file (isNamed_of_resolve htree hpath hresolve hplace (by simp)) hplace content

/-- Making a link keeps a tree orderly, if no name in either path has a slash in it. -/
theorem IsOrderly.makeLink (htree : tree.IsOrderly) (hpath : ∀ name ∈ path, '/' ∉ name.toList)
    (htarget : ∀ name ∈ target, '/' ∉ name.toList) : (tree.makeLink path target).IsOrderly := by
  unfold FileTree.makeLink
  split
  · exact htree
  · next place hplace =>
    split
    · exact htree
    · next hsome =>
      have hnone : tree.get? place = none := Option.not_isSome_iff_eq_none.1 hsome
      have hnamed : IsNamed place := isNamed_of_resolve htree hpath hplace (by simp [hnone]) (by simp [hnone])
      refine htree.put hnamed (htree.toIsRooted.put_of_ne_directory (by simp) (by simp [hnone])) ?_
      rintro _ ⟨⟩
      exact htarget

/-- Making a directory beside or inside others keeps a tree orderly. -/
theorem IsOrderly.makeDirectory (htree : tree.IsOrderly)
    (hplace : tree.get? place = some .directory ∨ IsNamed place)
    (habove : tree.get? (FileTree.above place) = some .directory) : (tree.makeDirectory place).IsOrderly := by
  unfold FileTree.makeDirectory
  split
  · exact htree
  · next hsome =>
    have hnone : tree.get? place = none := Option.not_isSome_iff_eq_none.1 hsome
    exact htree.put (hplace.resolve_left (by simp [hnone])) (htree.toIsRooted.put_directory habove) (by simp)

/-- Making what is missing along a path: each name keeps the tree orderly, and what has been made is the
directory for the next one. -/
theorem IsOrderly.makeAlong (htree : tree.IsOrderly)
    (hlocation : tree.get? location = some .directory ∨ IsNamed location)
    (habove : tree.get? (FileTree.above location) = some .directory) (links : ℕ)
    (hnames : ∀ name ∈ names, '/' ∉ name.toList) : (tree.makeAlong links location names).IsOrderly := by
  induction names generalizing tree links location with
  | nil => exact htree
  | cons name names ih =>
    obtain ⟨hname, hothers⟩ := List.forall_mem_cons.1 hnames
    rw [FileTree.makeAlong]
    split
    · exact htree
    · next spot hspot =>
      have hway := way_of_follow (by simp) hspot
      have hplace := hway.isNamed htree (by simpa using hname) hlocation
      have habove' := hway.above_end htree.toIsRooted habove
      refine ih (htree.makeDirectory hplace habove') ?_ (get?_makeDirectory habove' _) spot.links hothers
      exact hplace.imp_left fun hdirectory ↦ get?_makeDirectory hdirectory _

/-- A tree in which directories have been made is orderly. -/
theorem IsOrderly.makeDirectories (htree : tree.IsOrderly) (hpath : ∀ name ∈ path, '/' ∉ name.toList) :
    (tree.makeDirectories path).IsOrderly := by
  unfold FileTree.makeDirectories
  split
  · exact htree
  · have hstart := get?_start htree.current path
    exact htree.makeAlong (.inl hstart) (htree.above _ hstart) _ fun name hname ↦ hpath name (mem_of_mem_start hname)

/-- The trees that are made from a directory step by step, under paths that are text. -/
inductive IsMade : FileTree → Prop where
  | single {top : String} (name : IsName top) : IsMade (single top)
  | root : IsMade root
  | enter {tree : FileTree} {location : Location} (made : IsMade tree)
      (directory : tree.get? location = some .directory) : IsMade { tree with current := location }
  | makeDirectories {tree : FileTree} (made : IsMade tree) (path : String) :
      IsMade (tree.makeDirectories (Path.names path))
  | write {tree tree' : FileTree} {path : String} {content : List UInt8} (made : IsMade tree)
      (written : tree.write (Path.names path) content = .ok tree') : IsMade tree'
  | makeLink {tree : FileTree} (made : IsMade tree) (path target : String) :
      IsMade (tree.makeLink (Path.names path) (Path.names target))

/-- Every tree that is made is orderly. -/
theorem IsMade.isOrderly (h : tree.IsMade) : tree.IsOrderly := by
  induction h with
  | single name => exact isOrderly_single name
  | root => exact isOrderly_root
  | enter _ directory ih => exact ih.enter directory
  | makeDirectories _ path ih => exact ih.makeDirectories fun _ ↦ Path.slash_notMem_of_mem_names
  | write _ written ih => exact ih.write (fun _ ↦ Path.slash_notMem_of_mem_names) written
  | makeLink _ path target ih =>
    exact ih.makeLink (fun _ ↦ Path.slash_notMem_of_mem_names) fun _ ↦ Path.slash_notMem_of_mem_names

end FileTree

end TypeSystem
