import TypeSystem.Files.Tree

/-!
# Reading what was written

A file that is written is found again under the path under which it was written, with the bytes written
(`FileTree.read_of_write`). For the way to its place (`FileTree.Way`) is the same in the tree that is left: a
way leads on through directories and links, and the place where a file is written is neither.

That it is no link needs a tree in which paths begin in a directory, and `..` leads to one (`FileTree.IsRooted`).
A tree is such if it is made from one directory, by making directories, writing files and making links.
-/

namespace TypeSystem

namespace FileTree

variable {tree : FileTree} {place location base : Location} {content : List UInt8}
  {name : String} {names path : List String} {links : Nat} {spot : Spot} {purpose : Purpose}

/-! ### Ways -/

/-- The way from a place along names, on which all links are followed, no more than so many of them. -/
inductive Way (tree : FileTree) : Nat → Location → List String → Spot → Prop where
  | done (links : Nat) (location : Location) : Way tree links location [] ⟨location, links⟩
  | stay {links : Nat} {location : Location} {name : String} {names : List String} {spot : Spot}
      (directory : tree.get? location = some .directory) (here : isHere name)
      (others : Way tree links location names spot) : Way tree links location (name :: names) spot
  | up {links : Nat} {location : Location} {names : List String} {spot : Spot}
      (directory : tree.get? location = some .directory)
      (others : Way tree links (above location) names spot) : Way tree links location (".." :: names) spot
  | down {links : Nat} {location : Location} {name : String} {names : List String} {spot : Spot}
      (directory : tree.get? location = some .directory) (not_here : ¬ isHere name) (not_up : name ≠ "..")
      (short : name.utf8ByteSize ≤ maxNameBytes)
      (no_link : ∀ target, tree.get? (location ++ [name]) ≠ some (.link target))
      (others : Way tree links (location ++ [name]) names spot) : Way tree links location (name :: names) spot
  | through {links : Nat} {location : Location} {name : String} {names target : List String} {spot : Spot}
      (directory : tree.get? location = some .directory) (not_here : ¬ isHere name) (not_up : name ≠ "..")
      (short : name.utf8ByteSize ≤ maxNameBytes)
      (link : tree.get? (location ++ [name]) = some (.link target))
      (others : Way tree links (tree.start location target).1 ((tree.start location target).2 ++ names) spot) :
      Way tree (links + 1) location (name :: names) spot

/-- A directory is all that can be entered. -/
theorem enter_eq_ok_iff : tree.enter location = .ok () ↔ tree.get? location = some .directory := by
  unfold enter
  split <;> simp_all

/-- Two dots lead up and not nowhere. -/
theorem isHere_up : ¬ isHere ".." := by decide

/-- Names are followed along a way, unless they end at a link that is looked at itself. -/
theorem way_of_follow (hpurpose : purpose = .inspect → ∀ target, tree.get? spot.location ≠ some (.link target))
    (h : tree.follow purpose links location names = .ok spot) : tree.Way links location names spot := by
  fun_induction follow tree purpose links location names with
  | case1 =>
    obtain rfl := Except.ok.inj h
    exact .done _ _
  | case2 | case5 | case6 | case7 | case9 => cases h
  | case3 _ _ _ _ hdirectory hhere ih => exact .stay (enter_eq_ok_iff.1 hdirectory) hhere (ih h)
  | case4 _ _ _ hdirectory _ ih => exact .up (enter_eq_ok_iff.1 hdirectory) (ih h)
  | case8 _ _ _ _ _ _ _ _ _ _ target hlink hinspect =>
    obtain rfl := Except.ok.inj h
    exact absurd hlink (hpurpose hinspect.2 target)
  | case10 _ _ _ hdirectory hhere hup _ hshort _ _ hlink _ _ _ _ hstart ih =>
    refine .through (enter_eq_ok_iff.1 hdirectory) hhere hup (Nat.not_lt.1 hshort) hlink ?_
    rw [hstart]
    exact ih h
  | case11 _ _ _ _ hdirectory hhere hup _ hshort _ hlink ih =>
    exact .down (enter_eq_ok_iff.1 hdirectory) hhere hup (Nat.not_lt.1 hshort) hlink (ih h)

/-- A way is followed to its end. -/
theorem follow_of_way (h : tree.Way links location names spot) :
    tree.follow .use links location names = .ok spot := by
  induction h with
  | done => rw [follow]
  | stay directory here _ ih => rw [follow, enter_eq_ok_iff.2 directory, ← ih, if_pos here]
  | up directory _ ih =>
    rw [follow, enter_eq_ok_iff.2 directory, ← ih, if_neg isHere_up, if_pos rfl]
  | down directory not_here not_up short no_link _ ih =>
    rw [follow, enter_eq_ok_iff.2 directory, ← ih, if_neg not_here, if_neg not_up, if_neg (by simp),
      if_neg (Nat.not_lt.2 short), if_neg (by simp)]
    dsimp only
    split
    · next heq => exact absurd heq (no_link _)
    · rfl
  | through directory not_here not_up short link _ ih =>
    rw [follow, enter_eq_ok_iff.2 directory, ← ih, if_neg not_here, if_neg not_up, if_neg (by simp),
      if_neg (Nat.not_lt.2 short), if_neg (by simp), link]
    simp

/-! ### Where ways end -/

/-- Above a directory there is a directory, and paths begin in one. -/
structure IsRooted (tree : FileTree) : Prop where
  current : tree.get? tree.current = some .directory
  above : ∀ location, tree.get? location = some .directory →
    tree.get? (FileTree.above location) = some .directory

/-- A path begins in a directory if the place where it may begin is one. -/
theorem get?_start (hbase : tree.get? base = some .directory) (names : List String) :
    tree.get? (tree.start base names).1 = some .directory := by
  unfold start
  split
  · exact hbase
  · split
    · next htop => exact htop
    · exact hbase

/-- A way that begins in a directory does not end at a link. -/
theorem Way.ne_link (h : tree.Way links location names spot) (htree : tree.IsRooted)
    (hlocation : ∀ target, tree.get? location ≠ some (.link target)) (target : List String) :
    tree.get? spot.location ≠ some (.link target) := by
  induction h with
  | done => exact hlocation target
  | stay _ _ _ ih => exact ih hlocation
  | up directory _ ih =>
    refine ih fun target hlink ↦ ?_
    rw [htree.above _ directory] at hlink
    cases hlink
  | down _ _ _ _ no_link _ ih => exact ih no_link
  | through directory _ _ _ _ _ ih =>
    refine ih fun target hlink ↦ ?_
    rw [get?_start directory] at hlink
    cases hlink

/-- The directory above a name is the one that the name is in. -/
theorem above_append (location : Location) (hname : ¬ isHere name) :
    FileTree.above (location ++ [name]) = location := by
  rw [FileTree.above, if_neg, List.dropLast_concat]
  intro heq
  obtain ⟨-, hlast⟩ := List.append_inj' (show location ++ [name] = [] ++ [""] from heq) rfl
  obtain rfl := List.singleton_inj.1 hlast
  exact hname rfl

/-- Above the end of a way there is a directory, if there is one above its beginning. -/
theorem Way.above_end (h : tree.Way links location names spot) (htree : tree.IsRooted)
    (habove : tree.get? (FileTree.above location) = some .directory) :
    tree.get? (FileTree.above spot.location) = some .directory := by
  induction h with
  | done => exact habove
  | stay _ _ _ ih => exact ih habove
  | up directory _ ih => exact ih (htree.above _ (htree.above _ directory))
  | down directory not_here _ _ _ _ ih =>
    refine ih ?_
    rwa [above_append _ not_here]
  | through directory _ _ _ _ _ ih => exact ih (htree.above _ (get?_start directory _))

/-! ### Ways in the tree that is left -/

/-- At a place there is neither a directory nor a link, so a way can only end there. -/
structure IsEnd (tree : FileTree) (place : Location) : Prop where
  ne_directory : tree.get? place ≠ some .directory
  ne_link : ∀ target, tree.get? place ≠ some (.link target)

/-- Where there is no directory, something else can be put without any directory changing. -/
theorem get?_put_eq_directory_iff {entry : Entry} (hplace : tree.get? place ≠ some .directory)
    (hentry : entry ≠ .directory) :
    (tree.put place entry).get? location = some .directory ↔ tree.get? location = some .directory := by
  rw [get?_put]
  split
  · next heq =>
    subst heq
    simp [hplace, hentry]
  · rfl

/-- A file that is put at the end of a way makes no directory and removes none. -/
theorem IsEnd.get?_put_eq_directory_iff (hplace : tree.IsEnd place) :
    (tree.put place (.file content)).get? location = some .directory ↔ tree.get? location = some .directory :=
  FileTree.get?_put_eq_directory_iff hplace.ne_directory (by simp)

/-- Nor does it remove a link. -/
theorem get?_put_of_link (hplace : tree.IsEnd place) {target : List String}
    (h : tree.get? location = some (.link target)) :
    (tree.put place (.file content)).get? location = some (.link target) := by
  rw [get?_put, if_neg, h]
  rintro rfl
  exact hplace.ne_link target h

/-- A path starts at the top if its first name is a directory there, and otherwise where the tree is looked at
from. -/
theorem start_cons (tree : FileTree) (base : Location) (name : String) (names : List String) :
    tree.start base (name :: names) =
      if tree.get? [name] = some .directory then ([name], names) else (base, name :: names) := by
  rw [start]
  split
  · next htop => rw [if_pos htop]
  · next htop => rw [if_neg htop]

/-- A file does not change where paths begin. -/
theorem start_put (hplace : tree.IsEnd place) (base : Location) (names : List String) :
    (tree.put place (.file content)).start base names = tree.start base names := by
  cases names with
  | nil => rfl
  | cons name names => simp only [start_cons, hplace.get?_put_eq_directory_iff]

/-- A file that is written where a way can only end leaves every way as it is. -/
theorem Way.put (h : tree.Way links location names spot) (hplace : tree.IsEnd place) :
    (tree.put place (.file content)).Way links location names spot := by
  induction h with
  | done => exact .done _ _
  | stay directory here _ ih => exact .stay (hplace.get?_put_eq_directory_iff.2 directory) here ih
  | up directory _ ih => exact .up (hplace.get?_put_eq_directory_iff.2 directory) ih
  | down directory not_here not_up short no_link _ ih =>
    refine .down (hplace.get?_put_eq_directory_iff.2 directory) not_here not_up short (fun target ↦ ?_) ih
    rw [get?_put]
    split
    · simp
    · exact no_link target
  | through directory not_here not_up short link _ ih =>
    refine .through (hplace.get?_put_eq_directory_iff.2 directory) not_here not_up short
      (get?_put_of_link hplace link) ?_
    rw [start_put hplace]
    exact ih

/-! ### Reading and writing -/

/-- A path is resolved to where following it leads. -/
theorem resolve_eq_ok_iff : tree.resolve purpose path = .ok place ↔ checkPath path = .ok () ∧ ∃ links,
    tree.follow purpose maxLinks (tree.start tree.current path).1 (tree.start tree.current path).2 =
      .ok ⟨place, links⟩ := by
  unfold resolve trace
  generalize tree.start tree.current path = begun
  obtain ⟨first, names⟩ := begun
  cases checkPath path with
  | error e => simp [bind, Except.bind, Except.map]
  | ok =>
    simp only [bind, Except.bind, true_and]
    cases tree.follow purpose maxLinks first names with
    | error e => simp [Except.map]
    | ok spot =>
      obtain ⟨location, links⟩ := spot
      simp [Except.map]

/-- Writing puts a file where the path leads, and fails on a directory. -/
theorem write_eq_ok_iff {tree' : FileTree} : tree.write path content = .ok tree' ↔
    ∃ place, tree.resolve .create path = .ok place ∧ tree.get? place ≠ some .directory ∧
      tree' = tree.put place (.file content) := by
  unfold write
  cases tree.resolve .create path with
  | error e => simp [bind, Except.bind]
  | ok place =>
    simp only [bind, Except.bind, Except.ok.injEq, exists_eq_left']
    split
    · next hdirectory => simp [hdirectory, throw, throwThe, MonadExceptOf.throw]
    · next hother =>
      rw [show (tree.get? place ≠ some .directory) = True from eq_true hother, true_and]
      exact ⟨fun heq ↦ (Except.ok.inj heq).symm, fun heq ↦ congrArg Except.ok heq.symm⟩

/-- Reading gives the content of the file that the path leads to. -/
theorem read_eq_ok_iff : tree.read path = .ok content ↔
    ∃ place, tree.resolve .use path = .ok place ∧ tree.get? place = some (.file content) := by
  unfold read find
  cases tree.resolve .use path with
  | error e => simp [bind, Except.bind]
  | ok place =>
    simp only [bind, Except.bind, Except.ok.injEq, exists_eq_left']
    cases tree.get? place with
    | none => simp [throw, throwThe, MonadExceptOf.throw]
    | some entry => cases entry <;> simp [pure, Except.pure, throw, throwThe, MonadExceptOf.throw]

/-- What is written under a path is read under that path. -/
theorem read_of_write (htree : tree.IsRooted) {tree' : FileTree} (h : tree.write path content = .ok tree') :
    tree'.read path = .ok content := by
  obtain ⟨place, hplace, hdirectory, rfl⟩ := write_eq_ok_iff.1 h
  obtain ⟨hcheck, links, hfollow⟩ := resolve_eq_ok_iff.1 hplace
  have hway := way_of_follow (by simp) hfollow
  have hend : tree.IsEnd place := by
    refine ⟨hdirectory, fun target ↦ hway.ne_link htree (fun target hlink ↦ ?_) target⟩
    rw [get?_start htree.current] at hlink
    cases hlink
  have hresolve : (tree.put place (.file content)).resolve .use path = .ok place := by
    refine resolve_eq_ok_iff.2 ⟨hcheck, links, ?_⟩
    rw [start_put hend]
    exact follow_of_way (hway.put hend)
  refine read_eq_ok_iff.2 ⟨place, hresolve, ?_⟩
  rw [get?_put, if_pos rfl]

/-! ### Trees that are made -/

/-- A tree with one directory at the top has nothing else. -/
theorem get?_single (top : String) (location : Location) :
    (single top).get? location = if location = [top] ∨ location = [] then some .directory else none := by
  show (((Table.empty : Table Location Entry).put [] .directory).put [top] .directory).find? location = _
  rw [Table.find?_put, Table.find?_put, Table.find?_empty]
  split <;> split <;> simp_all

/-- So it is rooted there. -/
theorem isRooted_single (top : String) : (single top).IsRooted where
  current := rfl
  above location hlocation := by
    rw [get?_single] at hlocation
    rw [get?_single, FileTree.above]
    by_cases hroot : location = [top] ∨ location = []
    · rcases hroot with rfl | rfl
      · split <;> simp
      · simp
    · rw [if_neg hroot] at hlocation
      cases hlocation

/-- The tree of absolute paths has its root and nothing else. -/
theorem get?_root (location : Location) :
    root.get? location = if location = [""] then some .directory else none := by
  show ((Table.empty : Table Location Entry).put [""] .directory).find? location = _
  rw [Table.find?_put, Table.find?_empty]

/-- So it is rooted at the root. -/
theorem isRooted_root : root.IsRooted where
  current := rfl
  above location hlocation := by
    rw [get?_root] at hlocation
    split at hlocation
    · next heq => rw [heq]; rfl
    · cases hlocation

/-- Putting a file or a link takes no directory away, so every directory keeps the one above it. -/
theorem IsRooted.put_of_ne_directory (htree : tree.IsRooted) {entry : Entry} (hentry : entry ≠ .directory)
    (hplace : tree.get? place ≠ some .directory) : (tree.put place entry).IsRooted where
  current := (get?_put_eq_directory_iff hplace hentry).2 htree.current
  above location hlocation :=
    have hbefore := (get?_put_eq_directory_iff hplace hentry).1 hlocation
    (get?_put_eq_directory_iff hplace hentry).2 (htree.above location hbefore)

/-- A directory may be put into one that is there. -/
theorem IsRooted.put_directory (htree : tree.IsRooted)
    (hplace : tree.get? (FileTree.above place) = some .directory) : (tree.put place .directory).IsRooted := by
  have hmore {location : Location} (h : tree.get? location = some .directory) :
      (tree.put place .directory).get? location = some .directory := by
    rw [get?_put, h, ite_self]
  refine ⟨hmore htree.current, fun location hlocation ↦ hmore ?_⟩
  rw [get?_put] at hlocation
  split at hlocation
  · next heq =>
    rw [heq]
    exact hplace
  · exact htree.above _ hlocation

/-- A tree in which a file has been written is rooted. -/
theorem IsRooted.write (htree : tree.IsRooted) {tree' : FileTree} (h : tree.write path content = .ok tree') :
    tree'.IsRooted := by
  obtain ⟨place, -, hplace, rfl⟩ := write_eq_ok_iff.1 h
  exact htree.put_of_ne_directory (by simp) hplace

/-- Making a link keeps a tree rooted. -/
theorem IsRooted.makeLink (htree : tree.IsRooted) (path target : List String) :
    (tree.makeLink path target).IsRooted := by
  unfold FileTree.makeLink
  split
  · exact htree
  · next place _ =>
    split
    · exact htree
    · next hnone => exact htree.put_of_ne_directory (by simp) (by simp_all)

/-- Making a directory leaves what is there already. -/
theorem get?_makeDirectory {entry : Entry} (h : tree.get? location = some entry) (place : Location) :
    (tree.makeDirectory place).get? location = some entry := by
  unfold makeDirectory
  split
  · exact h
  · next hnone =>
    rw [get?_put, if_neg, h]
    rintro rfl
    simp [h] at hnone

/-- Making a directory inside one that is there keeps a tree rooted. -/
theorem IsRooted.makeDirectory (htree : tree.IsRooted)
    (hplace : tree.get? (FileTree.above place) = some .directory) : (tree.makeDirectory place).IsRooted := by
  unfold FileTree.makeDirectory
  split
  · exact htree
  · exact htree.put_directory hplace

/-- Making what is missing along a path keeps a tree rooted, as each name is put into a directory. -/
theorem IsRooted.makeAlong (htree : tree.IsRooted)
    (hlocation : tree.get? (FileTree.above location) = some .directory) (links : Nat) (names : List String) :
    (tree.makeAlong links location names).IsRooted := by
  induction names generalizing tree links location with
  | nil => exact htree
  | cons name names ih =>
    rw [FileTree.makeAlong]
    split
    · exact htree
    · next spot hspot =>
      have habove := (way_of_follow (by simp) hspot).above_end htree hlocation
      exact ih (htree.makeDirectory habove) (get?_makeDirectory habove _) spot.links

/-- A tree in which directories have been made is rooted. -/
theorem IsRooted.makeDirectories (htree : tree.IsRooted) (path : List String) :
    (tree.makeDirectories path).IsRooted := by
  unfold FileTree.makeDirectories
  split
  · exact htree
  · exact htree.makeAlong (htree.above _ (get?_start htree.current path)) _ _

end FileTree

end TypeSystem
