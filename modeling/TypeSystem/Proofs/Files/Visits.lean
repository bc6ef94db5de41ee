import Mathlib.Data.List.Sort
import Mathlib.Data.String.Basic
import TypeSystem.Files.Walk
import TypeSystem.Proofs.Failing
import TypeSystem.Proofs.Files.Naming

/-!
# Visits

What a walk visits can be said without a walk (`FileTree.Visits`): a file is visited once each time it is come
to; a directory is visited through its entries, in the order of their names; and a link through what the whole
path leads to. There is no more than one list of visits (`FileTree.Visits.unique`), and a walk that comes to its
end has met the files on it, in this order (`FileTree.visits_of_walk`).

A walk does not look up whole paths. It follows one name from the directory that it is inside of, with the links
left there, which comes to the same (`FileTree.reach_child`).
-/

namespace TypeSystem

namespace FileTree

variable {tree : FileTree} {place location : Location} {path name : String} {names names' paths : List String}
  {content : List UInt8} {spot : Spot} {ancestors : List Ancestor} {entries entries' : List (String × Location)}
  {visits visits' : List Visit}

/-! ### Listings -/

/-- The names of everything in a directory, each once and in order. -/
structure Lists (tree : FileTree) (directory : Location) (names : List String) : Prop where
  sorted : names.Pairwise (· < ·)
  mem_iff : ∀ name, name ∈ names ↔ tree.get? (directory ++ [name]) ≠ none

/-- A directory has one list of names: it is sorted, and it has the names of all entries. -/
theorem Lists.unique (h : tree.Lists place names) (h' : tree.Lists place names') : names = names' := by
  have hnodup (names : List String) (hsorted : names.Pairwise (· < ·)) : names.Nodup :=
    List.Pairwise.imp ne_of_lt hsorted
  have hperm : names.Perm names' := (List.perm_ext_iff_of_nodup (hnodup _ h.sorted) (hnodup _ h'.sorted)).2
    fun name ↦ (h.mem_iff name).trans (h'.mem_iff name).symm
  have hantisymm (a b : String) (_ : a ∈ names) (_ : b ∈ names') (hab : a < b) (hba : b < a) : a = b :=
    absurd hab (lt_asymm hba)
  exact hperm.eq_of_pairwise hantisymm h.sorted h'.sorted

/-- The names in a directory are those with an entry. -/
theorem mem_namesIn_iff : name ∈ tree.namesIn place ↔ tree.get? (place ++ [name]) ≠ none := by
  rw [namesIn, List.mem_mergeSort, List.mem_filterMap, ← Option.isSome_iff_ne_none, get?, Table.find?_isSome_iff]
  constructor
  · rintro ⟨location, hlocation, hname⟩
    split at hname
    · next hplace =>
      obtain ⟨front, rfl⟩ := List.getLast?_eq_some_iff.1 hname
      rw [List.dropLast_concat] at hplace
      rwa [← hplace]
    · cases hname
  · intro hmem
    exact ⟨_, hmem, by rw [List.dropLast_concat, if_pos rfl, List.getLast?_concat]⟩

/-- Two places in one directory with one name are the same. -/
theorem nodup_namesIn (h : tree.locations.Nodup) (place : Location) : (tree.namesIn place).Nodup := by
  rw [namesIn, (List.mergeSort_perm _ _).nodup_iff]
  refine h.filterMap fun location location' name hname hname' ↦ ?_
  simp only [Option.mem_def, Option.ite_none_right_eq_some] at hname hname'
  obtain ⟨front, rfl⟩ := List.getLast?_eq_some_iff.1 hname.2
  obtain ⟨front', rfl⟩ := List.getLast?_eq_some_iff.1 hname'.2
  rw [List.dropLast_concat] at hname hname'
  rw [hname.1, hname'.1]

/-- The names that a walk goes through are such a list. -/
theorem lists_namesIn (h : tree.locations.Nodup) (place : Location) : tree.Lists place (tree.namesIn place) where
  sorted := by
    have htrans (a b c : String) (hab : decide (a ≤ b)) (hbc : decide (b ≤ c)) : decide (a ≤ c) :=
      decide_eq_true (le_trans (of_decide_eq_true hab) (of_decide_eq_true hbc))
    have htotal (a b : String) : decide (a ≤ b) || decide (b ≤ a) := by
      simpa using le_total a b
    have hle : (tree.namesIn place).Pairwise fun a b ↦ decide (a ≤ b) := List.pairwise_mergeSort htrans htotal _
    exact hle.imp₂ (fun _ _ hle hne ↦ lt_of_le_of_ne (of_decide_eq_true hle) hne) (nodup_namesIn h place)
  mem_iff _ := mem_namesIn_iff

/-! ### What is visited -/

/-- The entries of a directory: the path to each from that of the directory, and its place. -/
def entriesOf (path : String) (place : Location) (names : List String) : List (String × Location) :=
  names.map fun name ↦ (Path.child path name, place ++ [name])

/-- The files that are visited where paths lead past the places given with them, in order. -/
inductive Visits (tree : FileTree) : List (String × Location) → List Visit → Prop where
  | none : Visits tree [] []
  | file {path : String} {place : Location} {content : List UInt8} {others : List (String × Location)}
      {later : List Visit} (entry : tree.get? place = some (.file content)) (rest : Visits tree others later) :
      Visits tree ((path, place) :: others) (⟨path, place⟩ :: later)
  | directory {path : String} {place : Location} {names : List String} {others : List (String × Location)}
      {inner later : List Visit} (entry : tree.get? place = some .directory) (lists : tree.Lists place names)
      (inside : Visits tree (entriesOf path place names) inner) (rest : Visits tree others later) :
      Visits tree ((path, place) :: others) (inner ++ later)
  | link {path : String} {place stop : Location} {target : List String} {others : List (String × Location)}
      {inner later : List Visit} (entry : tree.get? place = some (.link target))
      (leads : tree.resolve .use (Path.names path) = .ok stop) (beyond : Visits tree [(path, stop)] inner)
      (rest : Visits tree others later) : Visits tree ((path, place) :: others) (inner ++ later)

namespace Visits

/-- Visits of some entries, followed by the visits of others, are the visits of all. -/
theorem append (h : tree.Visits entries visits) (h' : tree.Visits entries' visits') :
    tree.Visits (entries ++ entries') (visits ++ visits') := by
  induction h with
  | none => exact h'
  | file entry _ ih => exact .file entry ih
  | directory entry lists inside _ _ ih =>
    rw [List.append_assoc]
    exact .directory entry lists inside ih
  | link entry leads beyond _ _ ih =>
    rw [List.append_assoc]
    exact .link entry leads beyond ih

/-- There is no more than one list of visits. -/
theorem unique (h : tree.Visits entries visits) (h' : tree.Visits entries visits') : visits = visits' := by
  -- what is at the first place decides how its path goes on
  induction h generalizing visits' with
  | none =>
    cases h'
    rfl
  | file entry _ ih =>
    cases h' with
    | file _ rest => rw [ih rest]
    | directory entry' => simp [entry] at entry'
    | link entry' => simp [entry] at entry'
  | directory entry lists _ _ ihInside ih =>
    cases h' with
    | file entry' => simp [entry] at entry'
    | directory _ lists' inside rest =>
      obtain rfl := lists.unique lists'
      rw [ihInside inside, ih rest]
    | link entry' => simp [entry] at entry'
  | link entry leads _ _ ihBeyond ih =>
    cases h' with
    | file entry' => simp [entry] at entry'
    | directory entry' => simp [entry] at entry'
    | link _ leads' beyond rest =>
      obtain rfl := Except.ok.inj (leads.symm.trans leads')
      rw [ihBeyond beyond, ih rest]

/-- What is visited is a file, so never a directory or a link. -/
theorem isFile (h : tree.Visits entries visits) {visit : Visit} (hvisit : visit ∈ visits) :
    ∃ content, tree.get? visit.location = some (.file content) := by
  induction h with
  | none => cases hvisit
  | file entry _ ih =>
    rcases List.mem_cons.1 hvisit with rfl | hvisit
    · exact ⟨_, entry⟩
    · exact ih hvisit
  | directory _ _ _ _ ihInside ih => exact (List.mem_append.1 hvisit).elim ihInside ih
  | link _ _ _ _ ihBeyond ih => exact (List.mem_append.1 hvisit).elim ihBeyond ih

end Visits

/-! ### Following names one by one -/

/-- Where a path leads if its links are followed, however long it is. -/
def reach (tree : FileTree) (path : List String) : Except FileError Spot :=
  tree.follow .use maxLinks (tree.start tree.current path).1 (tree.start tree.current path).2

/-- Tracing a path checks that it is a path at all, and then follows it. -/
theorem trace_use_eq (tree : FileTree) (path : List String) :
    tree.trace .use path = checkPath path >>= fun _ ↦ tree.reach path := rfl

/-- Where a path starts is decided by its first names. -/
theorem start_append {front : List String} (hfront : front ≠ []) (base : Location) (back : List String) :
    tree.start base (front ++ back) = ((tree.start base front).1, (tree.start base front).2 ++ back) := by
  obtain ⟨first, others, rfl⟩ := List.exists_cons_of_ne_nil hfront
  rw [List.cons_append, start_cons, start_cons]
  split <;> rfl

/-- A path is reached by reaching a front of it and following the rest from there, with the links that are
left. -/
theorem reach_append {front : List String} (hfront : front ≠ []) (back : List String) :
    tree.reach (front ++ back) =
      tree.reach front >>= fun spot ↦ tree.follow .use spot.links spot.location back := by
  rw [reach, start_append hfront, follow_append]
  rfl

/-- Where nothing is named, everything stays as it is in a directory. -/
theorem follow_here (links : ℕ) (location : Location) :
    tree.follow .use links location [""] = (tree.enter location).map fun _ ↦ ⟨location, links⟩ := by
  rw [follow]
  cases tree.enter location with
  | error e => rfl
  | ok => rw [if_pos (by decide), follow]; rfl

/-- A name in a directory is followed from where the path of the directory leads. -/
theorem reach_child (path : String) (hname : '/' ∉ name.toList) :
    tree.reach (Path.names (Path.child path name)) =
      tree.reach (Path.names path) >>= fun spot ↦ tree.follow .use spot.links spot.location [name] := by
  obtain ⟨front, hfront, hchild, hpath | hpath⟩ := Path.names_child path hname
  · rw [hchild, hpath, reach_append hfront]
  · rw [hchild, hpath, reach_append hfront, reach_append hfront]
    cases tree.reach front with
    | error e => rfl
    | ok spot =>
      show tree.follow .use spot.links spot.location [name] =
        tree.follow .use spot.links spot.location [""] >>= _
      cases henter : tree.enter spot.location with
      | error e =>
        rw [follow, follow_here, henter]
        rfl
      | ok =>
        rw [follow_here, henter]
        rfl

/-- A name in a directory leads to the place that it names, unless a link is there. -/
theorem eq_of_follow_name (hname : IsName name) (hlink : ∀ target, tree.get? (location ++ [name]) ≠ some (.link target))
    {links : ℕ} (h : tree.follow .use links location [name] = .ok spot) : spot = ⟨location ++ [name], links⟩ := by
  cases way_of_follow (by simp) h with
  | stay _ here => exact absurd here hname.not_here
  | up => exact absurd rfl hname.not_up
  | down _ _ _ _ _ others =>
    cases others
    rfl
  | through _ _ _ _ link => exact absurd link (hlink _)

/-! ### Where paths end -/

/-- The path does not lead elsewhere than to the place, unless a link is there. -/
def EndsAt (tree : FileTree) (path : String) (place : Location) : Prop :=
  (∀ target, tree.get? place ≠ some (.link target)) →
    ∀ spot, tree.reach (Path.names path) = .ok spot → spot.location = place

/-- A path that is reached ends at the place that it reaches. -/
theorem endsAt_of_reach (h : tree.reach (Path.names path) = .ok spot) : tree.EndsAt path spot.location := by
  intro _ spot' h'
  rw [Except.ok.inj (h.symm.trans h')]

/-- A path that is resolved is reached. -/
theorem reach_of_resolve (h : tree.resolve .use (Path.names path) = .ok place) :
    ∃ links, tree.reach (Path.names path) = .ok ⟨place, links⟩ :=
  (resolve_eq_ok_iff.1 h).2

/-- A path ends where looking at it leads, if that is no link. -/
theorem endsAt_of_inspect (h : tree.resolve .inspect (Path.names path) = .ok place) : tree.EndsAt path place := by
  intro hlink
  obtain ⟨-, links, hfollow⟩ := resolve_eq_ok_iff.1 h
  exact endsAt_of_reach (follow_of_way (way_of_follow (fun _ ↦ hlink) hfollow)) hlink

/-- A name behind a path that ends at a directory ends at the name's place in the directory. -/
theorem EndsAt.child (h : tree.EndsAt path place) (hplace : tree.get? place = some .directory)
    (hname : IsName name) : tree.EndsAt (Path.child path name) (place ++ [name]) := by
  intro hlink spot hspot
  rw [reach_child path hname.no_slash] at hspot
  obtain ⟨above, hreach, hspot⟩ := Except.bind_eq_ok_iff.1 hspot
  obtain rfl := h (by simp [hplace]) above hreach
  exact congrArg Spot.location (eq_of_follow_name hname hlink hspot)

/-- A path that leads past a place is the path of what is visited there. -/
theorem Visits.endsAt (h : tree.Visits entries visits) (htree : tree.IsOrderly)
    (hentries : ∀ entry ∈ entries, tree.EndsAt entry.1 entry.2) :
    ∀ visit ∈ visits, tree.EndsAt visit.path visit.location := by
  induction h with
  | none => exact List.forall_mem_nil _
  | file _ _ ih =>
    obtain ⟨hfirst, hothers⟩ := List.forall_mem_cons.1 hentries
    exact List.forall_mem_cons.2 ⟨hfirst, ih hothers⟩
  | directory entry lists _ _ ihInside ih =>
    obtain ⟨hfirst, hothers⟩ := List.forall_mem_cons.1 hentries
    refine List.forall_mem_append.2 ⟨ihInside ?_, ih hothers⟩
    intro inside hinside
    obtain ⟨name, hname, rfl⟩ := List.mem_map.1 hinside
    exact hfirst.child entry (htree.isName_of_get? entry ((lists.mem_iff name).1 hname))
  | link _ leads _ _ ihBeyond ih =>
    obtain ⟨links, hreach⟩ := reach_of_resolve leads
    refine List.forall_mem_append.2 ⟨ihBeyond ?_, ih (List.forall_mem_cons.1 hentries).2⟩
    exact List.forall_mem_singleton.2 (endsAt_of_reach hreach)

/-- A path is located by following it from its start, with all links allowed. -/
theorem locate_eq_ok_iff : tree.locate names = .ok location ↔ ∃ links,
    tree.follow .locate maxLinks (tree.start tree.current names).1 (tree.start tree.current names).2 =
      .ok ⟨location, links⟩ := by
  show (tree.follow .locate maxLinks _ _).map Spot.location = .ok location ↔ _
  rw [Except.map_eq_ok_iff]
  constructor
  · rintro ⟨⟨place, links⟩, hfollow, rfl⟩
    exact ⟨links, hfollow⟩
  · rintro ⟨links, hfollow⟩
    exact ⟨_, hfollow, rfl⟩

/-- The place to which a path is located is the one at which it ends. -/
theorem EndsAt.eq_of_locate (h : tree.EndsAt path place) (hplace : ∀ target, tree.get? place ≠ some (.link target))
    (hlocate : tree.locate (Path.names path) = .ok location) : location = place := by
  obtain ⟨links, hfollow⟩ := locate_eq_ok_iff.1 hlocate
  exact h hplace _ (follow_of_way (way_of_follow (by simp) hfollow))

/-! ### What a walk meets -/

/-- A walk has come into a directory by its path. -/
structure IsEntered (tree : FileTree) (directory : Ancestor) : Prop where
  is_directory : tree.get? directory.location = some .directory
  reached : tree.reach (Path.names directory.path) = .ok ⟨directory.location, directory.links⟩

/-- From inside of a directory, a name leads where the whole path leads. -/
theorem IsEntered.traceIn_eq {directory : Ancestor} (h : tree.IsEntered directory) (hname : '/' ∉ name.toList) :
    tree.traceIn directory name = tree.trace .use (Path.names (Path.child directory.path name)) := by
  rw [trace_use_eq, reach_child directory.path hname, h.reached]
  rfl

/-- The path by which a directory was entered ends at the directory. -/
theorem IsEntered.endsAt {directory : Ancestor} (h : tree.IsEntered directory) :
    tree.EndsAt directory.path directory.location :=
  endsAt_of_reach h.reached

/-- A traced path is resolved to the same place. -/
theorem resolve_of_trace (h : tree.trace .use (Path.names path) = .ok spot) :
    tree.resolve .use (Path.names path) = .ok spot.location := by
  rw [resolve, h]
  rfl

/-- A traced path is reached. -/
theorem reach_of_trace (h : tree.trace .use (Path.names path) = .ok spot) :
    tree.reach (Path.names path) = .ok spot := by
  rw [trace_use_eq] at h
  obtain ⟨-, -, h⟩ := Except.bind_eq_ok_iff.1 h
  exact h

/-- A path that is used does not lead to a link. -/
theorem ne_link_of_reach (htree : tree.IsRooted) (h : tree.reach (Path.names path) = .ok spot) (target : List String) :
    tree.get? spot.location ≠ some (.link target) := by
  refine (way_of_follow (by simp) h).ne_link htree (fun target hlink ↦ ?_) target
  rw [get?_start htree.current] at hlink
  cases hlink

/-- A file that is met is what is visited. -/
theorem visits_of_meet_file (htree : tree.IsRooted) {visit : Visit}
    (h : tree.meet ancestors path place (tree.trace .use (Path.names path)) = .ok (.file visit)) :
    tree.Visits [(path, place)] [visit] := by
  unfold meet at h
  split at h
  · cases h
  · next hfile =>
    obtain ⟨⟩ := h
    exact .file hfile .none
  · cases h
  · cases h
  · next target spot hlink htrace =>
    split at h
    · cases h
    · split at h <;> cases h
    · next entry hdirectory hentry =>
      obtain ⟨⟩ := h
      cases entry with
      | directory => exact absurd rfl hdirectory
      | link target => exact absurd hentry (ne_link_of_reach htree (reach_of_trace htrace) target)
      | file content => exact .link hlink (resolve_of_trace htrace) (.file hentry .none) .none

/-- A directory that is met is come into, and visited through its entries. -/
theorem isEntered_of_meet {met : Ancestor} (hends : tree.EndsAt path place)
    (h : tree.meet ancestors path place (tree.trace .use (Path.names path)) = .ok (.directory met)) :
    tree.IsEntered met ∧ ∀ visits names, tree.Lists met.location names →
      tree.Visits (entriesOf met.path met.location names) visits → tree.Visits [(path, place)] visits := by
  unfold meet at h
  split at h
  · cases h
  · cases h
  · cases h
  · next spot hdirectory htrace =>
    obtain ⟨⟩ := h
    have hreach := reach_of_trace htrace
    -- a directory is not a link, so its path leads to the directory itself
    obtain rfl := hends (by simp [hdirectory]) spot hreach
    refine ⟨⟨hdirectory, hreach⟩, fun visits names hlists hinside ↦ ?_⟩
    exact List.append_nil visits ▸ .directory hdirectory hlists hinside .none
  · next target spot hlink htrace =>
    split at h
    · cases h
    · next hdirectory =>
      split at h
      · cases h
      · obtain ⟨⟩ := h
        refine ⟨⟨hdirectory, reach_of_trace htrace⟩, fun visits names hlists hinside ↦ ?_⟩
        have hbeyond : tree.Visits [(path, spot.location)] visits :=
          List.append_nil visits ▸ .directory hdirectory hlists hinside .none
        exact List.append_nil visits ▸ .link hlink (resolve_of_trace htrace) hbeyond .none
    · cases h

/-! ### What a walk visits -/

/-- One walk after another fails nowhere just if neither does. -/
theorem failure_andThen_eq_none_iff {walk : Walk} {later : Unit → Walk} :
    (walk.andThen later).failure = none ↔ walk.failure = none ∧ (later ()).failure = none := by
  unfold Walk.andThen
  split
  · next hfailure => simp [hfailure]
  · next hnone => simp [hnone]

/-- If the first walk does not fail, the visits of the second come behind its own. -/
theorem visits_andThen {walk : Walk} {later : Unit → Walk} (h : walk.failure = none) :
    (walk.andThen later).visits = walk.visits ++ (later ()).visits := by
  rw [Walk.andThen, h]

/-- A walk inside of a directory that comes to its end has met what is visited through its entries. -/
theorem visits_of_walkNames (htree : tree.IsOrderly) {directory : Ancestor} (hdirectory : tree.IsEntered directory)
    (hnames : ∀ name ∈ names, IsName name) (h : (tree.walkNames directory ancestors names).failure = none) :
    tree.Visits (entriesOf directory.path directory.location names)
      (tree.walkNames directory ancestors names).visits := by
  fun_induction walkNames tree directory ancestors names with
  | case1 => exact .none
  | case2 => cases h
  | case3 directory ancestors name names visit hmeet ih =>
    obtain ⟨hname, hothers⟩ := List.forall_mem_cons.1 hnames
    rw [hdirectory.traceIn_eq hname.no_slash] at hmeet
    rw [visits_andThen rfl]
    exact (visits_of_meet_file htree.toIsRooted hmeet).append
      (ih hdirectory hothers (failure_andThen_eq_none_iff.1 h).2)
  | case4 directory ancestors name names met hmeet ihInside ih =>
    obtain ⟨hname, hothers⟩ := List.forall_mem_cons.1 hnames
    obtain ⟨hinside, hlater⟩ := failure_andThen_eq_none_iff.1 h
    -- the walk follows the name alone, but what it meets is said of the whole path
    rw [hdirectory.traceIn_eq hname.no_slash] at hmeet
    obtain ⟨hmet, hvisits⟩ := isEntered_of_meet (hdirectory.endsAt.child hdirectory.is_directory hname) hmeet
    have hnamesIn (name : String) (hmem : name ∈ tree.namesIn met.location) : IsName name :=
      htree.isName_of_get? hmet.is_directory (mem_namesIn_iff.1 hmem)
    rw [visits_andThen hinside]
    exact (hvisits _ _ (lists_namesIn htree.nodup _) (ihInside hmet hnamesIn hinside)).append
      (ih hdirectory hothers hlater)

/-- What is visited under a path. -/
def VisitsUnder (tree : FileTree) (path : String) (visits : List Visit) : Prop :=
  ∃ place, tree.resolve .inspect (Path.names path) = .ok place ∧ tree.Visits [(path, place)] visits

/-- What a path visits is determined: there is one list for it. -/
theorem VisitsUnder.unique (h : tree.VisitsUnder path visits) (h' : tree.VisitsUnder path visits') :
    visits = visits' := by
  obtain ⟨place, hplace, hvisits⟩ := h
  obtain ⟨place', hplace', hvisits'⟩ := h'
  obtain rfl := Except.ok.inj (hplace.symm.trans hplace')
  exact hvisits.unique hvisits'

/-- A file that is visited is located where it was met. -/
theorem VisitsUnder.eq_of_locate (h : tree.VisitsUnder path visits) (htree : tree.IsOrderly) {visit : Visit}
    (hvisit : visit ∈ visits) (hlocate : tree.locate (Path.names visit.path) = .ok location) :
    location = visit.location := by
  obtain ⟨place, hplace, hvisits⟩ := h
  obtain ⟨content, hfile⟩ := hvisits.isFile hvisit
  have hends := hvisits.endsAt htree (List.forall_mem_singleton.2 (endsAt_of_inspect hplace)) visit hvisit
  exact hends.eq_of_locate (by simp [hfile]) hlocate

/-- Under the path of a file there is nothing to visit but the file. -/
theorem VisitsUnder.eq_of_file (h : tree.VisitsUnder path visits)
    (hresolve : tree.resolve .use (Path.names path) = .ok location)
    (hfile : tree.get? location = some (.file content)) : visits = [⟨path, location⟩] := by
  obtain ⟨place, hplace, hvisits⟩ := h
  have hends := endsAt_of_inspect hplace
  obtain ⟨links, hreach⟩ := reach_of_resolve hresolve
  have heq (hlink : ∀ target, tree.get? place ≠ some (.link target)) : location = place := hends hlink _ hreach
  have hbeyond : tree.Visits [(path, location)] [⟨path, location⟩] := .file hfile .none
  cases hvisits with
  | file entry rest =>
    cases rest
    rw [heq (by simp [entry])]
  | directory entry =>
    rw [heq (by simp [entry]), entry] at hfile
    cases hfile
  | link entry leads beyond rest =>
    cases rest
    obtain rfl := Except.ok.inj (leads.symm.trans hresolve)
    rw [List.append_nil]
    exact beyond.unique hbeyond

/-- A walk that comes to its end has met what is visited under its path. -/
theorem visits_of_walk (htree : tree.IsOrderly) (h : (tree.walk path).failure = none) :
    tree.VisitsUnder path (tree.walk path).visits := by
  unfold walk at h ⊢
  split at h
  · cases h
  · next place hplace =>
    refine ⟨place, hplace, ?_⟩
    split at h
    · cases h
    · next visit hmeet => exact visits_of_meet_file htree.toIsRooted hmeet
    · next met hmeet =>
      obtain ⟨hmet, hvisits⟩ := isEntered_of_meet (endsAt_of_inspect hplace) hmeet
      refine hvisits _ _ (lists_namesIn htree.nodup _) (visits_of_walkNames htree hmet (fun name hname ↦ ?_) h)
      exact htree.isName_of_get? hmet.is_directory (mem_namesIn_iff.1 hname)

/-! ### Directories with files only -/

section

variable {top : String}

/-- A directory at the top is followed to for any purpose. -/
theorem follow_top (purpose : Purpose) (htop : tree.get? [top] = some .directory) :
    tree.follow purpose maxLinks (tree.start tree.current [top]).1 (tree.start tree.current [top]).2 =
      .ok ⟨[top], maxLinks⟩ := by
  rw [start_cons, if_pos htop, follow]

/-- And so is what stands in it under a name, unless that is a link, or the name or the path is too long. -/
theorem follow_in_top (purpose : Purpose) (htop : tree.get? [top] = some .directory) (hname : IsName name)
    (hshort : name.utf8ByteSize ≤ maxNameBytes) (hpath : ¬ isTooLong [top, name])
    (hlink : ∀ target, tree.get? [top, name] ≠ some (.link target)) :
    tree.follow purpose maxLinks (tree.start tree.current [top, name]).1 (tree.start tree.current [top, name]).2 =
      .ok ⟨[top, name], maxLinks⟩ := by
  rw [start_cons, if_pos htop, follow, enter_eq_ok_iff.2 htop]
  dsimp only [List.cons_append, List.nil_append]
  rw [if_neg hname.not_here, if_neg hname.not_up, if_neg (by simp), if_neg (Nat.not_lt.2 hshort),
    if_neg (not_and_of_not_right _ hpath)]
  split
  · next heq => exact absurd heq (hlink _)
  · rw [follow]

/-- A walk of a directory at the top that holds files only meets them, in the order of their names. -/
theorem walk_of_files (hcheck : checkPath [top] = .ok ()) (hnames : Path.names top = [top])
    (htop : tree.get? [top] = some .directory)
    (hfiles : ∀ name ∈ tree.namesIn [top], ∃ content, tree.get? [top, name] = some (.file content)) :
    tree.walk top = .ofVisits ((tree.namesIn [top]).map fun name ↦ ⟨Path.child top name, [top, name]⟩) := by
  have hresolve : tree.resolve .inspect [top] = .ok [top] :=
    resolve_eq_ok_iff.2 ⟨hcheck, _, follow_top .inspect htop⟩
  have htrace : tree.trace .use [top] = .ok ⟨[top], maxLinks⟩ := by
    rw [trace_use_eq, hcheck]
    exact follow_top .use htop
  have hmeet : tree.meet [] top [top] (.ok ⟨[top], maxLinks⟩) = .ok (.directory ⟨top, [top], maxLinks⟩) := by
    simp [meet, htop]
  simp only [walk, hnames, hresolve, htrace, hmeet]
  -- induction on the names; only that each is the name of a file is known of them
  generalize tree.namesIn [top] = names at hfiles
  induction names with
  | nil => rw [walkNames]; rfl
  | cons name names ih =>
    obtain ⟨⟨content, hfile⟩, hothers⟩ := List.forall_mem_cons.1 hfiles
    have hmeet : tree.meet [⟨top, [top], maxLinks⟩] (Path.child top name) ([top] ++ [name])
        (tree.traceIn ⟨top, [top], maxLinks⟩ name) = .ok (.file ⟨Path.child top name, [top, name]⟩) := by
      simp [meet, hfile]
    rw [walkNames_of_file hmeet, ih hothers]
    rfl

end

/-! ### Several paths -/

/-- What is visited under paths, one after another. -/
def VisitsAll (tree : FileTree) (paths : List String) (visits : List Visit) : Prop :=
  ∃ groups, List.Forall₂ tree.VisitsUnder paths groups ∧ visits = groups.flatten

/-- No paths visit nothing. -/
theorem visitsAll_nil : tree.VisitsAll [] [] := ⟨[], .nil, rfl⟩

/-- The visits of a first path come before those of the others. -/
theorem VisitsAll.cons (h : tree.VisitsAll paths visits') (hpath : tree.VisitsUnder path visits) :
    tree.VisitsAll (path :: paths) (visits ++ visits') := by
  obtain ⟨groups, hgroups, rfl⟩ := h
  exact ⟨visits :: groups, .cons hpath hgroups, rfl⟩

/-- A single path visits what it visits alone. -/
theorem visitsAll_singleton_iff : tree.VisitsAll [path] visits ↔ tree.VisitsUnder path visits := by
  constructor
  · rintro ⟨_, _ | ⟨hpath, _ | _⟩, rfl⟩
    simpa using hpath
  · intro h
    exact ⟨[visits], .cons h .nil, by simp⟩

/-- What several paths visit is determined too. -/
theorem VisitsAll.unique (h : tree.VisitsAll paths visits) (h' : tree.VisitsAll paths visits') :
    visits = visits' := by
  obtain ⟨groups, hgroups, rfl⟩ := h
  obtain ⟨groups', hgroups', rfl⟩ := h'
  congr 1
  induction hgroups generalizing groups' with
  | nil =>
    cases hgroups'
    rfl
  | cons hpath _ ih =>
    cases hgroups' with
    | cons hpath' hothers' => rw [hpath.unique hpath', ih _ hothers']

/-- The place of a visit is the place that its path leads to, whichever of the paths it was found under. -/
theorem VisitsAll.eq_of_locate (h : tree.VisitsAll paths visits) (htree : tree.IsOrderly) {visit : Visit}
    (hvisit : visit ∈ visits) (hlocate : tree.locate (Path.names visit.path) = .ok location) :
    location = visit.location := by
  obtain ⟨groups, hgroups, rfl⟩ := h
  induction hgroups with
  | nil => cases hvisit
  | cons hpath _ ih =>
    rw [List.flatten_cons] at hvisit
    rcases List.mem_append.1 hvisit with hvisit | hvisit
    · exact hpath.eq_of_locate htree hvisit hlocate
    · exact ih hvisit

end FileTree

end TypeSystem
