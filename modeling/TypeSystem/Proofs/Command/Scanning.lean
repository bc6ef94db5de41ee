import TypeSystem.Command.Scan
import TypeSystem.Proofs.Files.Rearranging

/-!
# What a scan accounts for

A scan that succeeds has met every file that its paths visit, path by path, and has kept it or counted it
(`Command.Scan.Accounts`). Which are kept is said in terms of their names alone (`Command.Scan.Wants`). Only a
single path to a file that is not wanted is treated otherwise: this file is the only one met, so that the one
that was counted is taken off again.

Nothing of this depends on the order in which the tree was made, as walks do not.
-/

namespace TypeSystem

namespace Command.Scan

variable {tree : FileTree} {extensions paths : List String} {path : String} {location : Location}
  {visit : Visit} {visits visits' : List Visit} {before between after scan : Scan}

/-! ### Wanted extensions -/

/-- The file under the path has one of the extensions, which may be given with dots in front. -/
def Wants (extensions : List String) (path : String) : Prop :=
  ∃ ext, Path.HasExtension path ext ∧ ∃ given ∈ extensions, ∃ dots : List Char,
    (∀ c ∈ dots, c = '.') ∧ given.toList = dots ++ ext.toList

/-- Without the dots in front a word is some letters that have no dot just if it is dots and then those
letters. -/
theorem dropWhile_dots_eq_iff {given ext : List Char} (hext : '.' ∉ ext) :
    given.dropWhile (· = '.') = ext ↔ ∃ dots : List Char, (∀ c ∈ dots, c = '.') ∧ given = dots ++ ext := by
  constructor
  · intro h
    refine ⟨given.takeWhile (· = '.'), fun c hc ↦ ?_, ?_⟩
    · exact of_decide_eq_true (List.all_eq_true.1 List.all_takeWhile c hc)
    · rw [← h, List.takeWhile_append_dropWhile]
  · rintro ⟨dots, hdots, rfl⟩
    rw [List.dropWhile_append_of_pos (by simpa using hdots)]
    cases ext with
    | nil => rfl
    | cons c cs => exact List.dropWhile_cons_of_neg fun hdot ↦ hext (of_decide_eq_true hdot ▸ List.mem_cons_self)

/-- An extension without a dot is wanted if one of the given ones is that extension behind any number of dots.
-/
theorem mem_wanted_iff {ext : String} (hext : '.' ∉ ext.toList) : ext ∈ wanted extensions ↔
    ∃ given ∈ extensions, ∃ dots : List Char, (∀ c ∈ dots, c = '.') ∧ given.toList = dots ++ ext.toList := by
  simp only [wanted, List.mem_map, ← dropWhile_dots_eq_iff hext]
  refine exists_congr fun given ↦ and_congr_right fun _ ↦ ?_
  rw [← String.toList_inj, String.toList_ofList]

/-- The test for a file's extension decides `Wants`, which says it by the name of the file. -/
theorem isWanted_iff : isWanted extensions visit ↔ Wants extensions visit.path := by
  have hiff (ext : String) : Path.extension? visit.path = some ext ∧ ext ∈ wanted extensions ↔
      Path.HasExtension visit.path ext ∧ ∃ given ∈ extensions, ∃ dots : List Char,
        (∀ c ∈ dots, c = '.') ∧ given.toList = dots ++ ext.toList := by
    rw [Path.extension?_eq_some_iff]
    refine and_congr_right fun hext ↦ mem_wanted_iff ?_
    obtain ⟨_, _, _, _, _, _, _, hdot⟩ := hext
    exact hdot
  rw [Wants, ← exists_congr hiff, isWanted]
  cases Path.extension? visit.path with
  | none => simp
  | some ext => simp

instance : Decidable (Wants extensions path) :=
  decidable_of_iff (isWanted extensions ⟨path, []⟩) isWanted_iff

/-- The files that are wanted. -/
def wantedOf (extensions : List String) (visits : List Visit) : List Visit :=
  visits.filter fun visit ↦ Wants extensions visit.path

/-! ### Scanning on -/

/-- The later scan has kept the wanted files of some more, all of which can be located, and has counted the
others. -/
structure Adds (tree : FileTree) (extensions : List String) (visits : List Visit) (before after : Scan) : Prop where
  kept : after.kept = before.kept ++ (wantedOf extensions visits).map Visit.location
  skipped : after.skipped + (wantedOf extensions visits).length = before.skipped + visits.length
  located : ∀ visit ∈ wantedOf extensions visits, ∃ location, tree.locate (Path.names visit.path) = .ok location

namespace Adds

theorem none (scan : Scan) : Adds tree extensions [] scan scan :=
  ⟨(List.append_nil _).symm, rfl, List.forall_mem_nil _⟩

/-- One run of visits after another. -/
theorem append (h : Adds tree extensions visits before between) (h' : Adds tree extensions visits' between after) :
    Adds tree extensions (visits ++ visits') before after := by
  have hsplit : wantedOf extensions (visits ++ visits') = wantedOf extensions visits ++ wantedOf extensions visits' :=
    List.filter_append _ _
  refine ⟨?_, ?_, ?_⟩
  · rw [h'.kept, h.kept, hsplit, List.map_append, List.append_assoc]
  · have := h.skipped
    have := h'.skipped
    rw [hsplit, List.length_append, List.length_append]
    omega
  · rw [hsplit]
    exact List.forall_mem_append.2 ⟨h.located, h'.located⟩

end Adds

/-- Keeping a file succeeds just if its path leads to a place, and then its own place is kept. -/
theorem keep_eq_ok_iff : keep tree before visit = .ok after ↔
    (∃ location, tree.locate (Path.names visit.path) = .ok location) ∧
      after = ⟨before.kept ++ [visit.location], before.skipped⟩ := by
  unfold keep
  cases tree.locate (Path.names visit.path) with
  | error e => simp
  | ok location => simp [eq_comm]

/-- One more file is kept or counted. -/
theorem adds_of_add (h : add tree extensions before visit = .ok after) : Adds tree extensions [visit] before after := by
  unfold add at h
  split at h
  · next hwanted =>
    obtain ⟨hlocated, rfl⟩ := keep_eq_ok_iff.1 h
    have hall : wantedOf extensions [visit] = [visit] := List.filter_eq_self.2 (by simpa using isWanted_iff.1 hwanted)
    exact ⟨by rw [hall]; rfl, by rw [hall], by simpa [hall] using hlocated⟩
  · next hunwanted =>
    obtain rfl := Except.ok.inj h
    have hnone : wantedOf extensions [visit] = [] := by
      rw [isWanted_iff] at hunwanted
      simp [wantedOf, hunwanted]
    exact ⟨by simp [hnone], by simp [hnone], by simp [hnone]⟩

/-- A run over visits is a run of single steps. -/
theorem adds_of_foldlM_add (h : visits.foldlM (add tree extensions) before = .ok after) :
    Adds tree extensions visits before after := by
  induction visits generalizing before with
  | nil =>
    obtain rfl := Except.ok.inj h
    exact .none _
  | cons visit visits ih =>
    rw [List.foldlM_cons] at h
    obtain ⟨between, hadd, h⟩ := Except.bind_eq_ok_iff.1 h
    exact (adds_of_add hadd).append (ih h)

/-- One more path adds what is visited under it. -/
theorem adds_of_addPath (htree : tree.IsOrderly) (h : addPath tree extensions before path = .ok after) :
    ∃ visits, tree.VisitsUnder path visits ∧ Adds tree extensions visits before after := by
  unfold addPath at h
  obtain ⟨between, hfold, h⟩ := Except.bind_eq_ok_iff.1 h
  split at h
  · cases h
  · next hfailure =>
    obtain rfl := Except.ok.inj h
    exact ⟨_, FileTree.visits_of_walk htree hfailure, adds_of_foldlM_add hfold⟩

/-- A run over several paths adds what all of them visit, path after path. -/
theorem adds_of_foldlM_addPath (htree : tree.IsOrderly)
    (h : paths.foldlM (addPath tree extensions) before = .ok after) :
    ∃ visits, tree.VisitsAll paths visits ∧ Adds tree extensions visits before after := by
  induction paths generalizing before with
  | nil =>
    obtain rfl := Except.ok.inj h
    exact ⟨[], FileTree.visitsAll_nil, .none _⟩
  | cons path paths ih =>
    rw [List.foldlM_cons] at h
    obtain ⟨between, hadd, h⟩ := Except.bind_eq_ok_iff.1 h
    obtain ⟨visits, hvisits, hadds⟩ := adds_of_addPath htree hadd
    obtain ⟨visits', hvisits', hadds'⟩ := ih h
    exact ⟨visits ++ visits', hvisits'.cons hvisits, hadds.append hadds'⟩

/-! ### A single file -/

/-- The paths are a single one, and it leads to a file. -/
def IsSingleFile (tree : FileTree) (paths : List String) : Prop :=
  ∃ path location content, paths = [path] ∧ tree.find .use (Path.names path) = .ok (location, .file content)

/-- The look at a single path finds what a lookup finds there, if that is a file. -/
theorem file?_eq_some_iff : file? tree path = some location ↔
    ∃ content, tree.find .use (Path.names path) = .ok (location, .file content) := by
  unfold file?
  split
  · next hfind => simp [hfind]
  · next hfind =>
    refine ⟨fun h ↦ (by cases h), fun ⟨content, h⟩ ↦ ?_⟩
    exact absurd h (hfind location content)

/-- If nothing is kept, a single file is, which is not counted any more. -/
theorem orSingleFile_of_find {content : List UInt8} (hkept : before.kept = [])
    (hfind : tree.find .use (Path.names path) = .ok (location, .file content)) :
    orSingleFile tree before [path] = keep tree { before with skipped := before.skipped - 1 } ⟨path, location⟩ := by
  rw [orSingleFile, hkept, file?_eq_some_iff.2 ⟨content, hfind⟩]

/-- Where something was kept already, or where there is no single file, nothing changes. -/
theorem orSingleFile_eq_self (h : before.kept ≠ [] ∨ ¬ IsSingleFile tree paths) :
    orSingleFile tree before paths = .ok before := by
  unfold orSingleFile
  split
  · next path =>
    split
    · next location hkept hfile =>
      obtain ⟨content, hfind⟩ := file?_eq_some_iff.1 hfile
      exact h.elim (absurd hkept) (absurd ⟨path, location, content, rfl, hfind⟩)
    · rfl
  · rfl

/-- An entry that is found stands where its path leads. -/
theorem resolve_of_find {entry : Entry} (h : tree.find .use (Path.names path) = .ok (location, entry)) :
    tree.resolve .use (Path.names path) = .ok location ∧ tree.get? location = some entry := by
  unfold FileTree.find at h
  obtain ⟨place, hresolve, h⟩ := Except.bind_eq_ok_iff.1 h
  split at h
  · next hentry =>
    obtain ⟨⟩ := h
    exact ⟨hresolve, hentry⟩
  · cases h

/-! ### Accounts -/

/-- The scan of the paths has kept or counted each of the visits. -/
structure Accounts (tree : FileTree) (extensions paths : List String) (visits : List Visit) (scan : Scan) : Prop where
  total : scan.kept.length + scan.skipped = visits.length
  /-- The wanted files are kept, in the order of the visits, each under the path of its place. -/
  kept : wantedOf extensions visits ≠ [] ∨ ¬ IsSingleFile tree paths →
    List.Forall₂ (fun visit location ↦ tree.locate (Path.names visit.path) = .ok location)
      (wantedOf extensions visits) scan.kept
  /-- A single file that is not wanted is all that is visited. It is kept, and one less is counted than after
  the walk. -/
  single : wantedOf extensions visits = [] → IsSingleFile tree paths → ∃ visit location,
    visits = [visit] ∧ paths = [visit.path] ∧ scan.kept = [location] ∧
      tree.locate (Path.names visit.path) = .ok location ∧
        paths.foldlM (addPath tree extensions) none = .ok ⟨[], scan.skipped + 1⟩

/-- A single file that is not wanted is visited alone, and was counted before it is kept. -/
theorem accounts_of_find (htree : tree.IsOrderly) (hvisits : tree.VisitsUnder path visits) {content : List UInt8}
    (hfind : tree.find .use (Path.names path) = .ok (location, .file content))
    (hnone : wantedOf extensions visits = []) (hadds : Adds tree extensions visits none before)
    (hbefore : [path].foldlM (addPath tree extensions) none = .ok before)
    (hscan : orSingleFile tree before [path] = .ok scan) : Accounts tree extensions [path] visits scan := by
  have hsingle : IsSingleFile tree [path] := ⟨path, location, content, rfl, hfind⟩
  obtain ⟨hresolve, hfile⟩ := resolve_of_find hfind
  obtain rfl := hvisits.eq_of_file hresolve hfile
  -- the file is the only one visited, so exactly one was counted
  obtain ⟨kept, skipped⟩ := before
  obtain rfl : kept = [] := by simpa [hnone, none] using hadds.kept
  obtain rfl : skipped = 1 := by simpa [hnone, none] using hadds.skipped
  rw [orSingleFile_of_find rfl hfind, keep_eq_ok_iff] at hscan
  obtain ⟨⟨place, hlocate⟩, rfl⟩ := hscan
  obtain rfl : place = location := hvisits.eq_of_locate htree List.mem_cons_self hlocate
  refine ⟨rfl, fun h ↦ ?_, fun _ _ ↦ ⟨_, place, rfl, rfl, rfl, hlocate, hbefore⟩⟩
  exact h.elim (absurd hnone) (absurd hsingle)

/-- Unless there is a single file that is not wanted, the scan stays as it is after the walks. -/
theorem accounts_of_adds (htree : tree.IsOrderly) (hvisits : tree.VisitsAll paths visits)
    (hsingle : wantedOf extensions visits ≠ [] ∨ ¬ IsSingleFile tree paths)
    (hadds : Adds tree extensions visits none scan) : Accounts tree extensions paths visits scan := by
  have hkept : scan.kept = (wantedOf extensions visits).map Visit.location := hadds.kept
  have hskipped : scan.skipped + (wantedOf extensions visits).length = visits.length := by
    simpa [none] using hadds.skipped
  refine ⟨?_, fun _ ↦ ?_, fun hnone hone ↦ hsingle.elim (absurd hnone) (absurd hone)⟩
  · rw [hkept, List.length_map, Nat.add_comm, hskipped]
  · rw [hkept, List.forall₂_map_right_iff, List.forall₂_same]
    intro visit hvisit
    obtain ⟨place, hlocate⟩ := hadds.located visit hvisit
    obtain rfl := hvisits.eq_of_locate htree (List.mem_of_mem_filter hvisit) hlocate
    exact hlocate

/-- A scan that succeeds accounts for all that its paths visit. This puts the steps for the visits and the
exception for a single file together. -/
theorem accounts_of_ofPaths (htree : tree.IsOrderly) (h : ofPaths tree extensions paths = .ok scan) :
    ∃ visits, tree.VisitsAll paths visits ∧ Accounts tree extensions paths visits scan := by
  unfold ofPaths at h
  obtain ⟨before, hbefore, h⟩ := Except.bind_eq_ok_iff.1 h
  obtain ⟨visits, hvisits, hadds⟩ := adds_of_foldlM_addPath htree hbefore
  refine ⟨visits, hvisits, ?_⟩
  by_cases hsingle : wantedOf extensions visits = [] ∧ IsSingleFile tree paths
  · obtain ⟨hnone, path, location, content, rfl, hfind⟩ := hsingle
    have hpath := FileTree.visitsAll_singleton_iff.1 hvisits
    exact accounts_of_find htree hpath hfind hnone hadds hbefore h
  · rw [not_and_or] at hsingle
    have hkept : before.kept ≠ [] ∨ ¬ IsSingleFile tree paths := by
      rw [hadds.kept]
      simpa [none] using hsingle
    obtain rfl := Except.ok.inj ((orSingleFile_eq_self hkept).symm.trans h)
    exact accounts_of_adds htree hvisits hsingle hadds

/-! ### Trees with the same entries -/

/-- What a path adds does not depend on the order in which the entries of the tree are listed. -/
theorem addPath_rearranges {tree' : FileTree} (h : tree'.Rearranges tree) (hnodup : tree.locations.Nodup) :
    addPath tree' extensions = addPath tree extensions := by
  have hadd : add tree' extensions = add tree extensions := by
    funext scan visit
    simp only [add, keep, h.locate_eq hnodup]
  funext scan path
  simp only [addPath, hadd, h.walk_eq hnodup]

/-- Nor does a whole scan. -/
theorem ofPaths_rearranges {tree' : FileTree} (h : tree'.Rearranges tree) (hnodup : tree.locations.Nodup) :
    ofPaths tree' extensions paths = ofPaths tree extensions paths := by
  have hsingle (scan : Scan) : orSingleFile tree' scan paths = orSingleFile tree scan paths := by
    simp only [orSingleFile, keep, file?, h.locate_eq hnodup, h.find_eq hnodup]
  simp only [ofPaths, addPath_rearranges h hnodup, hsingle]

/-- A scan that succeeds accounts for what its paths visit, which is the same however the tree was made. -/
theorem ofPaths_accounts_for_visits (htree : tree.IsOrderly) (extensions paths : List String) :
    (∀ scan, ofPaths tree extensions paths = .ok scan → ∃ visits,
      (∀ visits', tree.VisitsAll paths visits' ↔ visits' = visits) ∧
        Accounts tree extensions paths visits scan) ∧
      ∀ tree', tree'.Rearranges tree → ofPaths tree' extensions paths = ofPaths tree extensions paths := by
  refine ⟨fun scan hscan ↦ ?_, fun tree' h ↦ ofPaths_rearranges h htree.nodup⟩
  obtain ⟨visits, hvisits, haccounts⟩ := accounts_of_ofPaths htree hscan
  refine ⟨visits, fun visits' ↦ ⟨fun hvisits' ↦ hvisits'.unique hvisits, ?_⟩, haccounts⟩
  rintro rfl
  exact hvisits

/-- A directory with two files in it, made in the order of their names. -/
def twoFiles : FileTree :=
  ((FileTree.single "d").put ["d", "a.graphql"] (.file [])).put ["d", "b.txt"] (.file [])

/-- The same directory, made the other way round. -/
def twoFilesSwapped : FileTree :=
  ((FileTree.single "d").put ["d", "b.txt"] (.file [])).put ["d", "a.graphql"] (.file [])

/-- What is in the tree: two files in one directory. -/
theorem get?_twoFiles (location : Location) : twoFiles.get? location =
    if location = ["d", "b.txt"] ∨ location = ["d", "a.graphql"] then some (.file [])
    else if location = ["d"] ∨ location = [] then some .directory else .none := by
  rw [twoFiles, FileTree.get?_put, FileTree.get?_put, FileTree.get?_single]
  split <;> simp_all

theorem isOrderly_twoFiles : twoFiles.IsOrderly := by
  have hname (name : String) (h : FileTree.IsName name) : FileTree.IsNamed ["d", name] := ⟨["d"], name, rfl, h⟩
  refine .put_file (.put_file (FileTree.isOrderly_single ?_) (hname _ ?_) ?_ _) (hname _ ?_) ?_ _
  · exact ⟨by decide, by decide, by decide⟩
  · exact ⟨by decide +kernel, by decide, by decide⟩
  · simp [FileTree.get?_single]
  · exact ⟨by decide +kernel, by decide, by decide⟩
  · simp [FileTree.get?_put, FileTree.get?_single]

/-- The second tree lists the same entries in another order. -/
theorem twoFilesSwapped_rearranges : twoFilesSwapped.Rearranges twoFiles where
  entries := by decide +kernel
  current := rfl

/-- Names come in the order of their bytes, whichever entry was made first. -/
theorem namesIn_twoFiles : twoFiles.namesIn ["d"] = ["a.graphql", "b.txt"] := by
  refine (FileTree.lists_namesIn isOrderly_twoFiles.nodup ["d"]).unique ⟨by decide, fun name ↦ ?_⟩
  simp [get?_twoFiles, or_comm, imp_iff_not_or]

/-- Each of the two names leads to its file. -/
theorem follow_twoFiles (purpose : Purpose) {name : String} (hname : name ∈ ["a.graphql", "b.txt"]) :
    twoFiles.follow purpose FileTree.maxLinks (twoFiles.start twoFiles.current ["d", name]).1
      (twoFiles.start twoFiles.current ["d", name]).2 = .ok ⟨["d", name], FileTree.maxLinks⟩ := by
  rcases List.mem_pair.1 hname with rfl | rfl <;>
    exact FileTree.follow_in_top purpose (by simp [get?_twoFiles]) ⟨by decide +kernel, by decide, by decide⟩
      (by decide) (by decide +kernel) (by simp [get?_twoFiles])

/-- The walk of the directory visits both files. -/
theorem walk_twoFiles :
    twoFiles.walk "d" = .ofVisits [⟨"d/a.graphql", ["d", "a.graphql"]⟩, ⟨"d/b.txt", ["d", "b.txt"]⟩] := by
  rw [FileTree.walk_of_files (by decide +kernel) (by decide +kernel) (by simp [get?_twoFiles])
    (by simp [namesIn_twoFiles, get?_twoFiles]), namesIn_twoFiles]
  rfl

/-- Of the two files the scan keeps the one whose extension is wanted, given with a dot. -/
theorem ofPaths_twoFiles : ofPaths twoFiles [".graphql"] ["d"] = .ok ⟨[["d", "a.graphql"]], 1⟩ := by
  have hnames : Path.names "d/a.graphql" = ["d", "a.graphql"] := by decide +kernel
  have hlocate : twoFiles.locate ["d", "a.graphql"] = .ok ["d", "a.graphql"] :=
    FileTree.locate_eq_ok_iff.2 ⟨_, follow_twoFiles .locate List.mem_cons_self⟩
  have hwanted : isWanted [".graphql"] ⟨"d/a.graphql", ["d", "a.graphql"]⟩ = true := by decide +kernel
  have hadd : add twoFiles [".graphql"] none ⟨"d/a.graphql", ["d", "a.graphql"]⟩ = .ok ⟨[["d", "a.graphql"]], 0⟩ := by
    rw [add, if_pos hwanted]
    exact keep_eq_ok_iff.2 ⟨⟨_, hnames ▸ hlocate⟩, rfl⟩
  simp only [ofPaths, List.foldlM_cons, addPath, walk_twoFiles, Walk.ofVisits, hadd]
  rfl

/-- A file that is the only path is kept although its extension is not wanted. -/
theorem ofPaths_twoFiles_single : ofPaths twoFiles [".graphql"] ["d/b.txt"] = .ok ⟨[["d", "b.txt"]], 0⟩ := by
  have hnames : Path.names "d/b.txt" = ["d", "b.txt"] := by decide +kernel
  have hunwanted : isWanted [".graphql"] ⟨"d/b.txt", ["d", "b.txt"]⟩ = false := by decide +kernel
  have hfile : "b.txt" ∈ ["a.graphql", "b.txt"] := List.mem_cons_of_mem _ List.mem_cons_self
  have hresolve (purpose : Purpose) : twoFiles.resolve purpose ["d", "b.txt"] = .ok ["d", "b.txt"] :=
    FileTree.resolve_eq_ok_iff.2 ⟨by decide +kernel, _, follow_twoFiles purpose hfile⟩
  have hwalk : twoFiles.walk "d/b.txt" = .ofVisits [⟨"d/b.txt", ["d", "b.txt"]⟩] := by
    simp [FileTree.walk, FileTree.meet, hnames, hresolve, get?_twoFiles]
  have hfind : twoFiles.find .use (Path.names "d/b.txt") = .ok (["d", "b.txt"], .file []) := by
    simp [hnames, FileTree.find, hresolve, get?_twoFiles, bind, Except.bind, pure, Except.pure]
  have hlocate : twoFiles.locate (Path.names "d/b.txt") = .ok ["d", "b.txt"] :=
    hnames ▸ FileTree.locate_eq_ok_iff.2 ⟨_, follow_twoFiles .locate hfile⟩
  have hadd : addPath twoFiles [".graphql"] none "d/b.txt" = .ok ⟨[], 1⟩ := by
    simp only [addPath, hwalk, Walk.ofVisits, List.foldlM_cons, add, hunwanted]
    rfl
  rw [ofPaths, List.foldlM_cons, hadd]
  show orSingleFile twoFiles ⟨[], 1⟩ ["d/b.txt"] = _
  rw [orSingleFile_of_find rfl hfind]
  exact keep_eq_ok_iff.2 ⟨⟨_, hlocate⟩, rfl⟩

/-- The two cases of the exception on one tree: a directory, where a file without a wanted extension is passed
over, and that file as the only path. -/
theorem ofPaths_accounts_for_visits_two_files :
    twoFiles.IsOrderly ∧ twoFilesSwapped.Rearranges twoFiles ∧
      (∃ visits, twoFiles.VisitsAll ["d"] visits ∧
        Accounts twoFiles [".graphql"] ["d"] visits ⟨[["d", "a.graphql"]], 1⟩) ∧
      (∃ visits, twoFiles.VisitsAll ["d/b.txt"] visits ∧
        Accounts twoFiles [".graphql"] ["d/b.txt"] visits ⟨[["d", "b.txt"]], 0⟩) ∧
      ofPaths twoFilesSwapped [".graphql"] ["d"] = .ok ⟨[["d", "a.graphql"]], 1⟩ := by
  obtain ⟨haccounts, hsame⟩ := ofPaths_accounts_for_visits isOrderly_twoFiles [".graphql"] ["d"]
  obtain ⟨haccounts', -⟩ := ofPaths_accounts_for_visits isOrderly_twoFiles [".graphql"] ["d/b.txt"]
  obtain ⟨visits, hvisits, hscan⟩ := haccounts _ ofPaths_twoFiles
  obtain ⟨visits', hvisits', hscan'⟩ := haccounts' _ ofPaths_twoFiles_single
  refine ⟨isOrderly_twoFiles, twoFilesSwapped_rearranges, ⟨visits, (hvisits _).2 rfl, hscan⟩,
    ⟨visits', (hvisits' _).2 rfl, hscan'⟩, ?_⟩
  rw [hsame _ twoFilesSwapped_rearranges, ofPaths_twoFiles]

end Command.Scan

end TypeSystem
