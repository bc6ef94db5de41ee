import TypeSystem.Command.Validate
import TypeSystem.Proofs.Files.Visits
import TypeSystem.Proofs.Reading.Snippets
import TypeSystem.Proofs.Schema.Sizes

/-!
# What `validate` emits

A run of `validate` succeeds exactly if the files are found and read, their sources make a schema, and that can
be written where this is asked for (`Command.run_succeeds_iff`). Each step has its own condition: for a file,
`IsSource`; for all steps before the last, `Checks`; for the last, that the tree can be written to. The schema
is read back from the file written, if sizes and positions in it can be stored in eight bytes each, as they can
if the files together are not half as long as such a number can be.

A run that fails says why and leaves the tree as it was. To say why a schema cannot be built may itself be more
than the program can do: an error too far behind the start of a line has no snippet (`IsFar`), and then, and only
then, the run breaks off.
-/

namespace TypeSystem

namespace Command

variable {arguments : List String} {tree left : FileTree} {verbose : Bool} {options : ValidateOptions} {scan : Scan}
  {sources : List Source} {schema : Schema} {location : Location} {source : Source}

/-! ### Reading -/

/-- The source that is read from a file: its text, under the path of its place. -/
structure IsSource (tree : FileTree) (location : Location) (source : Source) : Prop where
  name : source.name = Path.ofNames location
  body : tree.read location = .ok source.body.toUTF8.data.toList

/-- Bytes are read as a text just if they are the bytes of the text. So two files with one text have the same
bytes. -/
theorem fromUTF8?_eq_some_iff {bytes : List UInt8} {text : String} :
    String.fromUTF8? ⟨bytes.toArray⟩ = some text ↔ bytes = text.toUTF8.data.toList := by
  rw [String.fromUTF8?]
  split
  · next hvalid =>
    rw [Option.some.injEq]
    constructor
    · rintro rfl
      rfl
    · rintro rfl
      rfl
  · next hvalid =>
    refine ⟨fun h ↦ (by cases h), ?_⟩
    rintro rfl
    exact absurd text.isValidUTF8 hvalid

/-- Reading a source takes a file whose bytes are those of a text. -/
theorem readSource_eq_ok_iff : readSource tree location = .ok source ↔ IsSource tree location source := by
  obtain ⟨name, body⟩ := source
  unfold readSource
  cases hread : tree.read location with
  | error e =>
    refine ⟨fun h ↦ (by cases h), fun h ↦ ?_⟩
    have hbody := h.body
    rw [hread] at hbody
    cases hbody
  | ok bytes =>
    dsimp only
    cases htext : String.fromUTF8? ⟨bytes.toArray⟩ with
    | none =>
      refine ⟨fun h ↦ (by cases h), fun h ↦ ?_⟩
      have hbytes := Except.ok.inj (hread.symm.trans h.body)
      rw [fromUTF8?_eq_some_iff.2 hbytes] at htext
      cases htext
    | some text =>
      obtain rfl := fromUTF8?_eq_some_iff.1 htext
      constructor
      · rintro ⟨⟩
        exact ⟨rfl, hread⟩
      · rintro ⟨rfl, hbody⟩
        have hbytes := Except.ok.inj (hread.symm.trans hbody)
        rw [fromUTF8?_eq_some_iff.2 hbytes] at htext
        obtain rfl := Option.some.inj htext
        rfl

/-- The files under the paths are found and read, and their sources make a schema. -/
structure Checks (options : ValidateOptions) (tree : FileTree) (scan : Scan) (sources : List Source)
    (schema : Schema) : Prop where
  scanned : Scan.ofPaths tree options.extensions options.paths = .ok scan
  read : List.Forall₂ (IsSource tree) scan.kept sources
  built : Schema.ofSources sources = .ok schema

/-- The steps before anything is written succeed just if `Checks` says so: the scan, every source, and the
build. -/
theorem check_eq_ok_iff : check options tree = .ok (scan, schema) ↔
    ∃ sources, Checks options tree scan sources schema := by
  simp only [check, Except.bind_eq_ok_iff, Except.mapError_eq_ok_iff, Except.mapM_eq_ok_iff, readSource_eq_ok_iff]
  constructor
  · rintro ⟨_, hscan, sources, hread, _, hschema, ⟨⟩⟩
    exact ⟨sources, hscan, hread, hschema⟩
  · rintro ⟨sources, hscan, hread, hschema⟩
    exact ⟨scan, hscan, sources, hread, schema, hschema, rfl⟩

/-! ### Emitting -/

/-- A schema that sources make is read back from its own bytes, if the sources are not too long for its sizes
and positions to be stored. -/
theorem decode_encode (hschema : Schema.ofSources sources = .ok schema)
    (hsize : 2 * Source.totalSize (Builtin.source :: sources) < Binary.byteRange 8) :
    Schema.decode schema.encode = .ok schema := by
  obtain ⟨documents, -, hdocument⟩ := Schema.ofSources_eq_ok_iff.1 hschema
  have hwell := Schema.wellFormed_of_uncheckedOf (Schema.ofDocument_eq_ok_iff.1 hdocument).1
  have hkeeps := Binary.Codec.keeps_schema (Schema.fits_of_ofSources hschema hsize) hwell.types.nodup
    hwell.directives.nodup
  have hwhole := hkeeps.whole []
  rw [List.append_nil] at hwhole
  rw [Schema.decode, Schema.encode, hwhole]
  rfl

/-- The tree left when a schema has been emitted: the tree as it was, or with the bytes of the schema in the
file asked for. -/
theorem emit_eq_ok_iff : emit options tree schema = .ok left ↔
    (options.output = none → left = tree) ∧
      ∀ path ∈ options.output, tree.write (Path.names path) schema.encode = .ok left := by
  unfold emit
  cases options.output with
  | none => simp [eq_comm]
  | some path => simp [Except.mapError_eq_ok_iff]

/-! ### Failing -/

/-- Where the error is reported. -/
def reportedAt : BuildError → Span
  | .unreadable e => e.span
  | .invalid e => e.span

/-- The error is in one of the sources, behind more than 65535 characters of a line. -/
structure IsFar (sources : List Source) (e : BuildError) : Prop where
  line : ∃ body line, (reportedAt e).source.bind (Source.body? sources) = some body ∧
    Text.line? (reportedAt e).start.line body.toList = some line
  column : 65535 < (reportedAt e).start.column

/-- What is shown of the place of an error, if it can be shown at all. -/
theorem shownIn_eq (sources : List Source) (e : BuildError) :
    (∃ shown, (reportedAt e).shownIn ((reportedAt e).source.bind (Source.body? sources)) = .ok shown) ∧
        ¬ IsFar sources e ∨
      (reportedAt e).shownIn ((reportedAt e).source.bind (Source.body? sources)) = .error .widthOutOfRange ∧
        IsFar sources e := by
  cases hbody : (reportedAt e).source.bind (Source.body? sources) with
  | none => exact .inl ⟨⟨_, rfl⟩, fun ⟨⟨_, _, hsome, _⟩, _⟩ ↦ by rw [hbody] at hsome; cases hsome⟩
  | some body =>
    rw [Span.shownIn, Span.snippet]
    cases hline : Text.line? (reportedAt e).start.line body.toList with
    | none =>
      refine .inl ⟨⟨_, rfl⟩, fun ⟨⟨_, _, hsome, hfound⟩, _⟩ ↦ ?_⟩
      obtain rfl := Option.some.inj (hbody.symm.trans hsome)
      rw [hline] at hfound
      cases hfound
    | some line =>
      dsimp only
      rcases Nat.lt_or_ge 65535 (reportedAt e).start.column with hfar | hnear
      · rw [Span.snippetOf, Text.indent_of_lt hfar]
        exact .inr ⟨rfl, ⟨body, line, hbody, hline⟩, hfar⟩
      · rw [Span.snippetOf, Text.indent_of_le hnear]
        exact .inl ⟨⟨_, rfl⟩, fun h ↦ Nat.not_lt.2 hnear h.column⟩

/-- The error of sources is put into words, unless it is too far behind the start of a line. -/
theorem describe_eq (sources : List Source) (e : BuildError) :
    (∃ text, describe sources e = .ok text) ∧ ¬ IsFar sources e ∨
      describe sources e = .error .widthOutOfRange ∧ IsFar sources e := by
  rcases shownIn_eq sources e with ⟨⟨shown, hshown⟩, hnear⟩ | ⟨hshown, hfar⟩
  · refine .inl ⟨?_, hnear⟩
    cases e with
    | unreadable e => exact ⟨_, by rw [describe, ParseError.render]; exact congrArg _ hshown⟩
    | invalid e => exact ⟨_, by rw [describe, ValidationError.render]; exact congrArg _ (congrArg _ hshown)⟩
  · refine .inr ⟨?_, hfar⟩
    cases e with
    | unreadable e => rw [describe, ParseError.render]; exact congrArg _ hshown
    | invalid e => rw [describe, ValidationError.render]; exact congrArg _ (congrArg _ hshown)

/-- The files under the paths are found and read, but their sources make no schema. -/
structure Rejects (options : ValidateOptions) (tree : FileTree) (sources : List Source) (e : BuildError) : Prop where
  scanned : ∃ scan, Scan.ofPaths tree options.extensions options.paths = .ok scan ∧
    List.Forall₂ (IsSource tree) scan.kept sources
  rejected : Schema.ofSources sources = .error e

/-- If the sources are read and do not build, the error of the build is what comes out, together with the
sources it is to be shown in. -/
theorem check_of_rejects {e : BuildError} (h : Rejects options tree sources e) :
    check options tree = .error (.build e sources) := by
  obtain ⟨⟨scan, hscan, hread⟩, hrejected⟩ := h
  have hsources : scan.kept.mapM (readSource tree) = .ok sources :=
    Except.mapM_eq_ok_iff.2 (hread.imp fun _ _ h ↦ readSource_eq_ok_iff.2 h)
  simp only [check, hscan, hsources, hrejected, Except.mapError, bind, Except.bind]

/-- What fails while a source is read is no error of a build. So a build's error always comes with all the
sources. -/
theorem readSource_ne_build {e : BuildError} : readSource tree location ≠ .error (.build e sources) := by
  unfold readSource
  intro h
  split at h
  · cases h
  · split at h <;> cases h

/-- Only sources that make no schema fail for that reason. -/
theorem rejects_of_check {e : BuildError} (h : check options tree = .error (.build e sources)) :
    Rejects options tree sources e := by
  rcases Except.bind_eq_error_iff.1 h with hscan | ⟨scan, hscan, h⟩
  · obtain ⟨_, -, ⟨⟩⟩ := Except.mapError_eq_error_iff.1 hscan
  rcases Except.bind_eq_error_iff.1 h with hread | ⟨found, hread, h⟩
  · obtain ⟨location, -, hlocation⟩ := Except.exists_mem_of_mapM_eq_error hread
    exact absurd hlocation readSource_ne_build
  rcases Except.bind_eq_error_iff.1 h with hbuild | ⟨schema, -, h⟩
  · obtain ⟨_, hrejected, ⟨⟩⟩ := Except.mapError_eq_error_iff.1 hbuild
    refine ⟨⟨scan, Except.mapError_eq_ok_iff.1 hscan, ?_⟩, hrejected⟩
    exact (Except.mapM_eq_ok_iff.1 hread).imp fun _ _ h ↦ readSource_eq_ok_iff.1 h
  · cases h

/-! ### Running -/

/-- Once the arguments are read, what is left to do is validation. -/
theorem run_of_read (h : Request.read arguments = .ok (.validate verbose options)) :
    run arguments tree = (.ofResult (validate options tree).1, (validate options tree).2) := by
  rw [run, h]

/-- Before anything is written, nothing is changed. Why the run has failed is printed, unless it is for an error too
far behind the start of a line. -/
theorem run_of_not_checks (h : Request.read arguments = .ok (.validate verbose options))
    (hchecks : ¬ ∃ scan sources schema, Checks options tree scan sources schema) :
    (run arguments tree).2 = tree ∧
      ((∃ sources e, Rejects options tree sources e ∧ IsFar sources e) →
        (run arguments tree).1 = .crash .widthOutOfRange) ∧
      ((¬ ∃ sources e, Rejects options tree sources e ∧ IsFar sources e) →
        ∃ text, (run arguments tree).1 = .outcome ⟨1, none, some text⟩) := by
  rw [run_of_read h, validate]
  cases hcheck : check options tree with
  | ok found =>
    obtain ⟨scan, schema⟩ := found
    obtain ⟨sources, hsources⟩ := check_eq_ok_iff.1 hcheck
    exact absurd ⟨scan, sources, schema, hsources⟩ hchecks
  | error failed =>
    refine ⟨rfl, fun ⟨sources, e, hrejects, hfar⟩ ↦ ?_, fun hnear ↦ ?_⟩
    · obtain rfl := Except.error.inj ((check_of_rejects hrejects).symm.trans hcheck)
      rcases describe_eq sources e with ⟨-, hnear⟩ | ⟨hdescribe, -⟩
      · exact absurd hfar hnear
      · simp only [Response.ofResult, Failure.message, hdescribe, Except.map]
    · -- only the error of a build is shown with a snippet
      obtain ⟨text, htext⟩ : ∃ text, failed.message = .ok text := by
        cases failed with
        | scan | read | write => exact ⟨_, rfl⟩
        | build e sources =>
          rcases describe_eq sources e with ⟨⟨text, htext⟩, -⟩ | ⟨-, hfar⟩
          · exact ⟨_, by rw [Failure.message, htext]; rfl⟩
          · exact absurd ⟨sources, e, rejects_of_check hcheck, hfar⟩ hnear
      simp only [Response.ofResult, htext, Outcome.failure]
      exact ⟨text, rfl⟩

/-- If everything checks, only writing can still fail. Then the code is 1, and otherwise the summary is
printed and what the writing has left is the tree. -/
theorem run_of_checks (h : Request.read arguments = .ok (.validate verbose options))
    (hchecks : Checks options tree scan sources schema) :
    (∃ left, emit options tree schema = .ok left ∧ run arguments tree =
        (.outcome (.success (summarize scan schema).message), left)) ∨
      (∀ left, emit options tree schema ≠ .ok left) ∧ (run arguments tree).1.exitCode = 1 := by
  rw [run_of_read h, validate, check_eq_ok_iff.2 ⟨sources, hchecks⟩]
  dsimp only
  cases hemit : emit options tree schema with
  | ok left => exact .inl ⟨left, rfl, rfl⟩
  | error failed =>
    refine .inr ⟨fun left hleft ↦ (by cases hleft), ?_⟩
    obtain ⟨path, -, cause, rfl⟩ : ∃ path, options.output = some path ∧ ∃ cause, failed = .write path cause := by
      unfold emit at hemit
      split at hemit
      · cases hemit
      · next path hpath =>
        obtain ⟨cause, -, rfl⟩ := Except.mapError_eq_error_iff.1 hemit
        exact ⟨path, hpath, cause, rfl⟩
    rfl

/-- **A schema is emitted exactly if all is well.** When arguments ask to validate, the exit code is zero
exactly if the files are found and read, their sources make a schema, and that can be written where it is asked
for. Then what is printed gives the numbers of the files, of the files skipped, and of the entries of the two
tables, and the schema is read back from the file asked for. If already the scan, the reading or the building
fails, the tree is as it was, and the exit code is one; only an error behind more than 65535 characters of a line
makes the run break off. -/
theorem run_succeeds_iff (h : Request.read arguments = .ok (.validate verbose options)) (htree : tree.IsRooted) :
    ((run arguments tree).1.exitCode = 0 ↔ ∃ scan sources schema, Checks options tree scan sources schema ∧
      ∀ path ∈ options.output, ∃ left, tree.write (Path.names path) schema.encode = .ok left) ∧
    (∀ scan sources schema, Checks options tree scan sources schema → (run arguments tree).1.exitCode = 0 →
      (run arguments tree).1 = .outcome ⟨0, some (
          "✅ All GraphQL validated successfully:\n" ++
          "  * Analyzed " ++ toString sources.length ++ " files.\n" ++
          "  * Skipped " ++ toString scan.skipped ++ " non-graphql files.\n" ++
          "  * Validated " ++ toString schema.types.size ++ " type definitions.\n" ++
          "  * Validated " ++ toString schema.directives.size ++ " directive definitions."), none⟩ ∧
        (options.output = none → (run arguments tree).2 = tree) ∧
        ∀ path ∈ options.output, ∃ bytes, (run arguments tree).2.read (Path.names path) = .ok bytes ∧
          (2 * Source.totalSize (Builtin.source :: sources) < Binary.byteRange 8 →
            Schema.decode bytes = .ok schema)) ∧
    ((¬ ∃ scan sources schema, Checks options tree scan sources schema) →
      (run arguments tree).2 = tree ∧
        ((∃ sources e, Rejects options tree sources e ∧ IsFar sources e) →
          (run arguments tree).1 = .crash .widthOutOfRange ∧ (run arguments tree).1.exitCode = 101) ∧
        ((¬ ∃ sources e, Rejects options tree sources e ∧ IsFar sources e) →
          (run arguments tree).1.exitCode = 1 ∧ ∃ text, (run arguments tree).1 = .outcome ⟨1, none, some text⟩)) := by
  refine ⟨⟨fun hzero ↦ ?_, ?_⟩, fun scan sources schema hchecks hzero ↦ ?_, fun hchecks ↦ ?_⟩
  · by_cases hchecks : ∃ scan sources schema, Checks options tree scan sources schema
    · obtain ⟨scan, sources, schema, hchecks⟩ := hchecks
      refine ⟨scan, sources, schema, hchecks, fun path hpath ↦ ?_⟩
      rcases run_of_checks h hchecks with ⟨left, hemit, -⟩ | ⟨-, hone⟩
      · exact ⟨left, (emit_eq_ok_iff.1 hemit).2 path hpath⟩
      · rw [hone] at hzero
        cases hzero
    · obtain ⟨-, hfar, hnear⟩ := run_of_not_checks h hchecks
      by_cases hrejects : ∃ sources e, Rejects options tree sources e ∧ IsFar sources e
      · rw [hfar hrejects] at hzero
        cases hzero
      · obtain ⟨text, htext⟩ := hnear hrejects
        rw [htext] at hzero
        cases hzero
  · rintro ⟨scan, sources, schema, hchecks, hwrites⟩
    rcases run_of_checks h hchecks with ⟨left, -, hrun⟩ | ⟨hnot, -⟩
    · rw [hrun]
      rfl
    · cases houtput : options.output with
      | none =>
        exact absurd (emit_eq_ok_iff.2 ⟨fun _ ↦ rfl, by simp [houtput]⟩) (hnot tree)
      | some path =>
        obtain ⟨left, hleft⟩ := hwrites path houtput
        exact absurd (emit_eq_ok_iff.2 ⟨by simp [houtput], by simpa [houtput] using hleft⟩) (hnot left)
  · rcases run_of_checks h hchecks with ⟨left, hemit, hrun⟩ | ⟨-, hone⟩
    · rw [hrun, ← hchecks.read.length_eq]
      obtain ⟨hsame, hwritten⟩ := emit_eq_ok_iff.1 hemit
      -- what is written is what is read back, and the sizes make it decodable
      refine ⟨rfl, hsame, fun path hpath ↦ ⟨_, FileTree.read_of_write htree (hwritten path hpath), fun hsize ↦ ?_⟩⟩
      exact decode_encode hchecks.built hsize
    · rw [hone] at hzero
      cases hzero
  · obtain ⟨hsame, hfar, hnear⟩ := run_of_not_checks h hchecks
    refine ⟨hsame, fun hrejects ↦ ?_, fun hrejects ↦ ?_⟩
    · rw [hfar hrejects]
      exact ⟨rfl, rfl⟩
    · obtain ⟨text, htext⟩ := hnear hrejects
      rw [htext]
      exact ⟨rfl, text, rfl⟩

/-- A directory with one file in it. -/
def oneFile (content : List UInt8) : FileTree :=
  (FileTree.single "d").put ["d", "a.graphql"] (.file content)

/-- What is in the tree: two directories and one file. -/
theorem get?_oneFile (content : List UInt8) (location : Location) : (oneFile content).get? location =
    if location = ["d", "a.graphql"] then some (.file content)
    else if location = ["d"] ∨ location = [] then some .directory else none := by
  rw [oneFile, FileTree.get?_put, FileTree.get?_single]

/-- The one name in the directory is that of the file. -/
theorem namesIn_oneFile (content : List UInt8) : (oneFile content).namesIn ["d"] = ["a.graphql"] := by
  have hnodup : (oneFile content).locations.Nodup := by
    show [[], ["d"], ["d", "a.graphql"]].Nodup
    decide
  refine (FileTree.lists_namesIn hnodup ["d"]).unique ⟨by decide, fun name ↦ ?_⟩
  simp [get?_oneFile]

/-- What there is under the two names, a file and nothing, is followed to. -/
theorem follow_oneFile (content : List UInt8) (purpose : Purpose) {name : String}
    (hname : name ∈ ["a.graphql", "s"]) :
    (oneFile content).follow purpose FileTree.maxLinks
      ((oneFile content).start (oneFile content).current ["d", name]).1
      ((oneFile content).start (oneFile content).current ["d", name]).2 =
        .ok ⟨["d", name], FileTree.maxLinks⟩ := by
  rcases List.mem_pair.1 hname with rfl | rfl <;>
    exact FileTree.follow_in_top purpose (by simp [get?_oneFile]) ⟨by decide +kernel, by decide, by decide⟩
      (by decide) (by decide +kernel) (by simp [get?_oneFile])

/-- The one file is read at its path. -/
theorem read_oneFile (content : List UInt8) : (oneFile content).read ["d", "a.graphql"] = .ok content :=
  FileTree.read_eq_ok_iff.2 ⟨_, FileTree.resolve_eq_ok_iff.2 ⟨by decide +kernel, _,
    follow_oneFile content .use List.mem_cons_self⟩, by simp [get?_oneFile]⟩

/-- The scan keeps the one file and passes over none. -/
theorem scan_oneFile (content : List UInt8) :
    Scan.ofPaths (oneFile content) ["graphql", "graphqls"] ["d"] = .ok ⟨[["d", "a.graphql"]], 0⟩ := by
  have hwalk : (oneFile content).walk "d" = .ofVisits [⟨"d/a.graphql", ["d", "a.graphql"]⟩] := by
    rw [FileTree.walk_of_files (by decide +kernel) (by decide +kernel) (by simp [get?_oneFile])
      (by simp [namesIn_oneFile, get?_oneFile]), namesIn_oneFile]
    rfl
  have hnames : Path.names "d/a.graphql" = ["d", "a.graphql"] := by decide +kernel
  have hlocate : (oneFile content).locate ["d", "a.graphql"] = .ok ["d", "a.graphql"] :=
    FileTree.locate_eq_ok_iff.2 ⟨_, follow_oneFile content .locate List.mem_cons_self⟩
  have hwanted : Scan.isWanted ["graphql", "graphqls"] ⟨"d/a.graphql", ["d", "a.graphql"]⟩ = true := by
    decide +kernel
  have hadd : Scan.add (oneFile content) ["graphql", "graphqls"] .none ⟨"d/a.graphql", ["d", "a.graphql"]⟩ =
      .ok ⟨[["d", "a.graphql"]], 0⟩ := by
    rw [Scan.add, if_pos hwanted, Scan.keep, hnames, hlocate]
    rfl
  simp only [Scan.ofPaths, List.foldlM_cons, Scan.addPath, hwalk, Walk.ofVisits, hadd]
  rfl

/-- The one file is a source if its bytes are those of a text. -/
theorem isSource_oneFile (body : String) :
    IsSource (oneFile body.toUTF8.data.toList) ["d", "a.graphql"] ⟨"d/a.graphql", body⟩ := by
  have hname : "d/a.graphql" = Path.ofNames ["d", "a.graphql"] := by decide +kernel
  exact ⟨hname, read_oneFile _⟩

set_option maxRecDepth 2000 in
/-- The one file, with one definition in it, checks; with what is built in there are six types and four
directives. -/
theorem exists_checks_oneFile : ∃ schema, Checks ⟨["d"], ["graphql", "graphqls"], some "d/s"⟩
    (oneFile "scalar A".toUTF8.data.toList) ⟨[["d", "a.graphql"]], 0⟩ [⟨"d/a.graphql", "scalar A"⟩] schema ∧
      schema.types.size = 6 ∧ schema.directives.size = 4 := by
  obtain ⟨documents, hdocuments, schema, hschema, hplain, htypes, hdirectives⟩ :
      ∃ documents ∈ (Schema.readAll [⟨"d/a.graphql", "scalar A"⟩]).toOption,
        ∃ schema ∈ (Schema.uncheckedOf (.mergeAll documents)).toOption,
          (∀ directive ∈ schema.directives.values, schema.definitions.isPlainlyLawful directive = true) ∧
            schema.types.size = 6 ∧ schema.directives.size = 4 := by
    unfold Schema.uncheckedOf
    rw [Builtin.document_of_text_eq rfl]
    decide +kernel
  have hread := Schema.readAll_eq_ok_iff.1 (eq_ok_of_toOption hdocuments)
  have hbuilt : Schema.ofSources [⟨"d/a.graphql", "scalar A"⟩] = .ok schema :=
    Schema.ofSources_eq_ok_iff.2 ⟨documents, hread, Schema.ofDocument_of_isPlainlyLawful hschema hplain⟩
  exact ⟨schema, ⟨scan_oneFile _, .cons (isSource_oneFile _) .nil, hbuilt⟩, htypes, hdirectives⟩

theorem isRooted_oneFile (content : List UInt8) : (oneFile content).IsRooted :=
  (FileTree.isRooted_single "d").put_of_ne_directory (by simp) (by
    rw [FileTree.get?_single, if_neg (by decide)]
    simp)

/-- A run over one file with one type, which writes the schema beside it. -/
theorem run_succeeds_iff_one_file :
    let arguments := ["validate", "d", "--emit-schema", "d/s"]
    let tree := oneFile "scalar A".toUTF8.data.toList
    Request.read arguments = .ok (.validate false ⟨["d"], ["graphql", "graphqls"], some "d/s"⟩) ∧ tree.IsRooted ∧
      ∃ schema, Schema.ofSources [⟨"d/a.graphql", "scalar A"⟩] = .ok schema ∧
        (run arguments tree).1 = .outcome ⟨0, some ("✅ All GraphQL validated successfully:\n" ++
          "  * Analyzed 1 files.\n" ++ "  * Skipped 0 non-graphql files.\n" ++
          "  * Validated 6 type definitions.\n" ++ "  * Validated 4 directive definitions."), none⟩ ∧
        ∃ bytes, (run arguments tree).2.read ["d", "s"] = .ok bytes ∧ Schema.decode bytes = .ok schema := by
  have harguments : Request.read ["validate", "d", "--emit-schema", "d/s"] =
      .ok (.validate false ⟨["d"], ["graphql", "graphqls"], some "d/s"⟩) := by decide +kernel
  have hpath : Path.names "d/s" = ["d", "s"] := by decide +kernel
  have hwrite (content bytes : List UInt8) : ∃ left, (oneFile content).write ["d", "s"] bytes = .ok left :=
    ⟨_, FileTree.write_eq_ok_iff.2 ⟨["d", "s"], FileTree.resolve_eq_ok_iff.2 ⟨by decide +kernel, _,
      follow_oneFile content .create (List.mem_cons_of_mem _ List.mem_cons_self)⟩, by simp [get?_oneFile], rfl⟩⟩
  obtain ⟨schema, hchecks, htypes, hdirectives⟩ := exists_checks_oneFile
  obtain ⟨hiff, hsuccess, -⟩ := run_succeeds_iff harguments (isRooted_oneFile "scalar A".toUTF8.data.toList)
  have hzero := hiff.2 ⟨_, _, schema, hchecks, by rintro _ ⟨⟩; rw [hpath]; exact hwrite _ _⟩
  obtain ⟨hprinted, -, hemitted⟩ := hsuccess _ _ schema hchecks hzero
  obtain ⟨bytes, hread, hdecode⟩ := hemitted "d/s" rfl
  rw [hpath] at hread
  rw [htypes, hdirectives] at hprinted
  exact ⟨harguments, isRooted_oneFile _, schema, hchecks.built, hprinted.trans (by decide +kernel), bytes, hread,
    hdecode (by decide +kernel)⟩

/-- A source that cannot be read fails the build of a schema from it alone. -/
theorem ofSources_singleton_eq_error {e : ParseError} (h : Document.ofSource source = .error e) :
    Schema.ofSources [source] = .error (.unreadable e) := by
  simp only [Schema.ofSources, Schema.readAll, List.mapM_cons, h, bind, Except.bind]

/-- A file whose one token is wrong, and far behind the start of the line, makes the run break off. -/
theorem run_breaks_off_behind_spaces :
    let body := Text.spaces 65536 ++ "\x7d"
    let tree := oneFile body.toUTF8.data.toList
    let options : ValidateOptions := ⟨["d"], ["graphql", "graphqls"], none⟩
    Request.read ["validate", "d"] = .ok (.validate false options) ∧
      (∃ e, Rejects options tree [⟨"d/a.graphql", body⟩] e) ∧ (run ["validate", "d"] tree).1.exitCode = 101 := by
  intro body tree options
  have harguments : Request.read ["validate", "d"] = .ok (.validate false options) := by decide +kernel
  let e : ParseError := ⟨"expected a type-system definition, found `\x7d`",
    ⟨⟨0, 65536, 65536, 65536⟩, ⟨0, 65537, 65537, 65537⟩, some "d/a.graphql"⟩,
    .unexpectedToken ["a type-system definition"] "`\x7d`", []⟩
  have hread : Document.ofSource ⟨"d/a.graphql", body⟩ = .error e := by
    rw [Document.ofSource, Token.lex_spaces_append]
    decide +kernel
  have hrejects : Rejects options tree [⟨"d/a.graphql", body⟩] (.unreadable e) :=
    ⟨⟨_, scan_oneFile _, .cons (isSource_oneFile body) .nil⟩, ofSources_singleton_eq_error hread⟩
  have hfar : IsFar [⟨"d/a.graphql", body⟩] (.unreadable e) := ⟨⟨body, _, rfl, rfl⟩, by decide⟩
  have hchecks : ¬ ∃ scan sources schema, Checks options tree scan sources schema := by
    rintro ⟨scan, sources, schema, hchecks⟩
    cases (check_of_rejects hrejects).symm.trans (check_eq_ok_iff.2 ⟨sources, hchecks⟩)
  have hcrash := (run_of_not_checks harguments hchecks).2.1 ⟨_, _, hrejects, hfar⟩
  exact ⟨harguments, ⟨_, hrejects⟩, congrArg Response.exitCode hcrash⟩

end Command

end TypeSystem
