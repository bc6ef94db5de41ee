import TypeSystem.Proofs.Schema.Folding

/-!
# Runs of requests

Types and directives can be added to the tables one by one, and lists of extensions folded into them, in any
order. A request may fail: a name may be taken, and a list of extensions may get half-way. Whatever becomes
of the requests, the tables that a run of them reaches are well-formed, they list what was added in the
order in which it was added, and later requests do nothing to what is there but append to the collections
of a type (`Definitions.reachedBy_performAll`).

A request is shown to make the tables grow (`Grows`), and as growing is transitive, so does a run.
-/

namespace TypeSystem

/-- A change of the tables that may be asked for. -/
inductive Request where
  /-- One more type. -/
  | addType (type : TypeDefinition)
  /-- One more directive. -/
  | addDirective (directive : DirectiveDefinition)
  /-- Extensions, to be folded in one after another. -/
  | extend (extensions : List TypeExtension)
deriving DecidableEq, Repr

namespace Request

/-- The type that is to be added. -/
def type? : Request → Option TypeDefinition
  | addType type => some type
  | addDirective _ | extend _ => none

/-- The directive that is to be added. -/
def directive? : Request → Option DirectiveDefinition
  | addDirective directive => some directive
  | addType _ | extend _ => none

end Request

namespace Definitions

variable {d d' d'' : Definitions}

/-- The tables after a request, which are kept if it fails, and the error if it does. -/
def perform (d : Definitions) : Request → Progress
  | .addType type => d.change addType [type]
  | .addDirective directive => d.change addDirective [directive]
  | .extend extensions => d.extendAll extensions

/-- The tables after a run of requests, whichever of them fail. -/
def performAll (d : Definitions) (requests : List Request) : Definitions :=
  requests.foldl (fun d request ↦ (d.perform request).definitions) d

/-- The requests of a run that do not fail. -/
def granted (d : Definitions) : List Request → List Request
  | [] => []
  | request :: requests =>
    let p := d.perform request
    if p.error = none then request :: p.definitions.granted requests else p.definitions.granted requests

/-! ### Growing -/

/-- Nothing is taken from the tables `d` or moved on the way to `d'`. Each type has kept its place, and all
of itself but what extensions have added to its collections, behind what was there; and directives are as
they were. -/
structure Grows (d d' : Definitions) : Prop where
  keys : d.types.keys <+: d'.types.keys
  types : ∀ {key base}, d.types.find? key = some base →
    ∃ type added, d'.types.find? key = some type ∧ type.Folds base added
  directives : d.directives.entries <+: d'.directives.entries

namespace Grows

/-- What nothing is done to has grown by nothing. -/
theorem refl (d : Definitions) : d.Grows d where
  keys := List.prefix_rfl
  types h := ⟨_, [], h, .refl _⟩
  directives := List.prefix_rfl

/-- Growing twice is growing. -/
theorem trans (h : d.Grows d') (h' : d'.Grows d'') : d.Grows d'' where
  keys := h.keys.trans h'.keys
  types hbase := by
    obtain ⟨mid, added, hmid, hfolds⟩ := h.types hbase
    obtain ⟨type, more, htype, hfolds'⟩ := h'.types hmid
    exact ⟨type, added ++ more, htype, hfolds.trans hfolds'⟩
  directives := h.directives.trans h'.directives

/-- Adding a type leaves all that was there. -/
theorem addType {type : TypeDefinition} (h : d.addType type = .ok d') : d.Grows d' := by
  obtain ⟨hnew, rfl⟩ := addType_eq_ok_iff.1 h
  refine ⟨?_, fun {key base} hbase ↦ ⟨base, [], ?_, .refl base⟩, List.prefix_rfl⟩
  · rw [Table.keys_push]
    exact List.prefix_append _ _
  · -- the name of the new type is none of those that find something
    have hmem : key ∈ d.types.keys := Table.find?_isSome_iff.1 (by rw [hbase]; rfl)
    rw [Table.find?_push hnew, if_neg (ne_of_mem_of_not_mem hmem hnew), hbase]

/-- Adding a directive leaves all that was there. -/
theorem addDirective {directive : DirectiveDefinition} (h : d.addDirective directive = .ok d') :
    d.Grows d' := by
  obtain ⟨-, rfl⟩ := addDirective_eq_ok_iff.1 h
  exact ⟨List.prefix_rfl, fun hbase ↦ ⟨_, [], hbase, .refl _⟩, List.prefix_append _ _⟩

/-- Extending changes one type, and leaves its name, its kind, its place and its members in front. -/
theorem extend {ext : TypeExtension} (hd : d.types.keys.Nodup) (h : d.extend ext = .ok d') :
    d.Grows d' := by
  obtain ⟨hdirectives, hfolds⟩ := folds_of_extend hd h
  refine ⟨(keys_of_extend h).symm ▸ List.prefix_rfl, fun {key base} hbase ↦ ?_,
    hdirectives.symm ▸ List.prefix_rfl⟩
  have hrel := Table.find?_rel (R := fun key base type ↦
    TypeDefinition.Folds type base ([ext].filter fun x ↦ x.name = key)) hfolds key
  rw [hbase] at hrel
  cases hfind : d'.types.find? key with
  | none =>
    rw [hfind] at hrel
    cases hrel
  | some type =>
    rw [hfind] at hrel
    cases hrel with
    | some htype => exact ⟨type, _, rfl, htype⟩

/-- Tables grow by a run of changes if they grow by each of them, however far the run comes. -/
theorem change {α : Type} {step : Definitions → α → Except ValidationError Definitions}
    (hwell : ∀ (d d' : Definitions) (a : α), d.WellFormed → step d a = .ok d' → d'.WellFormed)
    (hstep : ∀ (d d' : Definitions) (a : α), d.WellFormed → step d a = .ok d' → d.Grows d')
    (hd : d.WellFormed) (as : List α) : d.Grows (d.change step as).definitions := by
  induction as generalizing d with
  | nil => exact refl d
  | cons a as ih =>
    unfold Definitions.change
    split
    · next next hok => exact (hstep d next a hd hok).trans (ih (hwell d next a hd hok))
    · exact refl d

end Grows

/-! ### Extensions -/

/-- Extensions touch no directive and add no type, however far they come. -/
theorem frame_of_extendAll (d : Definitions) (extensions : List TypeExtension) :
    (d.extendAll extensions).definitions.directives = d.directives ∧
      (d.extendAll extensions).definitions.types.keys = d.types.keys := by
  induction extensions generalizing d with
  | nil => exact ⟨rfl, rfl⟩
  | cons ext extensions ih =>
    unfold extendAll change
    split
    · next next hok =>
      obtain ⟨hdirectives, hkeys⟩ := ih next
      obtain ⟨base, type, -, -, hnext⟩ := extend_eq_ok_iff.1 hok
      refine ⟨hdirectives.trans (by rw [hnext]), hkeys.trans (keys_of_extend hok)⟩
    · exact ⟨rfl, rfl⟩

/-! ### One request -/

/-- Every request keeps definitions well-formed, also one that fails. -/
theorem WellFormed.perform (h : d.WellFormed) (request : Request) :
    (d.perform request).definitions.WellFormed := by
  cases request with
  | addType type => exact .change (fun _ _ _ hd ↦ hd.addType) h [type]
  | addDirective directive => exact .change (fun _ _ _ hd ↦ hd.addDirective) h [directive]
  | extend extensions => exact h.extendAll extensions

/-- Every request makes definitions grow, also one that fails half-way. -/
theorem Grows.perform (h : d.WellFormed) (request : Request) : d.Grows (d.perform request).definitions := by
  cases request with
  | addType type =>
    exact .change (fun _ _ _ hd ↦ hd.addType) (fun _ _ _ _ hok ↦ .addType hok) h [type]
  | addDirective directive =>
    exact .change (fun _ _ _ hd ↦ hd.addDirective) (fun _ _ _ _ hok ↦ .addDirective hok) h [directive]
  | extend extensions =>
    exact .change (fun _ _ _ hd ↦ hd.extend) (fun _ _ _ hd hok ↦ .extend hd.types.nodup hok) h extensions

/-- A single change that fails leaves the tables as they were. -/
theorem definitions_change_singleton {α : Type}
    {step : Definitions → α → Except ValidationError Definitions} {a : α}
    (h : (d.change step [a]).error ≠ none) : (d.change step [a]).definitions = d := by
  unfold change at h ⊢
  split at h
  · exact absurd rfl h
  · rfl

/-- What is granted of a run is what is granted of its first request, and then of the others. -/
theorem granted_cons (d : Definitions) (request : Request) (requests : List Request) :
    d.granted (request :: requests) =
      d.granted [request] ++ (d.perform request).definitions.granted requests := by
  simp only [granted]
  split <;> rfl

/-- A request that is granted lists what it adds behind what was there, and no other lists anything. -/
theorem keys_perform (d : Definitions) (request : Request) :
    (d.perform request).definitions.types.keys =
        d.types.keys ++ ((d.granted [request]).filterMap Request.type?).map TypeDefinition.name ∧
      (d.perform request).definitions.directives.keys = d.directives.keys ++
        ((d.granted [request]).filterMap Request.directive?).map DirectiveDefinition.name := by
  cases request with
  | addType type =>
    cases h : d.addType type with
    | ok next =>
      obtain ⟨-, rfl⟩ := addType_eq_ok_iff.1 h
      simp [granted, perform, change, h, Request.type?, Request.directive?]
    | error e => simp [granted, perform, change, h]
  | addDirective directive =>
    cases h : d.addDirective directive with
    | ok next =>
      obtain ⟨-, rfl⟩ := addDirective_eq_ok_iff.1 h
      simp [granted, perform, change, h, Request.type?, Request.directive?]
    | error e => simp [granted, perform, change, h]
  | extend extensions =>
    -- extensions list nothing, even if only some of them were folded in
    obtain ⟨hdirectives, hkeys⟩ := frame_of_extendAll d extensions
    have hgranted : (d.granted [.extend extensions]).filterMap Request.type? = [] ∧
        (d.granted [.extend extensions]).filterMap Request.directive? = [] := by
      simp only [granted]
      split <;> exact ⟨rfl, rfl⟩
    simp [perform, hgranted, hkeys, hdirectives]

/-! ### Runs -/

/-- Well-formed definitions are so after any run, by induction on the requests. -/
theorem WellFormed.performAll (h : d.WellFormed) (requests : List Request) :
    (d.performAll requests).WellFormed := by
  induction requests generalizing d with
  | nil => exact h
  | cons request requests ih => exact ih (h.perform request)

/-- Definitions only grow in a run, by induction on the requests. -/
theorem Grows.performAll (h : d.WellFormed) (requests : List Request) : d.Grows (d.performAll requests) := by
  induction requests generalizing d with
  | nil => exact refl d
  | cons request requests ih => exact (perform h request).trans (ih (h.perform request))

/-- The names after a run are those before and those that were granted, in the order of the requests. -/
theorem keys_performAll (d : Definitions) (requests : List Request) :
    (d.performAll requests).types.keys =
        d.types.keys ++ ((d.granted requests).filterMap Request.type?).map TypeDefinition.name ∧
      (d.performAll requests).directives.keys = d.directives.keys ++
        ((d.granted requests).filterMap Request.directive?).map DirectiveDefinition.name := by
  induction requests generalizing d with
  | nil => simp [performAll, granted]
  | cons request requests ih =>
    obtain ⟨htypes, hdirectives⟩ := keys_perform d request
    obtain ⟨htypes', hdirectives'⟩ := ih (d.perform request).definitions
    rw [granted_cons, List.filterMap_append, List.filterMap_append, List.map_append, List.map_append,
      ← List.append_assoc, ← List.append_assoc, ← htypes, ← hdirectives]
    exact ⟨htypes', hdirectives'⟩

/-- What holds of tables that a run of requests has reached, and whatever is asked of them next. -/
structure ReachedBy (requests : List Request) (d : Definitions) : Prop where
  /-- Keys are distinct, and each is the name of its definition. -/
  wellFormed : d.WellFormed
  /-- The types that are there were added by the requests that did not fail, in this order. -/
  types_keys :
    d.types.keys = ((empty.granted requests).filterMap Request.type?).map TypeDefinition.name
  /-- So were the directives. -/
  directives_keys :
    d.directives.keys = ((empty.granted requests).filterMap Request.directive?).map DirectiveDefinition.name
  /-- Whatever is asked for later, nothing moves, and nothing changes but by growing. -/
  grows : ∀ later, d.Grows (d.performAll later)
  /-- Extensions touch no directive and add no type, also if they get half-way only. -/
  extend : ∀ extensions, (d.perform (.extend extensions)).definitions.directives = d.directives ∧
    (d.perform (.extend extensions)).definitions.types.keys = d.types.keys
  /-- A type that cannot be added leaves all as it was. -/
  addType : ∀ type, (d.perform (.addType type)).error ≠ none →
    (d.perform (.addType type)).definitions = d
  /-- So does a directive. -/
  addDirective : ∀ directive, (d.perform (.addDirective directive)).error ≠ none →
    (d.perform (.addDirective directive)).definitions = d

/-- **The tables stay in order.** Types and directives may be added to empty tables, and extensions folded
in, in any order and with any success: keys are always distinct and the names of their definitions, they
stand in the order in which they were added, and stay there; and what is there never changes except that a
type has more behind the items of its collections. -/
theorem reachedBy_performAll (requests : List Request) :
    ReachedBy requests (empty.performAll requests) where
  wellFormed := WellFormed.empty.performAll requests
  types_keys := (keys_performAll empty requests).1
  directives_keys := (keys_performAll empty requests).2
  grows := .performAll (WellFormed.empty.performAll requests)
  extend := frame_of_extendAll _
  addType _ := definitions_change_singleton
  addDirective _ := definitions_change_singleton

end Definitions

end TypeSystem
