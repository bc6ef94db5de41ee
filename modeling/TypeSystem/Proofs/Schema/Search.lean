import TypeSystem.Proofs.Schema.ReferenceGraph
import TypeSystem.Proofs.Schema.Walk

/-!
# The search for a use of a directive

`Definitions.search` is a search of the graph of references, and it finds a route exactly when there is
one; so does the walk with its own stack, which finds the same (`walk_eq_search`). Both halves are read off
what one run guarantees for the definitions `unentered` that it may enter:

* a run that finds something (`Found`) returns a chain that starts among the pending names, ends in the
  target and in between passes definitions that it has itself entered, each once;
* a run that finds nothing (`Exhausted`) leaves a part of `unentered` such that neither the pending names
  nor anything that an entered definition refers to is the target or is left. So whatever can be reached
  is not left and is not the target, through cycles as well: an entered definition cannot hide a route,
  because all its references have been looked at.

Entering takes a definition off the list, so that each is entered once needs that the list names none
twice; for well-formed tables `all_nodup` gives that.
-/

namespace TypeSystem

namespace Definitions

variable {d : Definitions} {target : Reference} {unentered pending : List Reference}

/-! ### What one run guarantees -/

/-- What a search that found the target returns. -/
structure Found (d : Definitions) (target : Reference) (unentered pending path : List Reference) :
    Prop where
  starts : ∃ start ∈ pending, path.head? = some start
  linked : path.IsChain d.Edge
  ends : path.getLast? = some target
  nodup : path.Nodup
  entered : ∀ name ∈ path, name = target ∨ name ∈ unentered

/-- What a search that found nothing leaves. -/
structure Exhausted (d : Definitions) (target : Reference) (unentered pending left : List Reference) :
    Prop where
  sublist : left.Sublist unentered
  pending : ∀ name ∈ pending, name ≠ target ∧ name ∉ left
  closed : ∀ name ∈ unentered, name ∉ left → ∀ next, d.Edge name next → next ≠ target ∧ next ∉ left

namespace Found

/-- The target is first in the list. -/
theorem here : Found d target unentered (target :: pending) [target] where
  starts := ⟨target, List.mem_cons_self, rfl⟩
  linked := .singleton target
  ends := rfl
  nodup := List.nodup_singleton target
  entered := fun _ h ↦ .inl (List.mem_singleton.1 h)

/-- A path found from what a definition refers to goes on from that definition. -/
theorem enter {name : Reference} {path : List Reference} (hnodup : unentered.Nodup)
    (hname : name ∈ unentered) (hne : name ≠ target)
    (h : Found d target (unentered.erase name) (d.references name) path) :
    Found d target unentered (name :: pending) (name :: path) where
  starts := ⟨name, List.mem_cons_self, rfl⟩
  linked := by
    obtain ⟨start, hstart, hhead⟩ := h.starts
    refine List.isChain_cons.2 ⟨fun next hnext ↦ ?_, h.linked⟩
    rw [hhead, Option.mem_some_iff] at hnext
    exact edge_iff_mem_references.2 (hnext ▸ hstart)
  ends := by
    rw [List.getLast?_cons, h.ends]
    rfl
  nodup := by
    refine List.nodup_cons.2 ⟨fun hmem ↦ ?_, h.nodup⟩
    rcases h.entered name hmem with heq | hagain
    · exact hne heq
    · exact hnodup.not_mem_erase hagain
  entered := by
    intro other hother
    rcases List.mem_cons.1 hother with rfl | hother
    · exact .inr hname
    · exact (h.entered other hother).imp_right List.mem_of_mem_erase

/-- A path found later starts among the pending names too. -/
theorem later {name : Reference} {left path : List Reference} (hleft : left.Sublist unentered)
    (h : Found d target left pending path) : Found d target unentered (name :: pending) path where
  starts := by
    obtain ⟨start, hstart, hhead⟩ := h.starts
    exact ⟨start, List.mem_cons_of_mem _ hstart, hhead⟩
  linked := h.linked
  ends := h.ends
  nodup := h.nodup
  entered := fun other hother ↦ (h.entered other hother).imp_right fun hmem ↦ hleft.subset hmem

end Found

namespace Exhausted

/-- An empty list is exhausted at once. -/
theorem nil : Exhausted d target unentered [] unentered where
  sublist := .refl _
  pending := fun _ h ↦ absurd h List.not_mem_nil
  closed := fun _ hmem hleft ↦ absurd hmem hleft

/-- A name that is not entered was entered before or is not defined; the search goes on without it. -/
theorem skip {name : Reference} {left : List Reference} (hname : name ∉ unentered) (hne : name ≠ target)
    (h : Exhausted d target unentered pending left) :
    Exhausted d target unentered (name :: pending) left where
  sublist := h.sublist
  pending := by
    intro other hother
    rcases List.mem_cons.1 hother with rfl | hother
    · exact ⟨hne, fun hmem ↦ hname (h.sublist.subset hmem)⟩
    · exact h.pending other hother
  closed := h.closed

/-- A definition is entered, nothing is found from it, and nothing is found from the rest. -/
theorem enter {name : Reference} {between left : List Reference} (hnodup : unentered.Nodup)
    (hne : name ≠ target)
    (hinner : Exhausted d target (unentered.erase name) (d.references name) between)
    (houter : Exhausted d target between pending left) :
    Exhausted d target unentered (name :: pending) left := by
  have hname : name ∉ between := fun hmem ↦ hnodup.not_mem_erase (hinner.sublist.subset hmem)
  -- what is left later is left now, so that nothing said about `between` is lost
  have hkeep {other : Reference} (h : other ≠ target ∧ other ∉ between) :
      other ≠ target ∧ other ∉ left :=
    ⟨h.1, fun hmem ↦ h.2 (houter.sublist.subset hmem)⟩
  refine ⟨houter.sublist.trans (hinner.sublist.trans List.erase_sublist), ?_, ?_⟩
  · intro other hother
    rcases List.mem_cons.1 hother with rfl | hother
    · exact hkeep ⟨hne, hname⟩
    · exact houter.pending other hother
  · intro other hother hleft next hedge
    by_cases heq : other = name
    · subst heq
      exact hkeep (hinner.pending next (edge_iff_mem_references.1 hedge))
    · by_cases hmem : other ∈ between
      · exact houter.closed other hmem hleft next hedge
      · exact hkeep (hinner.closed other ((List.mem_erase_of_ne heq).2 hother) hmem next hedge)

end Exhausted

/-! ### Every run -/

/-- A search that finds nothing has exhausted its list: nothing in the list leads to the target by what was
not entered yet. -/
theorem exhausted_of_search (hnodup : unentered.Nodup) {left : List Reference}
    (h : (d.search target unentered pending).left? = some left) :
    Exhausted d target unentered pending left := by
  fun_induction search d target unentered pending generalizing left with
  | case1 unentered =>
    cases h
    exact .nil
  | case2 => cases h
  | case3 => cases h
  | case4 unentered name pending hne hmem _ between hbetween hsearch ihinner ihouter =>
    rw [SearchOutcome.left?_weaken] at h
    have hinner := ihinner (hnodup.erase name) (by rw [hsearch]; rfl)
    have hsub : between.Nodup := (hnodup.erase name).sublist hinner.sublist
    exact .enter hnodup hne hinner (ihouter hsub h)
  | case5 unentered name pending hne hmem ih => exact .skip hmem hne (ih hnodup h)

/-- A search that finds something has found a way. The induction is that of the search, and each case is one
of the three rules above. -/
theorem found_of_search (hnodup : unentered.Nodup) {path : List Reference}
    (h : (d.search target unentered pending).path? = some path) :
    Found d target unentered pending path := by
  fun_induction search d target unentered pending generalizing path with
  | case1 => cases h
  | case2 =>
    cases h
    exact .here
  | case3 unentered name pending hne hmem _ path' hsearch ih =>
    cases h
    exact .enter hnodup hmem hne (ih (hnodup.erase name) (by rw [hsearch]; rfl))
  | case4 unentered name pending hne hmem _ between hbetween hsearch _ ih =>
    rw [SearchOutcome.path?_weaken] at h
    have hinner : Exhausted d target (unentered.erase name) (d.references name) between :=
      exhausted_of_search (hnodup.erase name) (by rw [hsearch]; rfl)
    have hsub : between.Sublist unentered := hinner.sublist.trans List.erase_sublist
    exact .later hsub (ih (hnodup.sublist hsub) h)
  | case5 unentered name pending hne hmem ih => exact .later (.refl _) (ih hnodup h)

/-! ### The searches that are made -/

/-- The references of a name are those of its definition. -/
theorem references_of_type? {name : String} {type : TypeDefinition} (h : d.type? name = some type) :
    d.references (.type name) = type.references := by
  rw [references, h]
  rfl

/-- A chain from a type to a directive is a chain from what the type refers to. -/
theorem reaches_type_iff {name target : String} {type : TypeDefinition}
    (h : d.type? name = some type) :
    d.Reaches [.type name] target ↔ d.Reaches type.references target := by
  constructor
  · rintro ⟨start, hstart, hreach⟩
    obtain rfl := List.mem_singleton.1 hstart
    rcases hreach.cases_head with heq | ⟨next, hedge, hreach⟩
    · cases heq
    · rw [edge_iff_mem_references, references_of_type? h] at hedge
      exact ⟨next, hedge, hreach⟩
  · rintro ⟨next, hnext, hreach⟩
    rw [← references_of_type? h, ← edge_iff_mem_references] at hnext
    exact ⟨.type name, List.mem_singleton_self _, .head hnext hreach⟩

/-- Nothing is found only if nothing can be reached. All definitions may be entered but for those whose
references are looked at from the start. -/
theorem Exhausted.not_reaches {starts left : List Reference} {target : String}
    (h : Exhausted d (.directive target) unentered starts left)
    (hstart : ∀ name next, d.Edge name next → name ∉ unentered → next ∈ starts) :
    ¬ d.Reaches starts target := by
  rintro ⟨start, hmem, hreach⟩
  -- along a chain no name is the target, and none is left: that carries over from name to name
  have hnever : ∀ {name}, Relation.ReflTransGen d.Edge start name →
      name ≠ .directive target ∧ name ∉ left := by
    intro name hname
    induction hname with
    | refl => exact h.pending start hmem
    | @tail between next _ hedge ih =>
      by_cases hentered : between ∈ unentered
      · exact h.closed between hentered ih.2 next hedge
      · exact h.pending next (hstart between next hedge hentered)
  exact (hnever hreach).1 rfl

/-- What is found leads from one of the starts to the target, without coming to a node twice. -/
theorem Found.route {starts path : List Reference} {target : String}
    (h : Found d (.directive target) unentered starts path) : d.Route starts target path :=
  ⟨h.starts, h.linked, h.ends, h.nodup⟩

/-- A path found from what a type refers to is a route from the type. -/
theorem Found.route_of_type {name target : String} {type : TypeDefinition} {path : List Reference}
    (hd : d.WellFormed) (htype : d.type? name = some type)
    (h : Found d (.directive target) (d.all.erase (.type name)) type.references path) :
    d.Route [.type name] target (.type name :: path) := by
  rw [← references_of_type? htype] at h
  exact (h.enter (all_nodup hd) (mem_all_of_type? htype) (by simp)).route

variable {target : String}

/-- A path from a type is the labels of a way that begins with the type. -/
theorem route_of_pathFromType (hd : d.WellFormed) {type : TypeDefinition}
    (htype : d.type? type.name = some type) {path : List String}
    (h : d.pathFromType target type = some path) :
    ∃ route, d.Route [.type type.name] target route ∧ route.map Reference.label = path := by
  rw [pathFromType_eq_search hd] at h
  obtain ⟨found, hfound, rfl⟩ := Option.map_eq_some_iff.1 h
  exact ⟨_, (found_of_search ((all_nodup hd).erase _) hfound).route_of_type hd htype, rfl⟩

/-- A path from applied directives is the labels of a way that begins with one of them. -/
theorem route_of_pathFromApplied (hd : d.WellFormed) {directives : List AppliedDirective}
    {path : List String} (h : d.pathFromApplied target directives = some path) :
    ∃ route, d.Route (appliedReferences directives) target route ∧
      route.map Reference.label = path := by
  rw [pathFromApplied_eq_search hd] at h
  obtain ⟨found, hfound, rfl⟩ := Option.map_eq_some_iff.1 h
  exact ⟨found, (found_of_search (all_nodup hd) hfound).route, rfl⟩

/-- The search from a type finds something exactly if the directive can be reached. -/
theorem pathFromType_isSome_iff (hd : d.WellFormed) {type : TypeDefinition}
    (htype : d.type? type.name = some type) :
    (d.pathFromType target type).isSome ↔ d.Reaches [.type type.name] target := by
  constructor
  · intro h
    obtain ⟨path, hpath⟩ := Option.isSome_iff_exists.1 h
    obtain ⟨route, hroute, -⟩ := route_of_pathFromType hd htype hpath
    exact hroute.reaches
  · rw [reaches_type_iff htype]
    intro hreach
    by_contra hnone
    simp only [pathFromType_eq_search hd, Option.isSome_map, Option.not_isSome_iff_eq_none] at hnone
    obtain ⟨left, hleft⟩ := SearchOutcome.left?_isSome_of_path? hnone
    refine (exhausted_of_search ((all_nodup hd).erase _) hleft).not_reaches ?_ hreach
    -- the type itself may not be entered again, but its references are what the search starts from
    intro name next hedge hnot
    have hname : name = .type type.name := by
      by_contra hne
      exact hnot ((List.mem_erase_of_ne hne).2 (mem_all_of_edge hedge))
    rw [hname, edge_iff_mem_references, references_of_type? htype] at hedge
    exact hedge

/-- The search from applied directives finds something exactly if the directive can be reached. -/
theorem pathFromApplied_isSome_iff (hd : d.WellFormed) {directives : List AppliedDirective} :
    (d.pathFromApplied target directives).isSome ↔ d.Reaches (appliedReferences directives) target := by
  constructor
  · intro h
    obtain ⟨path, hpath⟩ := Option.isSome_iff_exists.1 h
    obtain ⟨route, hroute, -⟩ := route_of_pathFromApplied hd hpath
    exact hroute.reaches
  · intro hreach
    by_contra hnone
    simp only [pathFromApplied_eq_search hd, Option.isSome_map, Option.not_isSome_iff_eq_none] at hnone
    obtain ⟨left, hleft⟩ := SearchOutcome.left?_isSome_of_path? hnone
    refine (exhausted_of_search (all_nodup hd) hleft).not_reaches ?_ hreach
    intro name next hedge hnot
    exact absurd (mem_all_of_edge hedge) hnot

/-- **The search is sound and complete.** From a type of the tables, and from any applied directives, it
finds something exactly if a chain of references leads to the directive, and what it finds is such a
chain, no label of which comes twice. -/
theorem search_finds_exactly_the_reachable (hd : d.WellFormed)
    (hplain : ∀ name ∈ d.types.keys, '@' ∉ name.toList) (target : String) :
    (∀ type ∈ d.types.values,
      ((∃ path, d.pathFromType target type = some path) ↔ d.Reaches [.type type.name] target) ∧
      ∀ path, d.pathFromType target type = some path → d.Path [.type type.name] target path) ∧
    ∀ directives : List AppliedDirective,
      ((∃ path, d.pathFromApplied target directives = some path) ↔
        d.Reaches (appliedReferences directives) target) ∧
      ∀ path, d.pathFromApplied target directives = some path →
        d.Path (appliedReferences directives) target path := by
  refine ⟨fun type hmem ↦ ⟨?_, fun path hpath ↦ ?_⟩, fun directives ↦ ⟨?_, fun path hpath ↦ ?_⟩⟩
  · rw [← Option.isSome_iff_exists]
    exact pathFromType_isSome_iff hd (hd.types.find?_name hmem)
  · obtain ⟨route, hroute, rfl⟩ := route_of_pathFromType hd (hd.types.find?_name hmem) hpath
    exact hroute.path hplain
  · rw [← Option.isSome_iff_exists]
    exact pathFromApplied_isSome_iff hd
  · obtain ⟨route, hroute, rfl⟩ := route_of_pathFromApplied hd hpath
    exact hroute.path hplain

/-- An input object with one field. -/
def inputWith (name fieldType : String) (applied : List AppliedDirective) : TypeDefinition :=
  ⟨none, name, [], .inputObject [⟨none, "f", .named fieldType .nullable, none, applied, .emptyAt .origin⟩],
    .emptyAt .origin⟩

/-- Two input objects, each with a field of the other's type; the second field has `@t` applied to it. -/
def twoInputs : Definitions :=
  ⟨⟨[("A", inputWith "A" "B" []), ("B", inputWith "B" "A" [⟨"t", [], .emptyAt .origin⟩])]⟩, .empty⟩

/-- Two input objects refer to one another, and the directive is applied to a field of one of them. -/
theorem search_finds_across_a_cycle :
    twoInputs.WellFormed ∧ (∀ name ∈ twoInputs.types.keys, '@' ∉ name.toList) ∧
      inputWith "A" "B" [] ∈ twoInputs.types.values ∧
      ∃ path, twoInputs.pathFromType "t" (inputWith "A" "B" []) = some path ∧
        twoInputs.Path [.type "A"] "t" path := by
  have hbuilt : build twoInputs.types.values [] = .ok twoInputs := rfl
  have hwell : twoInputs.WellFormed := .build hbuilt
  have hplain : ∀ name ∈ twoInputs.types.keys, '@' ∉ name.toList := by decide
  have hmem : inputWith "A" "B" [] ∈ twoInputs.types.values := by decide
  have hreach : twoInputs.Reaches [.type "A"] "t" :=
    ⟨.type "A", List.mem_singleton_self _,
      .head (edge_iff_mem_references.2 (by decide) : twoInputs.Edge (.type "A") (.type "B"))
        (.single (edge_iff_mem_references.2 (by decide)))⟩
  obtain ⟨hiff, hpath⟩ := (search_finds_exactly_the_reachable hwell hplain "t").1 _ hmem
  obtain ⟨path, hfound⟩ := hiff.2 hreach
  exact ⟨hwell, hplain, hmem, path, hfound, hpath path hfound⟩

end Definitions

end TypeSystem
