import TypeSystem.Proofs.Schema.EdgeOrder
import TypeSystem.Proofs.Schema.Search

/-!
# The first path

Among all chains of references to a directive the search returns the one that comes first in the order of
declaration. A chain is given by the place of each reference among those of the definition before it (`Follows`,
`EdgeAt`), and chains are compared by these numbers, the first that differs deciding. Only chains that enter no
definition twice count (`Chain`).

A definition that was entered and left is not entered again, though a chain yet to come may pass through it.
No such chain is missed, for the reason that is kept as the invariant of the search (`Underway`): whatever is
neither still to be entered nor on the way to where the search is leads to such definitions only, and never to
the target. So a chain that gets there can come to the target only through the way that the search is on, and
would enter a definition of it twice.
-/

namespace TypeSystem

namespace Definitions

/-! ### Chains by their numbers -/

/-- The names that a chain of references comes to, each reference given by its place among those declared: the
first among `edges`, and every other one among those of the name before it. -/
inductive Follows (d : Definitions) : (Nat → Reference → Prop) → List Nat → List Reference → Prop where
  | nil {edges : Nat → Reference → Prop} : Follows d edges [] []
  | cons {edges : Nat → Reference → Prop} {i : Nat} {name : Reference} {indices : List Nat}
      {names : List Reference} (edge : edges i name) (rest : Follows d (d.EdgeAt name) indices names) :
      Follows d edges (i :: indices) (name :: names)

/-- A chain of references from one of `edges` to the target, which enters no definition twice, nor one that
is on the way to these edges. -/
structure Chain (d : Definitions) (target : Reference) (way : List Reference) (edges : Nat → Reference → Prop)
    (indices : List Nat) (names : List Reference) : Prop where
  follows : d.Follows edges indices names
  ends : names.getLast? = some target
  once : (way ++ names.dropLast).Nodup

/-- The names are those of a chain that comes before all others. -/
def IsFirst (d : Definitions) (target : Reference) (way : List Reference) (edges : Nat → Reference → Prop)
    (names : List Reference) : Prop :=
  ∃ indices, d.Chain target way edges indices names ∧
    ∀ indices' names', d.Chain target way edges indices' names' → ¬ List.Lex (· < ·) indices' indices

/-- The edges that lead to the names of a list, each in its place. -/
def Listed (names : List Reference) (i : Nat) (name : Reference) : Prop :=
  names[i]? = some name

variable {d : Definitions} {target name : Reference} {way unentered pending names : List Reference}
  {edges : Nat → Reference → Prop} {i : Nat} {indices : List Nat}

/-- The edges of a name are those that stand at some place. -/
theorem edge_iff_exists_edgeAt {next : Reference} : d.Edge name next ↔ ∃ place, d.EdgeAt name place next := by
  simp only [edge_iff_mem_references, edgeAt_iff, List.mem_iff_getElem?]

/-- The edges of a node are its references by their positions. -/
theorem edgeAt_eq_listed : d.EdgeAt name = Listed (d.references name) :=
  funext fun _ ↦ funext fun _ ↦ propext edgeAt_iff

theorem refersAt_eq_listed (type : TypeDefinition) : type.RefersAt = Listed type.references :=
  funext fun _ ↦ funext fun _ ↦ propext TypeDefinition.refersAt_iff

theorem appliedAt_eq_listed (directives : List AppliedDirective) :
    AppliedAt directives = Listed (appliedReferences directives) :=
  funext fun _ ↦ funext fun _ ↦ propext appliedAt_iff

namespace Chain

/-- A chain has at least its target. -/
theorem ne_nil (h : d.Chain target way edges indices names) : names ≠ [] := by
  rintro rfl
  cases h.ends

theorem indices_ne_nil (h : d.Chain target way edges indices names) : indices ≠ [] := by
  rintro rfl
  cases h.follows
  cases h.ends

/-- The target itself is a chain. -/
theorem here (hi : edges i target) (hway : way.Nodup) : d.Chain target way edges [i] [target] where
  follows := .cons hi .nil
  ends := rfl
  once := by simpa using hway

/-- A chain from what a definition refers to goes on from that definition. -/
theorem enter (hi : edges i name) (h : d.Chain target (name :: way) (d.EdgeAt name) indices names) :
    d.Chain target way edges (i :: indices) (name :: names) where
  follows := .cons hi h.follows
  ends := by
    rw [List.getLast?_cons, h.ends]
    rfl
  once := by
    rw [List.dropLast_cons_of_ne_nil h.ne_nil]
    exact List.perm_middle.nodup_iff.2 h.once

/-- A chain leads to the target at once, or enters a definition and goes on from there. -/
theorem uncons (h : d.Chain target way edges (i :: indices) names) :
    ∃ name others, edges i name ∧ names = name :: others ∧
      (name ≠ target → name ∉ way ∧ d.Chain target (name :: way) (d.EdgeAt name) indices others) := by
  cases h.follows with
  | @cons _ _ name _ others hi hothers =>
    refine ⟨name, others, hi, rfl, fun hne ↦ ?_⟩
    have hsome : others ≠ [] := by
      rintro rfl
      exact hne (Option.some.inj h.ends)
    have hends : others.getLast? = some target := by
      obtain ⟨next, others, rfl⟩ := List.exists_cons_of_ne_nil hsome
      rw [← h.ends, List.getLast?_cons_cons]
    have honce : (name :: way ++ others.dropLast).Nodup := by
      have htwice := h.once
      rw [List.dropLast_cons_of_ne_nil hsome] at htwice
      exact List.perm_middle.nodup_iff.1 htwice
    exact ⟨fun hmem ↦ (List.nodup_cons.1 honce).1 (List.mem_append_left _ hmem), hothers, hends, honce⟩

/-- A chain that does not begin with the first edge is one from the others. -/
theorem succ_iff : d.Chain target way (Listed (name :: pending)) ((i + 1) :: indices) names ↔
    d.Chain target way (Listed pending) (i :: indices) names := by
  have hfollows : d.Follows (Listed (name :: pending)) ((i + 1) :: indices) names ↔
      d.Follows (Listed pending) (i :: indices) names := by
    constructor
    · rintro ⟨⟩
      exact .cons ‹_› ‹_›
    · rintro ⟨⟩
      exact .cons ‹_› ‹_›
  constructor
  · exact fun h ↦ ⟨hfollows.1 h.follows, h.ends, h.once⟩
  · exact fun h ↦ ⟨hfollows.2 h.follows, h.ends, h.once⟩

end Chain

/-! ### The invariant -/

/-- The state of a search on its way through the definitions `way`, when those of `unentered` are still to be
entered. All others are done with: what they refer to is done with too, or on the way, and not the target. -/
structure Underway (d : Definitions) (target : Reference) (way unentered : List Reference) : Prop where
  nodup : way.Nodup
  disjoint : ∀ name ∈ way, name ∉ unentered
  done : ∀ name, name ∉ unentered → name ∉ way → ∀ next, d.Edge name next →
    next ≠ target ∧ next ∉ unentered

namespace Underway

/-- No chain comes to the target from what is done with, unless it crosses the way. -/
theorem not_chain (h : Underway d target way unentered) {way' : List Reference} (hway : way ⊆ way')
    (hedges : ∀ i next, edges i next → next ≠ target ∧ next ∉ unentered) :
    ¬ d.Chain target way' edges indices names := by
  -- induction along the chain, which gets longer at the end of the way
  induction indices generalizing edges way' names with
  | nil =>
    intro hchain
    cases hchain.follows
    cases hchain.ends
  | cons i indices ih =>
    intro hchain
    obtain ⟨name, others, hi, rfl, hothers⟩ := hchain.uncons
    obtain ⟨hne, hentered⟩ := hedges i name hi
    obtain ⟨hname, hrest⟩ := hothers hne
    refine ih (List.subset_cons_of_subset _ hway) (fun _ next hnext ↦ ?_) hrest
    exact h.done name hentered (fun hmem ↦ hname (hway hmem)) next (edge_iff_exists_edgeAt.2 ⟨_, hnext⟩)

/-- A definition is entered. -/
theorem enter (h : Underway d target way unentered) (hnodup : unentered.Nodup) (hname : name ∈ unentered) :
    Underway d target (name :: way) (unentered.erase name) where
  nodup := List.nodup_cons.2 ⟨fun hmem ↦ h.disjoint name hmem hname, h.nodup⟩
  disjoint := by
    intro other hother
    rcases List.mem_cons.1 hother with rfl | hother
    · exact hnodup.not_mem_erase
    · exact fun hmem ↦ h.disjoint other hother (List.mem_of_mem_erase hmem)
  done := by
    intro other hother hway next hedge
    obtain ⟨hne, hway⟩ := not_or.1 (mt List.mem_cons.2 hway)
    obtain ⟨hnext, hleft⟩ := h.done other (fun hmem ↦ hother ((List.mem_erase_of_ne hne).2 hmem)) hway next hedge
    exact ⟨hnext, fun hmem ↦ hleft (List.mem_of_mem_erase hmem)⟩

/-- A definition is left, nothing having been found from it. -/
theorem leave {left : List Reference} (h : Underway d target way unentered)
    (hleft : Exhausted d target (unentered.erase name) (d.references name) left) :
    Underway d target way left where
  nodup := h.nodup
  disjoint := fun other hother hmem ↦
    h.disjoint other hother (List.mem_of_mem_erase (hleft.sublist.subset hmem))
  done := by
    intro other hother hway next hedge
    by_cases hinside : other ∈ unentered.erase name
    · exact hleft.closed other hinside hother next hedge
    · by_cases heq : other = name
      · subst heq
        exact hleft.pending next (edge_iff_mem_references.1 hedge)
      · have hbefore := h.done other (fun hmem ↦ hinside ((List.mem_erase_of_ne heq).2 hmem)) hway next hedge
        exact hbefore.imp_right fun hnot hmem ↦ hnot (List.mem_of_mem_erase (hleft.sublist.subset hmem))

/-- No chain begins with a definition that is done with. -/
theorem not_chain_zero (h : Underway d target way unentered) (hne : name ≠ target)
    (hname : name ∉ unentered) : ¬ d.Chain target way (Listed (name :: pending)) (0 :: indices) names := by
  intro hchain
  obtain ⟨_, others, ⟨⟩, rfl, hothers⟩ := hchain.uncons
  obtain ⟨hway, hrest⟩ := hothers hne
  refine h.not_chain (List.subset_cons_self name way) (fun _ next hnext ↦ ?_) hrest
  exact h.done name hname hway next (edge_iff_exists_edgeAt.2 ⟨_, hnext⟩)

end Underway

/-! ### What comes first -/

namespace IsFirst

/-- The target comes before everything else. -/
theorem here (hway : way.Nodup) : d.IsFirst target way (Listed (target :: pending)) [target] := by
  refine ⟨[0], .here rfl hway, fun indices' names' hchain hlex ↦ ?_⟩
  cases hlex with
  | nil => exact hchain.indices_ne_nil rfl
  | cons hlex => cases hlex
  | rel hlt => exact Nat.not_lt_zero _ hlt

/-- What comes first from a definition comes first, if the definition does. -/
theorem enter (hne : name ≠ target) (h : d.IsFirst target (name :: way) (d.EdgeAt name) names) :
    d.IsFirst target way (Listed (name :: pending)) (name :: names) := by
  obtain ⟨indices, hchain, hfirst⟩ := h
  refine ⟨0 :: indices, hchain.enter rfl, fun indices' names' hchain' hlex ↦ ?_⟩
  cases hlex with
  | nil => exact hchain'.indices_ne_nil rfl
  | cons hlex =>
    obtain ⟨_, others, ⟨⟩, -, hothers⟩ := hchain'.uncons
    exact hfirst _ _ (hothers hne).2 hlex
  | rel hlt => exact Nat.not_lt_zero _ hlt

/-- What comes first from the other edges comes first, if there is no chain that begins with the first. -/
theorem later (hnone : ∀ indices names, ¬ d.Chain target way (Listed (name :: pending)) (0 :: indices) names)
    (h : d.IsFirst target way (Listed pending) names) : d.IsFirst target way (Listed (name :: pending)) names := by
  obtain ⟨indices, hchain, hfirst⟩ := h
  obtain ⟨i, indices, rfl⟩ := List.exists_cons_of_ne_nil hchain.indices_ne_nil
  refine ⟨(i + 1) :: indices, Chain.succ_iff.2 hchain, fun indices' names' hchain' hlex ↦ ?_⟩
  obtain ⟨j, indices', rfl⟩ := List.exists_cons_of_ne_nil hchain'.indices_ne_nil
  cases j with
  | zero => exact hnone _ _ hchain'
  | succ j =>
    refine hfirst _ _ (Chain.succ_iff.1 hchain') ?_
    cases hlex with
    | cons hlex => exact .cons hlex
    | rel hlt => exact .rel (Nat.lt_of_succ_lt_succ hlt)

end IsFirst

/-- A search that is under way finds what comes first. -/
theorem isFirst_of_search (hnodup : unentered.Nodup) (hunderway : Underway d target way unentered)
    {path : List Reference} (h : (d.search target unentered pending).path? = some path) :
    d.IsFirst target way (Listed pending) path := by
  fun_induction search d target unentered pending generalizing way path with
  | case1 => cases h
  | case2 =>
    cases h
    exact .here hunderway.nodup
  | case3 unentered name pending hne hmem _ path' hsearch ih =>
    cases h
    refine .enter hne ?_
    rw [edgeAt_eq_listed]
    exact ih (hnodup.erase name) (hunderway.enter hnodup hmem) (by rw [hsearch]; rfl)
  | case4 unentered name pending hne hmem _ between hbetween hsearch _ ih =>
    rw [SearchOutcome.path?_weaken] at h
    have hleft : Exhausted d target (unentered.erase name) (d.references name) between :=
      exhausted_of_search (hnodup.erase name) (by rw [hsearch]; rfl)
    have hbetween : between.Nodup := (hnodup.erase name).sublist hleft.sublist
    have hname : name ∉ between := fun h ↦ hnodup.not_mem_erase (hleft.sublist.subset h)
    -- no chain to the target goes through what has been entered in vain
    have hunderway := hunderway.leave hleft
    exact .later (fun _ _ ↦ hunderway.not_chain_zero hne hname) (ih hbetween hunderway h)
  | case5 unentered name pending hne hmem ih =>
    exact .later (fun _ _ ↦ hunderway.not_chain_zero hne hmem) (ih hnodup hunderway h)

/-! ### The searches that are made -/

/-- A search from a type sets out with the type entered. -/
theorem underway_type (hd : d.WellFormed) (name : String) :
    Underway d target [.type name] (d.all.erase (.type name)) where
  nodup := List.nodup_singleton _
  disjoint := by
    intro other hother
    rw [List.mem_singleton.1 hother]
    exact (all_nodup hd).not_mem_erase
  done := fun _ hother hway _ hedge ↦
    absurd ((List.mem_erase_of_ne (mt List.mem_singleton.2 hway)).2 (mem_all_of_edge hedge)) hother

/-- A search from applied directives sets out with nothing entered. -/
theorem underway_nil : Underway d target [] d.all where
  nodup := List.nodup_nil
  disjoint := fun _ hother ↦ absurd hother List.not_mem_nil
  done := fun _ hother _ _ hedge ↦ absurd (mem_all_of_edge hedge) hother

/-- **The path that is found is the first one.** From a type, and from applied directives, what the search
returns are the labels of a chain to the directive, and no chain that enters no definition twice has
lexicographically smaller numbers. -/
theorem path_found_is_first (hd : d.WellFormed) (target : String) :
    (∀ type path, d.pathFromType target type = some path →
      ∃ names, path = type.name :: names.map Reference.label ∧
        d.IsFirst (.directive target) [.type type.name] type.RefersAt names) ∧
    ∀ directives path, d.pathFromApplied target directives = some path →
      ∃ names, path = names.map Reference.label ∧
        d.IsFirst (.directive target) [] (AppliedAt directives) names := by
  constructor
  · intro type path h
    rw [pathFromType_eq_search hd] at h
    obtain ⟨names, hnames, rfl⟩ := Option.map_eq_some_iff.1 h
    rw [refersAt_eq_listed]
    exact ⟨names, rfl, isFirst_of_search ((all_nodup hd).erase _) (underway_type hd type.name) hnames⟩
  · intro directives path h
    rw [pathFromApplied_eq_search hd] at h
    obtain ⟨names, hnames, rfl⟩ := Option.map_eq_some_iff.1 h
    rw [appliedAt_eq_listed]
    exact ⟨names, rfl, isFirst_of_search (all_nodup hd) underway_nil hnames⟩

/-- Three input objects: the first has fields of the two others' types, the second has one of the first's, and
the third has one of the second's, to which `@t` is applied. -/
def threeInputs : Definitions :=
  ⟨⟨[("A", ⟨none, "A", [], .inputObject [⟨none, "b", .named "B" .nullable, none, [], .emptyAt .origin⟩,
        ⟨none, "c", .named "C" .nullable, none, [], .emptyAt .origin⟩], .emptyAt .origin⟩),
      ("B", inputWith "B" "A" []), ("C", inputWith "C" "B" [⟨"t", [], .emptyAt .origin⟩])]⟩, .empty⟩

/-- The first field leads only round to the type that the search begins with, so the path goes by the second.
-/
theorem path_found_is_first_behind_a_cycle :
    threeInputs.WellFormed ∧ ∃ type ∈ threeInputs.types.values,
      threeInputs.pathFromType "t" type = some ["A", "C", "@t"] ∧
      ∃ names, ["A", "C", "@t"] = type.name :: names.map Reference.label ∧
        threeInputs.IsFirst (.directive "t") [.type type.name] type.RefersAt names := by
  have hbuilt : build threeInputs.types.values [] = .ok threeInputs := rfl
  have hwell : threeInputs.WellFormed := .build hbuilt
  obtain ⟨type, htype⟩ : ∃ type, threeInputs.type? "A" = some type := ⟨_, rfl⟩
  have hpath : threeInputs.pathFromType "t" type = some ["A", "C", "@t"] := by
    rw [pathFromType_eq_search hwell]
    cases htype
    have hall : threeInputs.all = [.type "A", .type "B", .type "C"] := rfl
    have hb : threeInputs.references (.type "B") = [.type "A"] := rfl
    have hc : threeInputs.references (.type "C") = [.directive "t", .type "B"] := rfl
    simp [hall, TypeDefinition.references, TypeBody.references,
      InputValueDefinition.references, appliedReferences, TypeReference.innermostName, search, hb, hc,
      SearchOutcome.weaken, SearchOutcome.path?, Reference.label]
  have hmem : type ∈ threeInputs.types.values := by
    cases htype
    decide
  exact ⟨hwell, type, hmem, hpath, (path_found_is_first hwell "t").1 type _ hpath⟩

end Definitions

end TypeSystem
