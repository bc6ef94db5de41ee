import TypeSystem.Schema.Definitions

/-!
# References between definitions

A directive definition refers, argument by argument, to the directives applied to the argument and then
to the argument's type. A type refers to the directives applied to it, to those applied to its enum
values or input fields, and to the types of its input fields. Names that are not defined refer to
nothing.

`Definitions.walk` looks for a use of one directive along these references, depth first and in the order in
which they are declared. It keeps a stack of the definitions that it is in, with what is still to be tried from
each, and the names that it has come to, none of which it follows a second time. The walk ends because each step
adds a name of a definition to those, or leaves fewer references on the stack.
-/

namespace TypeSystem

/-- The name of a definition: what the references lead from and to. -/
inductive Reference where
  | type (name : String)
  | directive (name : String)
deriving DecidableEq, Repr

namespace Reference

/-- The name as it is written. -/
def label : Reference → String
  | type name => name
  | directive name => "@" ++ name

end Reference

/-! ### What definitions refer to -/

/-- The directives applied at a place, in order. -/
def appliedReferences (directives : List AppliedDirective) : List Reference :=
  directives.map fun directive ↦ .directive directive.name

/-- What an argument or input field refers to: the directives on it, then its type. -/
def InputValueDefinition.references (value : InputValueDefinition) : List Reference :=
  appliedReferences value.directives ++ [.type value.type.innermostName]

/-- What a directive definition refers to. -/
def DirectiveDefinition.references (directive : DirectiveDefinition) : List Reference :=
  directive.arguments.flatMap InputValueDefinition.references

/-- What the members of a type refer to. -/
def TypeBody.references : TypeBody → List Reference
  | .enum values => values.flatMap fun value ↦ appliedReferences value.directives
  | .inputObject fields => fields.flatMap InputValueDefinition.references
  | .scalar | .object _ _ | .interface _ _ | .union _ => []

/-- What a type refers to. -/
def TypeDefinition.references (type : TypeDefinition) : List Reference :=
  appliedReferences type.directives ++ type.body.references

namespace Definitions

/-- Every definition. -/
def all (d : Definitions) : List Reference :=
  d.types.keys.map .type ++ d.directives.keys.map .directive

/-- What a name refers to. -/
def references (d : Definitions) : Reference → List Reference
  | .type name => ((d.type? name).map TypeDefinition.references).getD []
  | .directive name => ((d.directive? name).map DirectiveDefinition.references).getD []

end Definitions

/-! ### The walk -/

/-- A definition that the walk is in: its label, and the references that are still to be tried from it, the next
one last. -/
structure Frame where
  label : String
  pending : Array Reference
deriving DecidableEq, Repr

namespace Frame

/-- A definition that has just been entered. Its references are turned around, so that the first one is taken
first. -/
def enter (label : String) (references : List Reference) : Frame :=
  ⟨label, references.reverse.toArray⟩

/-- The reference to be tried next, and the frame without it. -/
def next? (frame : Frame) : Option (Reference × Frame) :=
  frame.pending.back?.map fun name ↦ (name, { frame with pending := frame.pending.pop })

/-- How many steps can be taken on a stack before something is pushed on it. -/
def steps : List Frame → Nat
  | [] => 0
  | frame :: stack => frame.pending.size + 1 + steps stack

theorem steps_lt_of_next? {frame rest : Frame} {stack : List Frame} {name : Reference}
    (h : frame.next? = some (name, rest)) : steps (rest :: stack) < steps (frame :: stack) := by
  obtain ⟨_, hlast, heq⟩ := Option.map_eq_some_iff.1 h
  cases heq
  have hpos : 0 < frame.pending.size := by
    obtain ⟨hsize, -⟩ := Array.getElem?_eq_some_iff.1 hlast
    omega
  simp only [steps, Array.size_pop]
  omega

end Frame

namespace Definitions

/-- The frame of a definition when it is entered. -/
def frame? (d : Definitions) : Reference → Option Frame
  | .type name => (d.type? name).map fun type ↦ .enter type.name type.references
  | .directive name =>
    (d.directive? name).map fun directive ↦ .enter ("@" ++ name) directive.references

/-- The definitions that the walk has not come to. -/
def unvisited (d : Definitions) (visited : List Reference) : List Reference :=
  d.all.filter (· ∉ visited)

theorem mem_all_of_type? {d : Definitions} {name : String} {type : TypeDefinition}
    (found : d.type? name = some type) : .type name ∈ d.all :=
  List.mem_append_left _ (List.mem_map_of_mem (Table.find?_isSome_iff.1 (by rw [← type?, found]; rfl)))

theorem mem_all_of_directive? {d : Definitions} {name : String} {directive : DirectiveDefinition}
    (found : d.directive? name = some directive) : .directive name ∈ d.all :=
  List.mem_append_right _
    (List.mem_map_of_mem (Table.find?_isSome_iff.1 (by rw [← directive?, found]; rfl)))

/-- Only a definition has a frame. -/
theorem mem_all_of_frame? {d : Definitions} {name : Reference} {frame : Frame}
    (h : d.frame? name = some frame) : name ∈ d.all := by
  cases name with
  | type name =>
    obtain ⟨type, htype, -⟩ := Option.map_eq_some_iff.1 h
    exact mem_all_of_type? htype
  | directive name =>
    obtain ⟨directive, hdirective, -⟩ := Option.map_eq_some_iff.1 h
    exact mem_all_of_directive? hdirective

theorem unvisited_cons (d : Definitions) (name : Reference) (visited : List Reference) :
    d.unvisited (name :: visited) = (d.unvisited visited).filter (· ≠ name) := by
  simp [unvisited, List.filter_filter]

theorem length_unvisited_cons_le (d : Definitions) (name : Reference) (visited : List Reference) :
    (d.unvisited (name :: visited)).length ≤ (d.unvisited visited).length := by
  rw [unvisited_cons]
  exact List.length_filter_le ..

/-- There are fewer definitions to come to, once the walk has come to one. -/
theorem length_unvisited_cons_lt {d : Definitions} {name : Reference} {visited : List Reference}
    (hname : name ∈ d.all) (hnew : name ∉ visited) :
    (d.unvisited (name :: visited)).length < (d.unvisited visited).length := by
  rw [unvisited_cons, List.length_filter_lt_length_iff_exists]
  exact ⟨name, by simp [unvisited, hname, hnew], by simp⟩

/-- Goes on with the walk for a use of the directive `target`: from the names `visited` and the stack that it has
come to. -/
def walk (d : Definitions) (target : String) (visited : List Reference) :
    List Frame → Option (List String)
  | [] => none
  | frame :: stack =>
    match _ : frame.next? with
    | none => d.walk target visited stack
    | some (name, rest) =>
      if name = .directive target then
        some (((rest :: stack).map Frame.label).reverse ++ [name.label])
      else if name ∈ visited then d.walk target visited (rest :: stack)
      else
        match _ : d.frame? name with
        | none => d.walk target (name :: visited) (rest :: stack)
        | some inner => d.walk target (name :: visited) (inner :: rest :: stack)
termination_by stack => ((d.unvisited visited).length, Frame.steps stack)
decreasing_by
  · exact .right _ (by rw [Frame.steps]; omega)
  · exact .right _ (Frame.steps_lt_of_next? ‹_›)
  · -- the name of no definition leaves as many to come to
    rcases Nat.lt_or_eq_of_le (d.length_unvisited_cons_le name visited) with hlt | heq
    · exact .left _ _ hlt
    · rw [heq]
      exact .right _ (Frame.steps_lt_of_next? ‹_›)
  · exact .left _ _ (length_unvisited_cons_lt (mem_all_of_frame? ‹_›) ‹_›)

/-- The way from a type to a use of a directive, the type first and the use last. -/
def pathFromType (d : Definitions) (target : String) (type : TypeDefinition) :
    Option (List String) :=
  d.walk target [.type type.name] [.enter type.name type.references]

/-- The way from applied directives to a use of a directive, the use last. They belong to no definition, so the
label that stands for one comes off again. -/
def pathFromApplied (d : Definitions) (target : String) (directives : List AppliedDirective) :
    Option (List String) :=
  (d.walk target [] [.enter "" (appliedReferences directives)]).map List.tail

end Definitions

end TypeSystem
