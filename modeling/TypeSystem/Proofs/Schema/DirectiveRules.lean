import Mathlib.Data.Prod.Lex
import TypeSystem.Proofs.Schema.Search
import TypeSystem.Schema.DirectiveRules

/-!
# What the check of directive definitions decides

`Definitions.checkDirectives` passes exactly the tables all of whose directives are lawful
(`LawfulDirective`), and otherwise it reports the least violation. The rules are stated on names, tables
and the graph of references, without the check and without the search.

A `Violation` has a place: which directive, which of its arguments or the directive itself, and which
rule. Places are ordered lexicographically, the directive before its arguments, and the error at the least
place is the one reported. The place determines all of the error but the path of a self-reference, of
which the violation says that it is a route.
-/

namespace TypeSystem

/-- A name is reserved if it begins with two underscores. -/
theorem isReserved_iff {name : String} : isReserved name = true ↔ "__".toList <+: name.toList := by
  rw [isReserved, List.isPrefixOf_iff_prefix]

/-- The directive may be applied to types of a kind, or to the members that such a type brings along. -/
def DirectiveDefinition.AppliesTo (directive : DirectiveDefinition) : TypeKind → Prop
  | .scalar => .scalar ∈ directive.locations
  | .enum => .enum ∈ directive.locations ∨ .enumValue ∈ directive.locations
  | .inputObject =>
    .inputObject ∈ directive.locations ∨ .inputFieldDefinition ∈ directive.locations
  | .object | .interface | .union => False

theorem DirectiveDefinition.allows_iff {directive : DirectiveDefinition}
    {location : DirectiveLocation} :
    directive.allows location = true ↔ location ∈ directive.locations := by
  simp [allows]

theorem TypeKind.isInput_iff {kind : TypeKind} :
    kind.isInput = true ↔ kind = .scalar ∨ kind = .enum ∨ kind = .inputObject := by
  cases kind <;> simp [isInput]

namespace Definitions

/-- A directive covers a kind of type if it may be applied to types of that kind. -/
theorem covers_iff {directive : DirectiveDefinition} {kind : TypeKind} :
    covers directive kind = true ↔ directive.AppliesTo kind := by
  cases kind <;>
    simp [covers, TypeKind.locations, DirectiveDefinition.AppliesTo, DirectiveDefinition.allows_iff]

/-! ### The rules -/

/-- The rules for an argument of a directive. -/
structure LawfulArgument (d : Definitions) (directive : DirectiveDefinition)
    (argument : InputValueDefinition) : Prop where
  name : ¬ "__".toList <+: argument.name.toList
  type : ∃ type, d.type? argument.type.innermostName = some type ∧
    (type.kind = .scalar ∨ type.kind = .enum ∨ type.kind = .inputObject) ∧
    (directive.AppliesTo type.kind →
      ¬ d.Reaches [.type argument.type.innermostName] directive.name)
  applied : .argumentDefinition ∈ directive.locations →
    ¬ d.Reaches (appliedReferences argument.directives) directive.name

/-- The rules for a directive. -/
structure LawfulDirective (d : Definitions) (directive : DirectiveDefinition) : Prop where
  name : ¬ "__".toList <+: directive.name.toList
  arguments : ∀ argument ∈ directive.arguments, d.LawfulArgument directive argument

/-- An argument breaks a rule, given by its position, and an error says so. -/
inductive ArgumentViolation (d : Definitions) (directive : DirectiveDefinition)
    (argument : InputValueDefinition) : ℕ → ValidationError → Prop where
  | reservedName (reserved : "__".toList <+: argument.name.toList) :
      ArgumentViolation d directive argument 0
        (.reservedArgument directive.name argument.name argument.span)
  | undefinedType (undefined : d.type? argument.type.innermostName = none) :
      ArgumentViolation d directive argument 1
        (.undefinedArgumentType directive.name argument.name argument.type.innermostName argument.span)
  | outputType {type : TypeDefinition} (found : d.type? argument.type.innermostName = some type)
      (output : ¬ (type.kind = .scalar ∨ type.kind = .enum ∨ type.kind = .inputObject)) :
      ArgumentViolation d directive argument 2
        (.outputArgumentType directive.name argument.name argument.type.innermostName type.kind
          argument.span)
  | typeCycle {type : TypeDefinition} {route : List Reference}
      (found : d.type? argument.type.innermostName = some type)
      (applies : directive.AppliesTo type.kind)
      (cycle : d.Route [.type argument.type.innermostName] directive.name route) :
      ArgumentViolation d directive argument 3
        (.selfReference directive.name argument.name (route.map Reference.label) directive.span)
  | appliedCycle {route : List Reference} (applies : .argumentDefinition ∈ directive.locations)
      (cycle : d.Route (appliedReferences argument.directives) directive.name route) :
      ArgumentViolation d directive argument 4
        (.selfReference directive.name argument.name (route.map Reference.label) directive.span)

/-- Where a rule is broken: the position of a directive; zero for the directive itself, otherwise one more
than the position of an argument; and the position of the rule. -/
def place (directive argument rule : ℕ) : ℕ ×ₗ ℕ ×ₗ ℕ :=
  toLex (directive, toLex (argument, rule))

/-- Places are ordered first by the directive, then by the argument, then by the rule. -/
theorem place_le_place_iff {i j k i' j' k' : ℕ} :
    place i j k ≤ place i' j' k' ↔ i < i' ∨ i = i' ∧ (j < j' ∨ j = j' ∧ k ≤ k') := by
  simp only [place, Prod.Lex.toLex_le_toLex]

/-- No two directives, arguments and rules have one place. -/
theorem place_inj {i j k i' j' k' : ℕ} : place i j k = place i' j' k' ↔ i = i' ∧ j = j' ∧ k = k' := by
  simp only [place, toLex_inj, Prod.mk.injEq]

/-- A rule is broken at a place, and an error says so. -/
inductive Violation (d : Definitions) : ℕ ×ₗ ℕ ×ₗ ℕ → ValidationError → Prop where
  | ofDirective {i : ℕ} {directive : DirectiveDefinition}
      (directive_at : d.directives.values[i]? = some directive)
      (reserved : "__".toList <+: directive.name.toList) :
      Violation d (place i 0 0) (.reservedDirective directive.name directive.span)
  | ofArgument {i j k : ℕ} {directive : DirectiveDefinition} {argument : InputValueDefinition}
      {e : ValidationError} (directive_at : d.directives.values[i]? = some directive)
      (argument_at : directive.arguments[j]? = some argument)
      (violation : d.ArgumentViolation directive argument k e) :
      Violation d (place i (j + 1) k) e

variable {d : Definitions} {directive : DirectiveDefinition} {argument : InputValueDefinition}

/-! ### The two searches for a cycle -/

/-- The search from an argument's type finds nothing just if the directive may not be applied to the type, or
is not reached from it. -/
theorem typeCycle?_eq_none_iff (hd : d.WellFormed) {name : String} {type : TypeDefinition}
    (found : d.type? name = some type) :
    d.typeCycle? directive type = none ↔
      (directive.AppliesTo type.kind → ¬ d.Reaches [.type name] directive.name) := by
  obtain rfl := hd.types.name_of_find? found
  rw [← pathFromType_isSome_iff hd found, Option.not_isSome_iff_eq_none, ← covers_iff, typeCycle?]
  split <;> simp_all

/-- What that search finds is a way from the type back to the directive, as it is labelled. -/
theorem route_of_typeCycle? (hd : d.WellFormed) {name : String} {type : TypeDefinition}
    (found : d.type? name = some type) {path : List String}
    (h : d.typeCycle? directive type = some path) :
    directive.AppliesTo type.kind ∧
      ∃ route, d.Route [.type name] directive.name route ∧ route.map Reference.label = path := by
  obtain rfl := hd.types.name_of_find? found
  unfold typeCycle? at h
  split at h
  · next hcovers => exact ⟨covers_iff.1 hcovers, route_of_pathFromType hd found h⟩
  · cases h

/-- The search from what is applied to an argument finds nothing just if the directive may not be applied to
arguments, or is not reached from there. -/
theorem argumentCycle?_eq_none_iff (hd : d.WellFormed) :
    d.argumentCycle? directive argument = none ↔
      (.argumentDefinition ∈ directive.locations →
        ¬ d.Reaches (appliedReferences argument.directives) directive.name) := by
  rw [← pathFromApplied_isSome_iff hd, Option.not_isSome_iff_eq_none,
    ← DirectiveDefinition.allows_iff, argumentCycle?]
  split <;> simp_all

/-- What that search finds is a way from something applied to the argument back to the directive. -/
theorem route_of_argumentCycle? (hd : d.WellFormed) {path : List String}
    (h : d.argumentCycle? directive argument = some path) :
    .argumentDefinition ∈ directive.locations ∧
      ∃ route, d.Route (appliedReferences argument.directives) directive.name route ∧
        route.map Reference.label = path := by
  unfold argumentCycle? at h
  split at h
  · next hallows => exact ⟨DirectiveDefinition.allows_iff.1 hallows, route_of_pathFromApplied hd h⟩
  · cases h

/-! ### One argument -/

/-- A lawful argument breaks no rule. -/
theorem LawfulArgument.not_violation (h : d.LawfulArgument directive argument) {k : ℕ}
    {e : ValidationError} : ¬ d.ArgumentViolation directive argument k e := by
  obtain ⟨type, htype, hinput, hcycle⟩ := h.type
  intro hviolation
  cases hviolation with
  | reservedName reserved => exact h.name reserved
  | undefinedType undefined => exact absurd (htype.symm.trans undefined) (by simp)
  | outputType found output => exact output (Option.some.inj (htype.symm.trans found) ▸ hinput)
  | typeCycle found applies cycle =>
    obtain rfl := Option.some.inj (htype.symm.trans found)
    exact hcycle applies cycle.reaches
  | appliedCycle applies cycle => exact h.applied applies cycle.reaches

namespace ArgumentViolation

variable {type : TypeDefinition} {k : ℕ} {e : ValidationError}

/-! What an argument is known to keep bounds the position of a rule that it breaks: each of these excludes one
rule more than the one before. -/

/-- If the name is plain, the first rule is kept. -/
theorem one_le (hplain : ¬ "__".toList <+: argument.name.toList)
    (h : d.ArgumentViolation directive argument k e) : 1 ≤ k := by
  cases h with
  | reservedName reserved => exact absurd reserved hplain
  | undefinedType | outputType | typeCycle | appliedCycle => omega

/-- If moreover the type is defined, so is the second. -/
theorem two_le (hplain : ¬ "__".toList <+: argument.name.toList)
    (htype : d.type? argument.type.innermostName = some type)
    (h : d.ArgumentViolation directive argument k e) : 2 ≤ k := by
  have hle := h.one_le hplain
  cases h with
  | undefinedType undefined =>
    rw [htype] at undefined
    cases undefined
  | reservedName | outputType | typeCycle | appliedCycle => omega

/-- If moreover the type is one for inputs, so is the third. -/
theorem three_le (hplain : ¬ "__".toList <+: argument.name.toList)
    (htype : d.type? argument.type.innermostName = some type)
    (hinput : type.kind = .scalar ∨ type.kind = .enum ∨ type.kind = .inputObject)
    (h : d.ArgumentViolation directive argument k e) : 3 ≤ k := by
  have hle := h.two_le hplain htype
  cases h with
  | outputType found output =>
    rw [htype] at found
    cases found
    exact absurd hinput output
  | reservedName | undefinedType | typeCycle | appliedCycle => omega

/-- If moreover the type leads to no cycle, so is the fourth, and only what is applied to the argument is
left. -/
theorem four_le (hplain : ¬ "__".toList <+: argument.name.toList)
    (htype : d.type? argument.type.innermostName = some type)
    (hinput : type.kind = .scalar ∨ type.kind = .enum ∨ type.kind = .inputObject)
    (hcycle : directive.AppliesTo type.kind → ¬ d.Reaches [.type argument.type.innermostName] directive.name)
    (h : d.ArgumentViolation directive argument k e) : 4 ≤ k := by
  have hle := h.three_le hplain htype hinput
  cases h with
  | typeCycle found applies cycle =>
    rw [htype] at found
    cases found
    exact absurd cycle.reaches (hcycle applies)
  | reservedName | undefinedType | outputType | appliedCycle => omega

end ArgumentViolation

/-- The check of an argument gives no error for a lawful one, and otherwise the error of the first rule
that it breaks. -/
theorem argumentError?_spec (hd : d.WellFormed) (directive : DirectiveDefinition)
    (argument : InputValueDefinition) :
    (d.argumentError? directive argument = none ∧ d.LawfulArgument directive argument) ∨
      ∃ k e, d.argumentError? directive argument = some e ∧
        d.ArgumentViolation directive argument k e ∧
        ∀ k' e', d.ArgumentViolation directive argument k' e' → k ≤ k' := by
  by_cases hname : isReserved argument.name = true
  · refine .inr ⟨0, _, by rw [argumentError?, if_pos hname], .reservedName (isReserved_iff.1 hname), ?_⟩
    exact fun k' _ _ ↦ Nat.zero_le k'
  have hplain : ¬ "__".toList <+: argument.name.toList := fun h ↦ hname (isReserved_iff.2 h)
  cases htype : d.type? argument.type.innermostName with
  | none =>
    exact .inr ⟨1, _, by simp only [argumentError?, hname, htype]; rfl, .undefinedType htype,
      fun _ _ h ↦ h.one_le hplain⟩
  | some type =>
    by_cases hkind : type.kind.isInput = true
    swap
    · exact .inr ⟨2, _, by simp only [argumentError?, hname, htype, hkind]; rfl,
        .outputType htype (fun h ↦ hkind (TypeKind.isInput_iff.2 h)), fun _ _ h ↦ h.two_le hplain htype⟩
    have hinput := TypeKind.isInput_iff.1 hkind
    -- past the first three rules the error is that of the first search that finds something
    have herror : d.argumentError? directive argument =
        ((d.typeCycle? directive type).or (d.argumentCycle? directive argument)).map fun path ↦
          .selfReference directive.name argument.name path directive.span := by
      simp only [argumentError?, hname, htype, hkind]
      rfl
    rw [herror]
    cases hcycle : d.typeCycle? directive type with
    | some path =>
      obtain ⟨happlies, route, hroute, rfl⟩ := route_of_typeCycle? hd htype hcycle
      exact .inr ⟨3, _, rfl, .typeCycle htype happlies hroute, fun _ _ h ↦ h.three_le hplain htype hinput⟩
    | none =>
      rw [typeCycle?_eq_none_iff hd htype] at hcycle
      cases happlied : d.argumentCycle? directive argument with
      | some path =>
        obtain ⟨happlies, route, hroute, rfl⟩ := route_of_argumentCycle? hd happlied
        exact .inr ⟨4, _, rfl, .appliedCycle happlies hroute,
          fun _ _ h ↦ h.four_le hplain htype hinput hcycle⟩
      | none =>
        rw [argumentCycle?_eq_none_iff hd] at happlied
        exact .inl ⟨rfl, hplain, ⟨type, htype, hinput, hcycle⟩, happlied⟩

/-! ### One directive -/

/-- The result of `findSome?` is that of the first element that has one. -/
theorem exists_first_of_findSome? {α β : Type} {f : α → Option β} {l : List α} {b : β}
    (h : l.findSome? f = some b) :
    ∃ (i : ℕ) (a : α), l[i]? = some a ∧ f a = some b ∧
      ∀ (j : ℕ) (c : α), l[j]? = some c → f c ≠ none → i ≤ j := by
  obtain ⟨front, a, back, rfl, ha, hfront⟩ := List.findSome?_eq_some_iff.1 h
  refine ⟨front.length, a, by simp, ha, fun j c hc hsome ↦ ?_⟩
  by_contra hlt
  rw [List.getElem?_append_left (Nat.lt_of_not_le hlt)] at hc
  have hnone : f c = none := hfront c (List.mem_of_getElem? hc)
  exact hsome hnone

/-- What a violation at a place of a known directive is. -/
theorem Violation.cases_at {i j k : ℕ} {e : ValidationError} (h : d.Violation (place i j k) e)
    (directive_at : d.directives.values[i]? = some directive) :
    (j = 0 ∧ k = 0 ∧ "__".toList <+: directive.name.toList) ∨
      ∃ j' argument, j = j' + 1 ∧ directive.arguments[j']? = some argument ∧
        d.ArgumentViolation directive argument k e := by
  generalize hplace : place i j k = p at h
  cases h with
  | ofDirective directive_at' reserved =>
    obtain ⟨rfl, rfl, rfl⟩ := place_inj.1 hplace
    rw [directive_at] at directive_at'
    cases directive_at'
    exact .inl ⟨rfl, rfl, reserved⟩
  | ofArgument directive_at' argument_at violation =>
    obtain ⟨rfl, rfl, rfl⟩ := place_inj.1 hplace
    rw [directive_at] at directive_at'
    cases directive_at'
    exact .inr ⟨_, _, rfl, argument_at, violation⟩

/-- A lawful directive breaks no rule. -/
theorem LawfulDirective.not_violation (h : d.LawfulDirective directive) {i j k : ℕ}
    {e : ValidationError} (directive_at : d.directives.values[i]? = some directive) :
    ¬ d.Violation (place i j k) e := by
  intro hviolation
  rcases hviolation.cases_at directive_at with ⟨-, -, reserved⟩ | ⟨_, argument, -, hat, violation⟩
  · exact h.name reserved
  · exact (h.arguments argument (List.mem_of_getElem? hat)).not_violation violation

/-- An argument is passed just if it is lawful. -/
theorem argumentError?_eq_none_iff (hd : d.WellFormed) :
    d.argumentError? directive argument = none ↔ d.LawfulArgument directive argument := by
  rcases argumentError?_spec hd directive argument with
    ⟨hnone, hlawful⟩ | ⟨k, e, hsome, hviolation, -⟩
  · exact ⟨fun _ ↦ hlawful, fun _ ↦ hnone⟩
  · rw [hsome]
    exact ⟨fun h ↦ absurd h (by simp), fun hlawful ↦ absurd hviolation hlawful.not_violation⟩

/-- The check of a directive gives no error for a lawful one, and otherwise the error at the first of its
places where a rule is broken. -/
theorem directiveError?_spec (hd : d.WellFormed) {i : ℕ}
    (directive_at : d.directives.values[i]? = some directive) :
    (d.directiveError? directive = none ∧ d.LawfulDirective directive) ∨
      ∃ j k e, d.directiveError? directive = some e ∧ d.Violation (place i j k) e ∧
        ∀ j' k' e', d.Violation (place i j' k') e' → j < j' ∨ j = j' ∧ k ≤ k' := by
  by_cases hname : isReserved directive.name = true
  · refine .inr ⟨0, 0, _, by rw [directiveError?, if_pos hname],
      .ofDirective directive_at (isReserved_iff.1 hname), fun j' k' _ _ ↦ ?_⟩
    omega
  have hplain : ¬ "__".toList <+: directive.name.toList := fun h ↦ hname (isReserved_iff.2 h)
  rw [directiveError?, if_neg hname]
  cases hfind : directive.arguments.findSome? (d.argumentError? directive) with
  | none =>
    refine .inl ⟨rfl, hplain, fun argument hargument ↦ ?_⟩
    exact (argumentError?_eq_none_iff hd).1 (List.findSome?_eq_none_iff.1 hfind argument hargument)
  | some e =>
    obtain ⟨j, argument, argument_at, herror, hfirst⟩ := exists_first_of_findSome? hfind
    rcases argumentError?_spec hd directive argument with ⟨hnone, -⟩ | ⟨k, e', hsome, hviolation, hleast⟩
    · rw [herror] at hnone
      cases hnone
    · rw [herror] at hsome
      cases hsome
      refine .inr ⟨j + 1, k, e, rfl, .ofArgument directive_at argument_at hviolation, ?_⟩
      intro j' k' e' hother
      -- the other violation is at this directive too; its argument comes no earlier than the one found
      rcases hother.cases_at directive_at with ⟨-, -, reserved⟩ | ⟨j'', other, rfl, other_at, hother⟩
      · exact absurd reserved hplain
      · have hle : j ≤ j'' := hfirst j'' other other_at fun hnone ↦
          ((argumentError?_eq_none_iff hd).1 hnone).not_violation hother
        rcases Nat.lt_or_eq_of_le hle with hlt | rfl
        · exact .inl (Nat.succ_lt_succ hlt)
        · rw [argument_at] at other_at
          cases other_at
          exact .inr ⟨rfl, hleast k' e' hother⟩

/-- A directive is passed just if it is lawful. -/
theorem directiveError?_eq_none_iff (hd : d.WellFormed) (hmem : directive ∈ d.directives.values) :
    d.directiveError? directive = none ↔ d.LawfulDirective directive := by
  obtain ⟨i, directive_at⟩ := List.mem_iff_getElem?.1 hmem
  rcases directiveError?_spec hd directive_at with ⟨hnone, hlawful⟩ | ⟨j, k, e, hsome, hviolation, -⟩
  · exact ⟨fun _ ↦ hlawful, fun _ ↦ hnone⟩
  · rw [hsome]
    exact ⟨fun h ↦ absurd h (by simp),
      fun hlawful ↦ absurd hviolation (hlawful.not_violation directive_at)⟩

/-! ### All directives -/

/-- The check passes just if every directive is lawful. -/
theorem checkDirectives_eq_ok_iff (hd : d.WellFormed) :
    d.checkDirectives = .ok () ↔ ∀ directive ∈ d.directives.values, d.LawfulDirective directive := by
  have hnone : d.checkDirectives = .ok () ↔
      ∀ directive ∈ d.directives.values, d.directiveError? directive = none := by
    rw [← List.findSome?_eq_none_iff, checkDirectives]
    split <;> simp_all
  rw [hnone]
  exact forall₂_congr fun directive hmem ↦ directiveError?_eq_none_iff hd hmem

/-- The error that comes out is that of a rule broken at the least place of all. -/
theorem least_violation_of_checkDirectives (hd : d.WellFormed) {e : ValidationError}
    (h : d.checkDirectives = .error e) :
    ∃ p, d.Violation p e ∧ ∀ p' e', d.Violation p' e' → p ≤ p' := by
  have hfind : d.directives.values.findSome? d.directiveError? = some e := by
    unfold checkDirectives at h
    split at h
    · next hsome =>
      cases h
      exact hsome
    · cases h
  obtain ⟨i, directive, directive_at, herror, hfirst⟩ := exists_first_of_findSome? hfind
  rcases directiveError?_spec hd directive_at with ⟨hnone, -⟩ | ⟨j, k, e', hsome, hviolation, hleast⟩
  · rw [herror] at hnone
    cases hnone
  · rw [herror] at hsome
    cases hsome
    refine ⟨place i j k, hviolation, fun p' e' hother ↦ ?_⟩
    -- both kinds of violation are at a directive of the table, no earlier than the one found
    obtain ⟨i', j', k', other, rfl, other_at⟩ : ∃ i' j' k' other,
        p' = place i' j' k' ∧ d.directives.values[i']? = some other := by
      cases hother with
      | ofDirective directive_at' => exact ⟨_, _, _, _, rfl, directive_at'⟩
      | ofArgument directive_at' => exact ⟨_, _, _, _, rfl, directive_at'⟩
    have hle : i ≤ i' := hfirst i' other other_at fun hnone ↦
      ((directiveError?_eq_none_iff hd (List.mem_of_getElem? other_at)).1 hnone).not_violation
        other_at hother
    rw [place_le_place_iff]
    rcases Nat.lt_or_eq_of_le hle with hlt | rfl
    · exact .inl hlt
    · exact .inr ⟨rfl, hleast j' k' e' hother⟩

/-- **The check decides the rules and reports the first violation.** It passes exactly if every directive
is lawful; otherwise the error is one of a violation, and no violation has a smaller place. -/
theorem check_passes_or_reports_first (hd : d.WellFormed) :
    (d.checkDirectives = .ok () ↔ ∀ directive ∈ d.directives.values, d.LawfulDirective directive) ∧
      ∀ e, d.checkDirectives = .error e →
        ∃ p, d.Violation p e ∧ ∀ p' e', d.Violation p' e' → p ≤ p' :=
  ⟨checkDirectives_eq_ok_iff hd, fun _ h ↦ least_violation_of_checkDirectives hd h⟩

/-- A directive for input fields with an argument of the first of the two input objects. -/
def onTwoInputs : DirectiveDefinition :=
  ⟨none, "t", [⟨none, "a", .named "A" .nullable, none, [], .emptyAt .origin⟩], false,
    [.inputFieldDefinition], .emptyAt .origin⟩

/-- The two input objects, and the directive that reaches itself through them. -/
def reachingItself : Definitions :=
  ⟨twoInputs.types, .push .empty "t" onTwoInputs⟩

/-- A directive that reaches itself through the two input objects is reported. -/
theorem check_reports_a_self_reference :
    reachingItself.WellFormed ∧ ∃ e p, reachingItself.checkDirectives = .error e ∧
      reachingItself.Violation p e := by
  have hbuilt : build reachingItself.types.values reachingItself.directives.values =
    .ok reachingItself := rfl
  have hwell : reachingItself.WellFormed := .build hbuilt
  obtain ⟨hiff, hfirst⟩ := check_passes_or_reports_first hwell
  have hreach : reachingItself.Reaches [.type "A"] "t" :=
    ⟨.type "A", List.mem_singleton_self _,
      .head (edge_iff_mem_references.2 (by decide) : Edge _ (.type "A") (.type "B"))
        (.single (edge_iff_mem_references.2 (by decide)))⟩
  have hmem : onTwoInputs ∈ reachingItself.directives.values := by decide
  have htype : reachingItself.type? "A" = some (inputWith "A" "B" []) := by decide
  cases hcheck : reachingItself.checkDirectives with
  | ok _ =>
    obtain ⟨type, hfound, -, hcycle⟩ :=
      ((hiff.1 hcheck onTwoInputs hmem).arguments _ (List.mem_singleton_self _)).type
    obtain rfl := Option.some.inj (htype.symm.trans hfound)
    exact absurd hreach (hcycle (.inr (by decide)))
  | error e =>
    obtain ⟨p, hviolation, -⟩ := hfirst e hcheck
    exact ⟨hwell, e, p, rfl, hviolation⟩

end Definitions

end TypeSystem
