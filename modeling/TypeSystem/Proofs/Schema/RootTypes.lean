import TypeSystem.Proofs.Schema.Repeats

/-!
# The rule of root types

Root types are declared by the schema block or, without one, by the names `Query`, `Mutation` and `Subscription` of
object types, and then by the extensions of the schema; in each place first the query, then the mutation, then the
subscription. The rule looks at these declarations twice, from the first to the last. An extension may not declare
an operation that is declared already, and only if none does, every declared name has to be that of an object type
(`RootRule`). So of two faults a repeated operation is reported even if it stands behind a name that is no object
type.

Resolving root types is shown to do what the rule says, and nothing else (`resolveRoots_eq_iff`). Since the
rule always gives a result (`exists_rootRule`), it is enough that resolving gives each result that the rule
gives.
-/

namespace TypeSystem

namespace Definitions

variable {d : Definitions} {schemas : List SchemaDefinition} {extensions : List SchemaExtension}
  {base added declared : List RootDeclaration} {result : Except ValidationError RootTypes}

/-! ### The rule -/

/-- What a block or an extension declares: first the query, then the mutation, then the subscription. -/
def declaredBy (roots : RootTypes) (span : Span) : List RootDeclaration :=
  (roots.query.map fun type ↦ ⟨.query, type, span⟩).toList ++
    (roots.mutation.map fun type ↦ ⟨.mutation, type, span⟩).toList ++
    (roots.subscription.map fun type ↦ ⟨.subscription, type, span⟩).toList

/-- A name is that of an object type. -/
def NamesObject (d : Definitions) (name : String) : Prop :=
  ∃ type, d.type? name = some type ∧ type.kind = .object

/-- The root type that goes by a name: the type of that name, if it is an object type. It is declared where it is
defined. -/
def rootByName (d : Definitions) (operation : Operation) (name : String) : List RootDeclaration :=
  match d.type? name with
  | some type => if type.kind = .object then [⟨operation, name, type.span⟩] else []
  | none => []

/-- The root types where no schema block declares any. -/
def rootsByName (d : Definitions) : List RootDeclaration :=
  d.rootByName .query "Query" ++ d.rootByName .mutation "Mutation" ++ d.rootByName .subscription "Subscription"

/-- What comes of the declarations of a block, or by name, and those that extensions add behind them. -/
inductive RootRule (d : Definitions) (base added : List RootDeclaration) :
    Except ValidationError RootTypes → Prop where
  /-- The first added declaration of an operation that is declared before it is one too many. -/
  | repeated {before after : List RootDeclaration} {earlier again : RootDeclaration}
      (split : added = before ++ again :: after)
      (distinct : ((base ++ before).map RootDeclaration.operation).Nodup)
      (earlier_mem : earlier ∈ base ++ before) (same : earlier.operation = again.operation) :
      RootRule d base added (.error (.duplicateRoot again.operation again.span))
  /-- If there is none, the first declaration of a name that is not that of an object type is wrong. -/
  | undefined {before after : List RootDeclaration} {bad : RootDeclaration}
      (distinct : ((base ++ added).map RootDeclaration.operation).Nodup)
      (split : base ++ added = before ++ bad :: after)
      (objects : ∀ declaration ∈ before, d.NamesObject declaration.type)
      (not_object : ¬ d.NamesObject bad.type) :
      RootRule d base added (.error (.undefinedRoot bad.operation bad.type bad.span))
  /-- If there is none of these either, each operation has the name declared for it, if there is one. -/
  | found {roots : RootTypes} (distinct : ((base ++ added).map RootDeclaration.operation).Nodup)
      (objects : ∀ declaration ∈ base ++ added, d.NamesObject declaration.type)
      (get_iff : ∀ operation name, roots.get operation = some name ↔
        ∃ declaration ∈ base ++ added, declaration.operation = operation ∧ declaration.type = name) :
      RootRule d base added (.ok roots)

/-- What comes of the schema blocks of a document and their extensions. -/
inductive RootsResolved (d : Definitions) : List SchemaDefinition → List SchemaExtension →
    Except ValidationError RootTypes → Prop where
  | twoBlocks {first second : SchemaDefinition} {others : List SchemaDefinition}
      {extensions : List SchemaExtension} :
      RootsResolved d (first :: second :: others) extensions (.error (.duplicateSchema first.span second.span))
  | block {schema : SchemaDefinition} {extensions : List SchemaExtension}
      {result : Except ValidationError RootTypes}
      (h : d.RootRule (declaredBy schema.roots schema.span)
        (extensions.flatMap fun ext ↦ declaredBy ext.roots ext.span) result) :
      RootsResolved d [schema] extensions result
  | byName {extensions : List SchemaExtension} {result : Except ValidationError RootTypes}
      (h : d.RootRule d.rootsByName
        (extensions.flatMap fun ext ↦ declaredBy ext.roots ext.span) result) :
      RootsResolved d [] extensions result

/-! ### The rule gives a result -/

/-- An object type is found under a name just if the name is that of an object type. -/
theorem object?_isSome_iff {name : String} : (d.object? name).isSome = true ↔ d.NamesObject name := by
  simp only [NamesObject, ← object?_eq_some_iff, Option.isSome_iff_exists]

/-- The bad declaration is the first one that names no object type. -/
theorem badDeclaration?_eq_some_iff {bad : RootDeclaration} :
    d.badDeclaration? declared = some bad ↔ ¬ d.NamesObject bad.type ∧
      ∃ before after, declared = before ++ bad :: after ∧
        ∀ declaration ∈ before, d.NamesObject declaration.type := by
  simp only [badDeclaration?, List.find?_eq_some_iff_append, ← object?_isSome_iff, Bool.not_eq_true,
    Option.isSome_eq_false_iff, Bool.not_eq_eq_eq_not, Bool.not_true, Option.isNone_eq_false_iff]

/-- The rule always gives something, a result or an error, if no operation is declared twice in the base. -/
theorem exists_rootRule (d : Definitions) (added : List RootDeclaration)
    (hbase : (base.map RootDeclaration.operation).Nodup) : ∃ result, d.RootRule base added result := by
  rcases nodup_or_exists_firstRepeat RootDeclaration.operation (base ++ added) with
    hnodup | ⟨earlier, again, hrepeat⟩
  · cases hbad : d.badDeclaration? (base ++ added) with
    | none =>
      exact ⟨_, .found hnodup (badDeclaration?_eq_none_iff.1 hbad)
        fun _ _ ↦ RootTypes.get_ofDeclarations_eq_some_iff hnodup⟩
    | some bad =>
      obtain ⟨hnot, before, after, hsplit, hobjects⟩ := badDeclaration?_eq_some_iff.1 hbad
      exact ⟨_, .undefined hnodup hsplit hobjects hnot⟩
  · -- the first declarations repeat nothing, so the repeat is among those that are added
    obtain ⟨before, after, hsplit, hdistinct, hmem⟩ := hrepeat.of_append rfl hbase
    exact ⟨_, .repeated hsplit hdistinct hmem hrepeat.key_eq⟩

/-! ### Resolving keeps to the rule -/

/-- The first declaration of an operation that is declared already is reported. -/
theorem declareAll_eq_error_of_repeated {before after : List RootDeclaration} {earlier again : RootDeclaration}
    (distinct : ((declared ++ before).map RootDeclaration.operation).Nodup)
    (earlier_mem : earlier ∈ declared ++ before) (same : earlier.operation = again.operation) :
    declareAll declared (before ++ again :: after) = .error (.duplicateRoot again.operation again.span) := by
  induction before generalizing declared with
  | nil =>
    rw [List.append_nil] at earlier_mem
    have hany : (declared.any fun other ↦ other.operation = again.operation) = true :=
      List.any_eq_true.2 ⟨earlier, earlier_mem, decide_eq_true same⟩
    rw [List.nil_append, declareAll, if_pos hany]
  | cons declaration before ih =>
    have hsplit : declared ++ declaration :: before = declared ++ [declaration] ++ before := by simp
    have hany : ¬ (declared.any fun other ↦ other.operation = declaration.operation) = true := by
      rw [List.any_eq_true]
      rintro ⟨other, hmem, hsame⟩
      rw [List.map_append] at distinct
      refine List.disjoint_of_nodup_append distinct (List.mem_map_of_mem hmem) ?_
      rw [of_decide_eq_true hsame]
      simp
    rw [hsplit] at distinct earlier_mem
    rw [List.cons_append, declareAll, if_neg hany]
    exact ih distinct earlier_mem

/-- Resolving gives what the rule gives for a document with one block at most. -/
theorem resolveRoots_of_rootRule (hfew : schemas.length ≤ 1)
    (h : d.RootRule (d.baseDeclarations schemas)
      (extensions.flatMap fun ext ↦ ext.roots.declarations ext.span) result) :
    d.resolveRoots schemas extensions = result := by
  have hone : ∀ first second others, schemas = first :: second :: others → False := by
    rintro first second others rfl
    simp at hfew
  cases h with
  | repeated split distinct earlier_mem same =>
    rw [resolveRoots, split, declareAll_eq_error_of_repeated distinct earlier_mem same]
    · rfl
    · exact hone
  | undefined distinct split objects not_object =>
    have hall := (declareAll_eq_ok_iff (d.nodup_operations_baseDeclarations schemas)).2 ⟨distinct, rfl⟩
    have hbad := badDeclaration?_eq_some_iff.2 ⟨not_object, _, _, split, objects⟩
    rw [resolveRoots, hall]
    · simp only [bind, Except.bind, hbad]
    · exact hone
  | @found roots distinct objects get_iff =>
    -- root types are the same if they agree at every operation
    refine resolveRoots_eq_ok_iff.2 ⟨hfew, distinct, objects, RootTypes.ext_get fun operation ↦ ?_⟩
    refine Option.ext fun name ↦ ?_
    rw [get_iff, rootDeclarations, RootTypes.get_ofDeclarations_eq_some_iff distinct]

/-- Every operation is looked at, in the order of the rule. -/
theorem declarations_eq_declaredBy : RootTypes.declarations = declaredBy := by
  funext ⟨query, mutation, subscription⟩ span
  cases query <;> cases mutation <;> cases subscription <;> rfl

/-- In well-formed tables the type found under a name has that name, so what goes by a name may be read off the
definition. -/
theorem rootByName_eq (hd : d.WellFormed) (operation : Operation) (name : String) : d.rootByName operation name =
    ((d.object? name).map fun type ↦ (⟨operation, type.name, type.span⟩ : RootDeclaration)).toList := by
  unfold rootByName object?
  cases htype : d.type? name with
  | none => rfl
  | some type =>
    have hname : type.name = name := hd.types.name_of_find? htype
    by_cases hobject : type.kind = .object
    · simp [Option.filter, hobject, hname]
    · simp [hobject]

/-- Without a schema definition the declarations are those by name. -/
theorem defaultDeclarations_eq_rootsByName (hd : d.WellFormed) : d.defaultDeclarations = d.rootsByName := by
  simp only [rootsByName, rootByName_eq hd, defaultDeclarations, Operation.all, List.filterMap_eq_flatMap_toList,
    List.flatMap_cons, List.flatMap_nil, List.append_nil, List.append_assoc]
  rfl

/-- What the rule says is what is resolved. -/
theorem resolveRoots_of_rootsResolved (hd : d.WellFormed) (h : d.RootsResolved schemas extensions result) :
    d.resolveRoots schemas extensions = result := by
  cases h with
  | twoBlocks => rfl
  | block h =>
    rw [← declarations_eq_declaredBy] at h
    exact resolveRoots_of_rootRule (by simp) h
  | byName h =>
    rw [← declarations_eq_declaredBy, ← defaultDeclarations_eq_rootsByName hd] at h
    exact resolveRoots_of_rootRule (by simp) h

/-- The rule says something of all schema definitions and extensions. -/
theorem exists_rootsResolved (hd : d.WellFormed) (schemas : List SchemaDefinition)
    (extensions : List SchemaExtension) : ∃ result, d.RootsResolved schemas extensions result := by
  match schemas with
  | [] =>
    have hbase := d.nodup_operations_baseDeclarations []
    rw [baseDeclarations, defaultDeclarations_eq_rootsByName hd] at hbase
    obtain ⟨result, h⟩ := d.exists_rootRule _ hbase
    exact ⟨result, .byName h⟩
  | [schema] =>
    have hbase := d.nodup_operations_baseDeclarations [schema]
    rw [baseDeclarations, declarations_eq_declaredBy] at hbase
    obtain ⟨result, h⟩ := d.exists_rootRule _ hbase
    exact ⟨result, .block h⟩
  | first :: second :: others => exact ⟨_, .twoBlocks⟩

/-- **Root types are resolved by the rule.** A second schema block is one too many. Otherwise the root types
are those that the block declares, or that go by the default names, and those that extensions add, in order:
the first operation that an extension repeats is reported, and if there is none, the first name that is not
that of an object type; and if all is well, each operation has the one name declared for it, or none. -/
theorem resolveRoots_eq_iff (hd : d.WellFormed) :
    d.resolveRoots schemas extensions = result ↔ d.RootsResolved schemas extensions result := by
  refine ⟨fun h ↦ ?_, resolveRoots_of_rootsResolved hd⟩
  obtain ⟨result', h'⟩ := exists_rootsResolved hd schemas extensions
  rwa [← h, resolveRoots_of_rootsResolved hd h']

/-- The object type `Query`. -/
def queryType : TypeDefinition := ⟨none, "Query", [], .object [] [], .emptyAt .origin⟩

/-- The tables with some types. -/
def onlyTypes (types : List TypeDefinition) : Definitions := ⟨.listing TypeDefinition.name types, .empty⟩

/-- A query that is declared for the second time is reported, although the first one is not defined. Without a
block, `Query` is a root type by its name, but a scalar `Mutation` is none, so that an extension may name another
mutation, and no other query. -/
theorem resolveRoots_with_and_without_block :
    let d := onlyTypes [queryType, ⟨none, "Mutation", [], .scalar, .emptyAt ⟨1, 0, 0, 20⟩⟩]
    let extension : SchemaExtension := ⟨[], ⟨none, some "Query", none⟩, .emptyAt ⟨2, 0, 0, 40⟩⟩
    let second : SchemaExtension := ⟨[], ⟨some "Query", some "Query", none⟩, .emptyAt ⟨3, 0, 0, 60⟩⟩
    d.WellFormed ∧
      d.RootsResolved [⟨none, [], ⟨some "Missing", none, none⟩, .emptyAt .origin⟩] [extension, second]
        (.error (.duplicateRoot .query second.span)) ∧
      d.RootsResolved [] [extension] (.ok ⟨some "Query", some "Query", none⟩) ∧
      d.RootsResolved [] [extension, second] (.error (.duplicateRoot .query second.span)) := by
  intro d extension second
  have hbuild : build d.types.values [] = .ok d := rfl
  have hwell : d.WellFormed := .build hbuild
  exact ⟨hwell, (resolveRoots_eq_iff hwell).1 rfl, (resolveRoots_eq_iff hwell).1 rfl, (resolveRoots_eq_iff hwell).1 rfl⟩

end Definitions

end TypeSystem
