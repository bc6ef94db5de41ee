/-!
# Root operations

A schema is entered through up to three object types, one for each kind of operation. `RootTypes` holds
their names, in a schema block as in a checked schema.
-/

namespace TypeSystem

/-- A kind of operation that a schema may offer. -/
inductive Operation where
  | query
  | mutation
  | subscription
deriving DecidableEq, Repr

namespace Operation

/-- Every operation, in the order in which root types are looked at. -/
def all : List Operation := [query, mutation, subscription]

/-- The word for an operation in a schema block. -/
def keyword : Operation → String
  | query => "query"
  | mutation => "mutation"
  | subscription => "subscription"

/-- The operation of a given word. -/
def ofKeyword? (text : String) : Option Operation :=
  all.find? fun operation ↦ operation.keyword = text

/-- The name of the root type where no schema block names one. -/
def defaultTypeName : Operation → String
  | query => "Query"
  | mutation => "Mutation"
  | subscription => "Subscription"

theorem mem_all (operation : Operation) : operation ∈ all := by
  cases operation <;> decide

theorem ofKeyword?_keyword (operation : Operation) :
    ofKeyword? operation.keyword = some operation := by
  cases operation <;> decide

theorem keyword_of_ofKeyword? {text : String} {operation : Operation}
    (h : ofKeyword? text = some operation) : operation.keyword = text := by
  simpa using List.find?_some h

end Operation

/-- The names of the root types, as far as there are any. -/
structure RootTypes where
  query : Option String
  mutation : Option String
  subscription : Option String
deriving DecidableEq, Repr

namespace RootTypes

/-- No root type at all. -/
def none : RootTypes := ⟨.none, .none, .none⟩

/-- The name of the root type of an operation. -/
def get (roots : RootTypes) : Operation → Option String
  | .query => roots.query
  | .mutation => roots.mutation
  | .subscription => roots.subscription

/-- The root types with one of them named. -/
def set (roots : RootTypes) (operation : Operation) (name : String) : RootTypes :=
  match operation with
  | .query => { roots with query := some name }
  | .mutation => { roots with mutation := some name }
  | .subscription => { roots with subscription := some name }

@[simp] theorem get_none (operation : Operation) : none.get operation = .none := by
  cases operation <;> rfl

theorem get_set (roots : RootTypes) (o p : Operation) (name : String) :
    (roots.set o name).get p = if o = p then some name else roots.get p := by
  cases o <;> cases p <;> rfl

end RootTypes

end TypeSystem
