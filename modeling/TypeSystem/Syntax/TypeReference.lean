/-!
# Type references

A type reference is a type name inside any number of list wrappers. Each level says for itself whether
it admits null, so a level cannot be marked twice. Names are not resolved here.
-/

namespace TypeSystem

/-- Whether a level of a type reference admits null. -/
inductive Nullability where
  | nonNull
  | nullable
deriving DecidableEq, Repr

/-- A reference to a type, such as `[[Int!]]!`. -/
inductive TypeReference where
  /-- A list of values of another reference. -/
  | list (element : TypeReference) (nullability : Nullability)
  /-- A type by its name. -/
  | named (name : String) (nullability : Nullability)
deriving DecidableEq, Repr

namespace Nullability

/-- The mark after a level. -/
def mark : Nullability → String
  | nonNull => "!"
  | nullable => ""

end Nullability

namespace TypeReference

/-- Whether the outermost level admits null. -/
def nullability : TypeReference → Nullability
  | list _ n | named _ n => n

/-- Whether the outermost level refuses null. -/
def isNonNull (t : TypeReference) : Bool :=
  t.nullability = .nonNull

/-- The name inside all list wrappers. -/
def innermostName : TypeReference → String
  | list element _ => element.innermostName
  | named name _ => name

/-- How many list wrappers there are. -/
def depth : TypeReference → Nat
  | list element _ => element.depth + 1
  | named _ _ => 0

/-- The reference as it is written. -/
def display : TypeReference → String
  | list element n => "[" ++ element.display ++ "]" ++ n.mark
  | named name n => name ++ n.mark

end TypeReference

end TypeSystem
