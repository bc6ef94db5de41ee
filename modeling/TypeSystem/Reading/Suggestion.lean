import TypeSystem.Syntax.DirectiveLocation
import TypeSystem.Text.EditDistance
import TypeSystem.Text.UpperCase

/-!
# Suggestions for misspelt locations

A directive location that does not exist is answered with the nearest one that does, if any is within
three edits of its upper-case form. Of locations equally near, the first in the order of the grammar is
suggested.
-/

namespace TypeSystem.DirectiveLocation

open Text

/-- How far a suggestion may be from what was written. -/
def maxDistance : Nat := 3

/-- How many edits lead from a text, in upper case, to the name of a location. -/
def distanceFrom (text : String) (location : DirectiveLocation) : Nat :=
  editDistance (upperCase text.toList) location.name.toList

/-- The first entry of a list for which a measure is least. -/
def firstLeast {α : Type} (measure : α → Nat) : List α → Option α
  | [] => none
  | a :: as =>
    match firstLeast measure as with
    | none => some a
    | some b => if measure a ≤ measure b then some a else some b

/-- The location to suggest for a text that names none. -/
def suggestion? (text : String) : Option DirectiveLocation :=
  firstLeast (distanceFrom text)
    (all.filter fun location ↦ decide (distanceFrom text location ≤ maxDistance))

theorem firstLeast_eq_none_iff {α : Type} {measure : α → Nat} {as : List α} :
    firstLeast measure as = none ↔ as = [] := by
  cases as with
  | nil => simp [firstLeast]
  | cons a as =>
    simp only [firstLeast, reduceCtorEq, iff_false]
    split
    · simp
    · split <;> simp

end TypeSystem.DirectiveLocation
