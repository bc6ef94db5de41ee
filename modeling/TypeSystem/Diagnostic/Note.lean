import TypeSystem.Text.Span

/-!
# Notes

A note is a remark added to an error: what it is about, how to mend it, or where the rule is written.
It may point to another place in the text, which a rendering does not show.
-/

namespace TypeSystem

/-- What a note is for. -/
inductive NoteKind where
  /-- Says more about the error. -/
  | note
  /-- Says how to mend it. -/
  | help
  /-- Says where the rule is written. -/
  | spec
deriving DecidableEq, Repr

namespace NoteKind

/-- The word before a note of this kind. -/
def label : NoteKind → String
  | note => "note"
  | help => "help"
  | spec => "spec"

end NoteKind

/-- A remark added to an error. -/
structure Note where
  /-- What the note is for. -/
  kind : NoteKind
  /-- What it says. -/
  message : String
  /-- Where else to look. -/
  span : Option Span
deriving DecidableEq, Repr

namespace Note

/-- A note as a line of a rendered error. -/
def line (note : Note) : String :=
  "   = " ++ note.kind.label ++ ": " ++ note.message ++ "\n"

end Note

end TypeSystem
