import TypeSystem.Text.Snippet

/-!
# Reports

What every error has when it is rendered: a heading with its message and the label of the place it is about, and
a snippet of that place when the text is at hand.
-/

namespace TypeSystem

/-- The heading of an error: its message and its place. -/
def heading (message : String) (span : Span) : String :=
  "error: " ++ message ++ "\n  --> " ++ span.label ++ "\n"

/-- The snippet of a span, or nothing if there is no text or the text does not have the line. -/
def Span.shownIn (span : Span) (text : Option String) : Except Crash String :=
  match text with
  | none => .ok ""
  | some text => (span.snippet text).map (·.getD "")

end TypeSystem
