import TypeSystem.Text.Character
import TypeSystem.Text.Printable

/-!
# Quoted text

A text between double quotes, such that its end and every character in it can be told: double quotes,
backslashes and what would not show are escaped.
-/

namespace TypeSystem.Text

/-- Characters with an escape of their own, and the character that stands for each after a backslash. -/
def shortEscapes : List (Char × Char) :=
  [('\x00', '0'), ('\t', 't'), ('\n', 'n'), ('\r', 'r'), ('"', '"'), ('\\', '\\')]

/-- A character as it stands in a quoted text. -/
def escape (c : Char) : List Char :=
  match shortEscapes.lookup c with
  | some short => ['\\', short]
  | none => if isPrintable c then [c] else (escapedCodePoint c).toList

/-- A text between double quotes. -/
def inDoubleQuotes (text : String) : String :=
  "\"" ++ String.ofList (text.toList.flatMap escape) ++ "\""

end TypeSystem.Text
