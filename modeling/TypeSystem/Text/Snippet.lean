import TypeSystem.Text.Span

/-!
# Snippets

A snippet shows the line on which a span starts, its number in a gutter, and carets under the part
that the span covers. Line feeds, carriage returns and the two together each end a line, as they do
when positions are counted. A span that runs on to another line, or covers nothing, gets one caret.

The carets are indented by padding an empty text to the column of the span. A width that is known only when the
program runs must fit in sixteen bits; behind a column that does not, the program breaks off.
-/

namespace TypeSystem

/-- Why the program breaks off without an answer. -/
inductive Crash where
  /-- A text is to be padded to a width that is out of range. -/
  | widthOutOfRange
deriving DecidableEq, Repr

namespace Text

/-- What follows the first line end, if there is one. -/
def afterLine : List Char → Option (List Char)
  | [] => none
  | '\r' :: '\n' :: cs => some cs
  | c :: cs => if isLineEnd c then some cs else afterLine cs

/-- The characters up to the first line end. -/
def firstLine (cs : List Char) : List Char :=
  cs.takeWhile fun c ↦ !isLineEnd c

/-- The line of a given number, counted from zero, without its line end. -/
def line? : Nat → List Char → Option (List Char)
  | 0, cs => some (firstLine cs)
  | n + 1, cs => (afterLine cs).bind (line? n)

/-- So many spaces. -/
def spaces (n : Nat) : String := "".pushn ' ' n

/-- The largest width that a text can be padded to. -/
def maxWidth : Nat := 65535

/-- An empty text padded to a width. -/
def indent (width : Nat) : Except Crash String :=
  if width ≤ maxWidth then .ok (spaces width) else .error .widthOutOfRange

/-- A text brought to a width by spaces before it. The width is one that a gutter has, far below the largest. -/
def alignRight (width : Nat) (text : String) : String :=
  spaces (width - text.length) ++ text

end Text

namespace Span

open Text

/-- How many carets stand under the first line of the span. -/
def caretCount (span : Span) : Nat :=
  if span.stop.line = span.start.line ∧ span.start.column < span.stop.column then
    span.stop.column - span.start.column
  else 1

/-- The width of the gutter: that of the line number, and at least two. -/
def gutter (span : Span) : Nat :=
  max 2 (toString (span.start.line + 1)).length

/-- The snippet around a given line of text. -/
def snippetOf (span : Span) (line : String) : Except Crash String := do
  let blank := spaces span.gutter
  let indentation ← indent span.start.column
  return blank ++ " |\n" ++
    alignRight span.gutter (toString (span.start.line + 1)) ++ " | " ++ line ++ "\n" ++
    blank ++ " | " ++ indentation ++ "".pushn '^' span.caretCount ++ "\n"

/-- The snippet of the span in `text`, if the text has the line on which the span starts. -/
def snippet (span : Span) (text : String) : Except Crash (Option String) :=
  match line? span.start.line text.toList with
  | none => .ok none
  | some line => (span.snippetOf (String.ofList line)).map some

end Span

end TypeSystem
