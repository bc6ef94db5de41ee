import TypeSystem.Text.Position

/-!
# Spans of a text

A span is the part of a text from one position up to another, with the name of the text if it has
one. The name travels with the span, so that a part can be traced to its text after several texts
have been put together.

A span is cut out of a text by its byte offsets: the cut exists exactly when both ends are in bounds,
in order, and between characters (`Text.slice`).
-/

namespace TypeSystem

namespace Text

/-- A text cut after `n` bytes, or nothing if that point lies outside the text or inside a
character. -/
def splitBytes? : Nat → List Char → Option (List Char × List Char)
  | 0, cs => some ([], cs)
  | _ + 1, [] => none
  | n + 1, c :: cs =>
    if c.utf8Size ≤ n + 1 then
      (splitBytes? (n + 1 - c.utf8Size) cs).map fun (front, back) ↦ (c :: front, back)
    else none

/-- The part of a text between two byte offsets. -/
def slice (cs : List Char) (start stop : Nat) : Option (List Char) :=
  if start ≤ stop then do
    let (_, back) ← splitBytes? start cs
    let (part, _) ← splitBytes? (stop - start) back
    return part
  else none

end Text

/-- The part of a text from `start` up to, and without, `stop`. -/
structure Span where
  /-- Where the part begins. -/
  start : Position
  /-- Where the part has ended. -/
  stop : Position
  /-- The name of the text, if it has one. -/
  source : Option String
deriving DecidableEq, Repr, Inhabited

namespace Span

/-- The empty span at a position of an unnamed text. -/
def emptyAt (pos : Position) : Span := ⟨pos, pos, none⟩

/-- From the start of one span to the end of another, in the text of the first. -/
def through (first last : Span) : Span :=
  ⟨first.start, last.stop, first.source⟩

/-- The part of `text` that the span covers. -/
def slice (span : Span) (text : String) : Option String :=
  (Text.slice text.toList span.start.offset span.stop.offset).map String.ofList

/-- The name of the text, the line and the column, counted from one. -/
def label (span : Span) : String :=
  span.source.getD "<input>" ++ ":" ++ toString (span.start.line + 1) ++ ":" ++
    toString (span.start.column + 1)

@[simp] theorem through_start (a b : Span) : (a.through b).start = a.start := rfl

@[simp] theorem through_stop (a b : Span) : (a.through b).stop = b.stop := rfl

@[simp] theorem through_source (a b : Span) : (a.through b).source = a.source := rfl

end Span

end TypeSystem
