import TypeSystem.Text.Character

/-!
# Positions in a text

A position counts lines, characters and UTF-16 code units within the line, and bytes of the UTF-8
form, all from zero. A `Place` is a position together with the one bit of history that line counting
needs: after a carriage return, a line feed ends no further line, so the three styles of line end
each count once.
-/

namespace TypeSystem

/-- A point between two characters of a text. -/
structure Position where
  /-- Lines ended before this point. -/
  line : Nat
  /-- Characters since the line began. -/
  column : Nat
  /-- UTF-16 code units since the line began. -/
  unit16 : Nat
  /-- Bytes of the UTF-8 form since the text began. -/
  offset : Nat
deriving DecidableEq, Repr, Inhabited

namespace Position

/-- The point before the first character. -/
def origin : Position := ⟨0, 0, 0, 0⟩

end Position

/-- A position, and whether the character just before it is a carriage return. -/
structure Place where
  /-- The point reached. -/
  pos : Position
  /-- Whether a line feed here belongs to the line end already counted. -/
  afterReturn : Bool
deriving DecidableEq, Repr

namespace Place

/-- The place before the first character. -/
def origin : Place := ⟨.origin, false⟩

/-- The UTF-16 code units of a character. -/
def units16 (c : Char) : Nat :=
  if c.toNat < 0x10000 then 1 else 2

/-- The place after one more character. -/
def advance (p : Place) (c : Char) : Place :=
  let offset := p.pos.offset + c.utf8Size
  if c = '\n' then
    if p.afterReturn then ⟨{ p.pos with offset := offset }, false⟩
    else ⟨⟨p.pos.line + 1, 0, 0, offset⟩, false⟩
  else if c = '\r' then ⟨⟨p.pos.line + 1, 0, 0, offset⟩, true⟩
  else ⟨⟨p.pos.line, p.pos.column + 1, p.pos.unit16 + units16 c, offset⟩, false⟩

/-- The place after a run of characters. -/
def past (p : Place) (cs : List Char) : Place :=
  cs.foldl advance p

@[simp] theorem past_nil (p : Place) : p.past [] = p := rfl

@[simp] theorem past_cons (p : Place) (c : Char) (cs : List Char) :
    p.past (c :: cs) = (p.advance c).past cs := rfl

theorem past_append (p : Place) (cs ds : List Char) :
    p.past (cs ++ ds) = (p.past cs).past ds :=
  List.foldl_append

/-- Every character moves the offset by its own width. -/
theorem offset_advance (p : Place) (c : Char) :
    (p.advance c).pos.offset = p.pos.offset + c.utf8Size := by
  simp only [advance]
  split
  · split <;> rfl
  · split <;> rfl

end Place

end TypeSystem
