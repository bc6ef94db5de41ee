import Mathlib.Data.List.Infix
import TypeSystem.Proofs.Token.Places

/-!
# Positions by counting

A place is moved along a text one character at a time. Here is what it comes to, counted over the whole of
the text behind it (`Position.behind`): the line ends in it, the characters and UTF-16 code units on its last
line, and its bytes. A carriage return with a line feed right behind it ends no line of its own, since the
line feed does.

The two accounts agree at every point of a text (`Place.pos_past_origin`), between a carriage return and its
line feed too: there the return has nothing behind it yet. As every token begins and ends where a place has
come to (`Token.Along`), each position that a token carries is the one that its byte offset has in the text
(`Token.isTrue_of_mem_lex`).
-/

namespace TypeSystem

namespace Text

/-- How many lines have ended in a text: every line feed ends one, and every carriage return without a line
feed right behind it. -/
def lineEnds (cs : List Char) : Nat :=
  cs.count '\n' + cs.tails.countP fun back ↦ back[0]? = some '\r' ∧ back[1]? ≠ some '\n'

/-- The UTF-16 code units of a character: itself, or a high and a low surrogate. -/
def utf16 (c : Char) : List Nat :=
  if c.toNat < 0x10000 then [c.toNat]
  else [0xD800 + (c.toNat - 0x10000) / 0x400, 0xDC00 + (c.toNat - 0x10000) % 0x400]

/-- The UTF-16 code units of a text. -/
def utf16Units (cs : List Char) : List Nat :=
  cs.flatMap utf16

/-- The reference counts as many units for a character as the place moves on by. -/
theorem length_utf16 (c : Char) : (utf16 c).length = Place.units16 c := by
  rw [utf16, Place.units16]
  split <;> rfl

@[simp] theorem lineEnds_nil : lineEnds [] = 0 := rfl

/-- Lines are counted at line feeds, and at carriage returns without one behind them. -/
theorem lineEnds_cons (c : Char) (cs : List Char) :
    lineEnds (c :: cs) = lineEnds cs +
      if c = '\n' ∨ c = '\r' ∧ cs.head? ≠ some '\n' then 1 else 0 := by
  have hfeed : ¬ (c = '\n' ∧ c = '\r') := by
    rintro ⟨rfl, h⟩
    exact absurd h (by decide)
  rw [lineEnds, lineEnds, List.count_cons, List.tails_cons, List.countP_cons, List.head?_eq_getElem?]
  by_cases hc : c = '\n' <;> by_cases hr : c = '\r' ∧ cs[0]? ≠ some '\n' <;> simp_all <;> omega

end Text

open Text

/-- The position at the end of a text. -/
def Position.behind (front : List Char) : Position where
  line := lineEnds front
  column := (lastLine front).length
  unit16 := (utf16Units (lastLine front)).length
  offset := width front

/-- The position at a byte offset of a text, if the text can be cut there. -/
def Position.at? (text : String) (offset : Nat) : Option Position :=
  (splitBytes? offset text.toList).map fun cut ↦ .behind cut.1

/-- The position is the one that its byte offset has in the text. -/
def Position.IsTrue (text : String) (pos : Position) : Prop :=
  Position.at? text pos.offset = some pos

namespace Place

variable {p : Place} {c : Char}

/-! ### Lines -/

/-- A place counts the line ends of what it is moved past, without a line feed of a line end already
counted. -/
theorem line_past (p : Place) (cs : List Char) :
    (p.past cs).pos.line = p.pos.line + lineEnds (p.ahead cs) := by
  induction cs generalizing p with
  | nil =>
    rw [past_nil, ahead_of_clear fun _ ↦ by simp, lineEnds_nil]
    rfl
  | cons c cs ih =>
    rw [past_cons, ih]
    by_cases hc : isLineEnd c
    · rcases isLineEnd_iff.1 hc with rfl | rfl
      · cases hafter : p.afterReturn with
        | false =>
          obtain ⟨hline, -, hflag⟩ := advance_feed hafter
          rw [hline, ahead_of_clear (by simp [Clear, hflag]), ahead_of_clear (by simp [Clear, hafter]),
            lineEnds_cons, if_pos (.inl rfl)]
          omega
        | true =>
          -- the line feed belongs to the line end before it
          obtain ⟨hline, -, hflag⟩ := advance_feed_of_return hafter
          rw [hline, ahead_of_clear (by simp [Clear, hflag]), ahead, if_pos ⟨hafter, rfl⟩]
          rfl
      · obtain ⟨hline, -, hflag⟩ := advance_return (p := p)
        have hclear : p.Clear ('\r' :: cs) := by simp [Clear]
        rw [hline, ahead_of_clear hclear, lineEnds_cons]
        by_cases hhead : cs.head? = some '\n'
        · obtain ⟨rest, rfl⟩ := List.head?_eq_some_iff.1 hhead
          rw [ahead, if_pos ⟨hflag, rfl⟩, if_neg (by simp), List.tail_cons, lineEnds_cons, if_pos (.inl rfl)]
          omega
        · rw [ahead_of_clear fun _ ↦ hhead, if_pos (.inr ⟨rfl, hhead⟩)]
          omega
    · obtain ⟨hline, -, hflag⟩ := advance_of_not_end (p := p) hc
      obtain ⟨hfeed, hreturn⟩ := not_or.1 (mt isLineEnd_iff.2 hc)
      rw [hline, ahead_of_clear (by simp [Clear, hflag]), ahead_of_clear (by simp [Clear, hfeed]),
        lineEnds_cons, if_neg (by simp [hfeed, hreturn])]
      rfl

/-! ### Columns -/

/-- Behind a line end a line has no code units yet. -/
theorem unit16_advance_of_end (hc : isLineEnd c) (hp : p.afterReturn = true → p.pos.unit16 = 0) :
    (p.advance c).pos.unit16 = 0 := by
  rcases isLineEnd_iff.1 hc with rfl | rfl
  · cases hafter : p.afterReturn with
    | false => simp [advance, hafter]
    | true => simpa [advance, hafter] using hp hafter
  · simp [advance]

/-- Within a line a character moves on by its units. -/
theorem unit16_advance_of_not_end (hc : ¬ isLineEnd c) :
    (p.advance c).pos.unit16 = p.pos.unit16 + units16 c := by
  obtain ⟨hfeed, hreturn⟩ := not_or.1 (mt isLineEnd_iff.2 hc)
  simp [advance, hfeed, hreturn]

/-- A place counts the code units of the line that it has come to. -/
theorem unit16_past (front : List Char) :
    (origin.past front).pos.unit16 = (utf16Units (lastLine front)).length ∧
      ((origin.past front).afterReturn = true → (origin.past front).pos.unit16 = 0) := by
  -- induction from the end of the text, where the last line is
  induction front using List.reverseRecOn with
  | nil => exact ⟨rfl, fun _ ↦ rfl⟩
  | append_singleton front c ih =>
    obtain ⟨hunits, hzero⟩ := ih
    have hlast : origin.past (front ++ [c]) = (origin.past front).advance c := past_append _ _ _
    rw [hlast]
    by_cases hc : isLineEnd c
    · have hnone := unit16_advance_of_end hc hzero
      rw [lastLine_append_cons front hc, hnone]
      exact ⟨rfl, fun _ ↦ rfl⟩
    · have hline : lastLine (front ++ [c]) = lastLine front ++ [c] :=
        List.rtakeWhile_concat_pos _ _ _ (by simpa using hc)
      refine ⟨?_, fun hafter ↦ ?_⟩
      · rw [unit16_advance_of_not_end hc, hunits, hline, utf16Units, utf16Units, List.flatMap_append,
          List.length_append, List.flatMap_singleton, length_utf16]
      · rw [(advance_of_not_end (p := origin.past front) hc).2.2] at hafter
        cases hafter

/-! ### Places and positions -/

/-- Passing a text character by character comes to the position that is counted over it. -/
theorem pos_past_origin (front : List Char) : (origin.past front).pos = .behind front := by
  have hnothing : (origin.past front).Clear [] := by simp [Clear]
  have hline : (origin.past front).pos.line = lineEnds front := by
    rw [line_past, ahead_of_clear (by simp [Clear, origin])]
    exact Nat.zero_add _
  have hcolumn : (origin.past front).pos.column = (lastLine front).length := (line?_past hnothing).1
  have hunits := (unit16_past front).1
  have hoffset : (origin.past front).pos.offset = width front := by
    rw [offset_past]
    exact Nat.zero_add _
  rw [Position.behind, ← hline, ← hcolumn, ← hunits, ← hoffset]

/-- Where a place has come to within a text is the position of its byte offset. -/
theorem isTrue_past {text : String} {front back : List Char} (htext : text.toList = front ++ back) :
    (origin.past front).pos.IsTrue text := by
  rw [pos_past_origin, Position.IsTrue, Position.at?, htext]
  show (splitBytes? (width front) _).map _ = _
  rw [splitBytes?_append]
  rfl

end Place

/-- A span begins and ends at the positions that its byte offsets have in the text. -/
structure Span.IsTrue (text : String) (span : Span) : Prop where
  start : span.start.IsTrue text
  stop : span.stop.IsTrue text

namespace Token

/-- **Positions are those of their byte offsets.** Every token of a text begins and ends at the positions
that its byte offsets have in the text, and what its notes point to does so too. -/
theorem isTrue_of_mem_lex {text : String} {t : Token} (ht : t ∈ lex text) :
    t.span.IsTrue text ∧ ∀ message notes, t.kind = .invalid message notes →
      ∀ note ∈ notes, ∀ span ∈ note.span, span.IsTrue text := by
  obtain ⟨before, part, after, htext, -, hstart, hstop⟩ := (along_lex text).exists_part (extent_of_mem ht)
  have hbegins : t.span.start.IsTrue text := by
    rw [hstart]
    exact Place.isTrue_past (htext.trans (List.append_assoc _ _ _))
  have hends : t.span.stop.IsTrue text := by
    rw [hstop]
    exact Place.isTrue_past htext
  refine ⟨⟨hbegins, hends⟩, fun message notes hkind note hnote span hspan ↦ ?_⟩
  -- a note points to where its token begins
  rw [note_span_eq ht hkind hnote hspan]
  exact ⟨hbegins, hbegins⟩

/-- Behind characters of two and of four bytes, and a carriage return with its line feed. -/
theorem isTrue_of_mem_lex_behind_return :
    (⟨.name "_", ⟨⟨1, 1, 1, 11⟩, ⟨1, 2, 2, 12⟩, none⟩⟩ : Token) ∈ lex "\"é😀\"\r\n _" ∧
      (⟨⟨1, 1, 1, 11⟩, ⟨1, 2, 2, 12⟩, none⟩ : Span).IsTrue "\"é😀\"\r\n _" := by
  have ht : (⟨.name "_", ⟨⟨1, 1, 1, 11⟩, ⟨1, 2, 2, 12⟩, none⟩⟩ : Token) ∈ lex "\"é😀\"\r\n _" := by
    have hlex : (lex "\"é😀\"\r\n _")[1]? = some ⟨.name "_", ⟨⟨1, 1, 1, 11⟩, ⟨1, 2, 2, 12⟩, none⟩⟩ := by decide +kernel
    exact List.mem_of_getElem? hlex
  exact ⟨ht, (isTrue_of_mem_lex ht).1⟩

end Token

end TypeSystem
