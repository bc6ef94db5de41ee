import Mathlib.Data.List.DropRight
import TypeSystem.Proofs.Text.Width
import TypeSystem.Text.Snippet

/-!
# Lines and positions

There are two accounts of the lines of a text. A place counts them character by character, with a flag for
the carriage return that may have a line feed behind it; a snippet looks for the ends of lines from the
beginning of the text. They agree at every place but one between a carriage return and its line feed
(`Place.line?_past`), and there the column is the number of characters since the last line end. So a snippet
shows the line on which a span starts and underlines the characters of that line that the span covers, as long
as the carets under them can be indented (`Span.isShown_of_places`).
-/

namespace TypeSystem

namespace Text

/-- Two characters end lines. -/
theorem isLineEnd_iff {c : Char} : isLineEnd c ↔ c = '\n' ∨ c = '\r' := by
  simp [isLineEnd]

/-- The characters behind the last line end. -/
def lastLine (cs : List Char) : List Char :=
  cs.rtakeWhile fun c ↦ !isLineEnd c

theorem lastLine_of_no_end {cs : List Char} (h : ∀ c ∈ cs, ¬ isLineEnd c) : lastLine cs = cs :=
  List.rtakeWhile_eq_self_iff.2 fun c hc ↦ by simpa using h c hc

/-- Characters that end no line are in the first line, before the rest of it. -/
theorem firstLine_append {cs : List Char} (h : ∀ c ∈ cs, ¬ isLineEnd c) (ds : List Char) :
    firstLine (cs ++ ds) = cs ++ firstLine ds :=
  List.takeWhile_append_of_pos fun c hc ↦ by simpa using h c hc

/-- A width up to the greatest one is padded in full. -/
theorem indent_of_le {width : Nat} (h : width ≤ 65535) : indent width = .ok (spaces width) :=
  if_pos h

/-- A greater width cannot be padded to. -/
theorem indent_of_lt {width : Nat} (h : 65535 < width) : indent width = .error .widthOutOfRange :=
  if_neg (Nat.not_le.2 h)

/-- What stands before a line end is not on the last line. -/
theorem lastLine_append_cons (cs : List Char) {c : Char} (hc : isLineEnd c) (ds : List Char) :
    lastLine (cs ++ c :: ds) = lastLine ds := by
  induction ds using List.reverseRecOn with
  | nil => rw [lastLine, List.rtakeWhile_concat_neg _ _ _ (by simpa using hc)]; rfl
  | append_singleton ds d ih =>
    rw [← List.cons_append, ← List.append_assoc]
    by_cases hd : isLineEnd d
    · rw [lastLine, lastLine, List.rtakeWhile_concat_neg _ _ _ (by simpa using hd),
        List.rtakeWhile_concat_neg _ _ _ (by simpa using hd)]
    · rw [lastLine, lastLine, List.rtakeWhile_concat_pos _ _ _ (by simpa using hd),
        List.rtakeWhile_concat_pos _ _ _ (by simpa using hd)]
      exact congrArg (· ++ [d]) ih

/-- The rest of a line does not tell where the next one begins. -/
theorem afterLine_append {cs : List Char} (h : ∀ c ∈ cs, ¬ isLineEnd c) (ds : List Char) :
    afterLine (cs ++ ds) = afterLine ds := by
  induction cs with
  | nil => rfl
  | cons c cs ih =>
    obtain ⟨hc, hcs⟩ := List.forall_mem_cons.1 h
    rw [List.cons_append, afterLine, if_neg hc]
    · exact ih hcs
    · exact fun rest heq ↦ absurd (isLineEnd_iff.2 (.inr heq)) hc

end Text

open Text

namespace Place

variable {p : Place} {c : Char} {cs front back : List Char}

/-! ### Single steps -/

/-- What comes next is no line feed of a line end already counted. -/
def Clear (p : Place) (cs : List Char) : Prop :=
  p.afterReturn = true → cs.head? ≠ some '\n'

/-- What comes next, without a line feed of a line end already counted. -/
def ahead (p : Place) (cs : List Char) : List Char :=
  if p.afterReturn = true ∧ cs.head? = some '\n' then cs.tail else cs

theorem ahead_of_clear (h : p.Clear cs) : p.ahead cs = cs :=
  if_neg fun ⟨hreturn, hhead⟩ ↦ h hreturn hhead

/-- A character that ends no line moves on by one column. -/
theorem advance_of_not_end (h : ¬ isLineEnd c) :
    (p.advance c).pos.line = p.pos.line ∧ (p.advance c).pos.column = p.pos.column + 1 ∧
      (p.advance c).afterReturn = false := by
  obtain ⟨hfeed, hreturn⟩ := not_or.1 (mt isLineEnd_iff.2 h)
  simp [advance, hfeed, hreturn]

/-- A carriage return ends a line. -/
theorem advance_return : (p.advance '\r').pos.line = p.pos.line + 1 ∧ (p.advance '\r').pos.column = 0 ∧
    (p.advance '\r').afterReturn = true := by
  simp [advance]

/-- So does a line feed, if it does not stand behind a carriage return. -/
theorem advance_feed (h : p.afterReturn = false) : (p.advance '\n').pos.line = p.pos.line + 1 ∧
    (p.advance '\n').pos.column = 0 ∧ (p.advance '\n').afterReturn = false := by
  simp [advance, h]

/-- Behind a carriage return a line feed is part of the same line end, and moves nothing. -/
theorem advance_feed_of_return (h : p.afterReturn = true) : (p.advance '\n').pos.line = p.pos.line ∧
    (p.advance '\n').pos.column = p.pos.column ∧ (p.advance '\n').afterReturn = false := by
  simp [advance, h]

/-- The next line begins behind a carriage return, and behind the line feed that may follow it. -/
theorem afterLine_return (cs : List Char) : afterLine ('\r' :: cs) = some ((p.advance '\r').ahead cs) := by
  have hreturn : (p.advance '\r').afterReturn = true := advance_return.2.2
  cases cs with
  | nil => simp [afterLine, ahead, isLineEnd]
  | cons c cs =>
    by_cases hc : c = '\n'
    · subst hc
      simp [afterLine, ahead, hreturn]
    · rw [afterLine, if_pos (by rfl), ahead_of_clear fun _ ↦ by simpa using hc]
      rintro rest - heq
      exact hc (List.cons.inj heq).1

/-! ### Lines counted and lines found -/

/-- A line end leads to the next line, or is the line feed of a line end already counted. -/
theorem line?_of_end {head : List Char} (hhead : ∀ c ∈ head, ¬ isLineEnd c)
    (hcolumn : p.pos.column = head.length) (hreturn : p.afterReturn = true → head = []) (hc : isLineEnd c)
    (cs : List Char) :
    ∃ k, (p.advance c).pos.line = p.pos.line + k ∧ (p.advance c).pos.column = 0 ∧
      ∀ n, line? (n + k) (head ++ p.ahead (c :: cs)) = line? n ((p.advance c).ahead cs) := by
  rcases isLineEnd_iff.1 hc with rfl | rfl
  · cases hafter : p.afterReturn with
    | false =>
      obtain ⟨hline, hzero, hflag⟩ := advance_feed hafter
      refine ⟨1, hline, hzero, fun n ↦ ?_⟩
      rw [ahead_of_clear (by simp [Clear, hafter]), ahead_of_clear (by simp [Clear, hflag]), line?,
        afterLine_append hhead]
      rfl
    | true =>
      obtain rfl := hreturn hafter
      obtain ⟨hline, hzero, hflag⟩ := advance_feed_of_return hafter
      refine ⟨0, hline, hzero.trans hcolumn, fun n ↦ ?_⟩
      rw [ahead, if_pos ⟨hafter, rfl⟩, ahead_of_clear (by simp [Clear, hflag])]
      rfl
  · obtain ⟨hline, hzero, -⟩ := advance_return (p := p)
    refine ⟨1, hline, hzero, fun n ↦ ?_⟩
    rw [ahead_of_clear (by simp [Clear]), line?, afterLine_append hhead, afterLine_return (p := p)]
    rfl

/-- The lines that a place counts from one on, on which it has `head` behind it, are those found in the
text from the beginning of that line. -/
theorem line?_past_of_head {head : List Char} (hhead : ∀ c ∈ head, ¬ isLineEnd c)
    (hcolumn : p.pos.column = head.length) (hreturn : p.afterReturn = true → head = [])
    (hback : (p.past front).Clear back) :
    ∃ n, (p.past front).pos.line = p.pos.line + n ∧
      (p.past front).pos.column = (lastLine (head ++ front)).length ∧
      line? n (head ++ p.ahead (front ++ back)) = some (lastLine (head ++ front) ++ firstLine back) := by
  -- induction on the characters passed; a line end leaves nothing of the line before
  induction front generalizing p head with
  | nil =>
    refine ⟨0, rfl, ?_, ?_⟩
    · rw [List.append_nil, lastLine_of_no_end hhead]
      exact hcolumn
    · rw [past_nil] at hback
      rw [List.nil_append, ahead_of_clear hback, List.append_nil, lastLine_of_no_end hhead, line?,
        firstLine_append hhead]
  | cons c front ih =>
    rw [past_cons] at hback ⊢
    by_cases hc : isLineEnd c
    · obtain ⟨k, hline, hzero, hnext⟩ := line?_of_end hhead hcolumn hreturn hc (front ++ back)
      obtain ⟨n, hn, hcol, hfound⟩ := ih (List.forall_mem_nil _) hzero (fun _ ↦ rfl) hback
      rw [lastLine_append_cons _ hc]
      exact ⟨n + k, by omega, hcol, (hnext n).trans hfound⟩
    · obtain ⟨hline, hnext, hflag⟩ := advance_of_not_end (p := p) hc
      have hhead' : ∀ d ∈ head ++ [c], ¬ isLineEnd d :=
        List.forall_mem_append.2 ⟨hhead, List.forall_mem_singleton.2 hc⟩
      have hcolumn' : (p.advance c).pos.column = (head ++ [c]).length := by
        rw [hnext, hcolumn, List.length_append]
        rfl
      obtain ⟨n, hn, hcol, hfound⟩ := ih hhead' hcolumn' (by simp [hflag]) hback
      have hfeed : c ≠ '\n' := fun h ↦ hc (isLineEnd_iff.2 (.inl h))
      rw [ahead_of_clear (by simp [Clear, hflag]), List.append_assoc, List.append_assoc,
        List.singleton_append] at hfound
      rw [List.append_assoc] at hcol
      rw [ahead_of_clear (by simp [Clear, hfeed])]
      exact ⟨n, by omega, hcol, hfound⟩

/-- The line that a place has come to is the line of that number in the text, and the characters on it
behind the place are as many as the column says. -/
theorem line?_past (hback : (origin.past front).Clear back) :
    (origin.past front).pos.column = (lastLine front).length ∧
      line? (origin.past front).pos.line (front ++ back) = some (lastLine front ++ firstLine back) := by
  obtain ⟨n, hn, hcolumn, hline⟩ :=
    line?_past_of_head (p := origin) (List.forall_mem_nil _) rfl (fun _ ↦ rfl) hback
  have hstart : (origin.past front).pos.line = n := by simpa [origin, Position.origin] using hn
  rw [hstart]
  exact ⟨hcolumn, hline⟩

/-! ### Parts of a line -/

theorem line_le_advance (p : Place) (c : Char) : p.pos.line ≤ (p.advance c).pos.line := by
  by_cases hc : isLineEnd c
  · rcases isLineEnd_iff.1 hc with rfl | rfl
    · cases hafter : p.afterReturn with
      | false => rw [(advance_feed hafter).1]; omega
      | true => rw [(advance_feed_of_return hafter).1]
    · rw [advance_return.1]
      omega
  · rw [(advance_of_not_end hc).1]

/-- Lines are counted upwards. -/
theorem line_le_past (p : Place) (cs : List Char) : p.pos.line ≤ (p.past cs).pos.line := by
  induction cs generalizing p with
  | nil => exact le_rfl
  | cons c cs ih => exact (line_le_advance p c).trans (ih _)

/-- A part that ends on the line on which it begins moves the column by its length. -/
theorem column_past_of_line_eq (hp : p.Clear cs) (hline : (p.past cs).pos.line = p.pos.line) :
    (∀ c ∈ cs, ¬ isLineEnd c) ∧ (p.past cs).pos.column = p.pos.column + cs.length := by
  induction cs generalizing p with
  | nil => exact ⟨by simp, rfl⟩
  | cons c cs ih =>
    rw [past_cons] at hline ⊢
    have hle := line_le_past (p.advance c) cs
    by_cases hc : isLineEnd c
    · -- a line end would have been counted
      rcases isLineEnd_iff.1 hc with rfl | rfl
      · have hafter : p.afterReturn = false := by
          rw [← Bool.not_eq_true]
          exact fun h ↦ hp h rfl
        rw [(advance_feed hafter).1] at hle
        omega
      · rw [advance_return.1] at hle
        omega
    · obtain ⟨hsame, hnext, hflag⟩ := advance_of_not_end (p := p) hc
      obtain ⟨hcs, hcolumn⟩ := ih (by simp [Clear, hflag]) (hline.trans hsame.symm)
      refine ⟨List.forall_mem_cons.2 ⟨hc, hcs⟩, ?_⟩
      rw [hcolumn, hnext, List.length_cons]
      omega

end Place

/-! ### What a snippet shows -/

namespace Span

/-- How many carets a snippet has under a part of a text: one for each character, and one in any case, if
the part ends on the line on which it begins. -/
def carets (span : Span) (part : List Char) : Nat :=
  if span.start.line = span.stop.line then max 1 part.length else 1

/-- The span covers a part of a text, and starts behind as many characters of a line as its column says. -/
structure Cuts (span : Span) (text : String) (before part after : List Char) : Prop where
  text_eq : text.toList = before ++ part ++ after
  start_offset : span.start.offset = width before
  slice_eq : span.slice text = some (String.ofList part)
  column_eq : span.start.column = (lastLine before).length

/-- The snippet of a span shows the line on which the span starts, between the line ends around it, and
underlines the part of the text that the span covers, as far as that is on the line. -/
structure Underlines (span : Span) (text : String) (before part after : List Char) : Prop
    extends span.Cuts text before part after where
  snippet_eq : span.snippet text = .ok (some
    (spaces span.gutter ++ " |\n" ++
      alignRight span.gutter (toString (span.start.line + 1)) ++ " | " ++
        String.ofList (lastLine before ++ firstLine (part ++ after)) ++ "\n" ++
      spaces span.gutter ++ " | " ++ spaces span.start.column ++ "".pushn '^' (span.carets part) ++ "\n"))
  above : span.start.line = span.stop.line → part ≠ [] →
    ((lastLine before ++ firstLine (part ++ after)).drop span.start.column).take (span.carets part) = part

/-- What comes of asking for the snippet of a span that covers a part of a text: it underlines the part, unless the
part begins so far behind the start of a line that the carets cannot be indented. -/
structure IsShown (span : Span) (text : String) (before part after : List Char) : Prop
    extends span.Cuts text before part after where
  underlines : span.start.column ≤ 65535 → span.Underlines text before part after
  breaks_off : 65535 < span.start.column → span.snippet text = .error .widthOutOfRange

variable {span : Span} {text : String} {before part after : List Char}

/-- A span between two places, the first of them not inside a line end, is shown. -/
theorem isShown_of_places (htext : text.toList = before ++ part ++ after)
    (hclear : (Place.origin.past before).Clear (part ++ after))
    (hstart : span.start = (Place.origin.past before).pos)
    (hstop : span.stop = (Place.origin.past (before ++ part)).pos) :
    span.IsShown text before part after := by
  obtain ⟨hcolumn, hline⟩ := Place.line?_past hclear
  rw [← hstart] at hcolumn hline
  have hoffset : span.start.offset = width before := by
    rw [hstart, Place.offset_past]
    exact Nat.zero_add _
  have hoffset' : span.stop.offset = width before + width part := by
    rw [hstop, Place.offset_past, width_append]
    exact Nat.zero_add _
  -- on one line, the part moves the column by its length
  have hpart (hsame : span.start.line = span.stop.line) :
      (∀ c ∈ part, ¬ isLineEnd c) ∧ span.stop.column = span.start.column + part.length := by
    rw [hstart, hstop, Place.past_append] at hsame ⊢
    refine Place.column_past_of_line_eq (fun hreturn hhead ↦ hclear hreturn ?_) hsame.symm
    rw [List.head?_append, hhead]
    rfl
  have hcarets : span.caretCount = span.carets part := by
    rw [caretCount, carets]
    by_cases hsame : span.start.line = span.stop.line
    · rw [if_pos hsame, (hpart hsame).2]
      split <;> omega
    · rw [if_neg hsame, if_neg fun h ↦ hsame h.1.symm]
  have hsnippet : span.snippet text =
      (span.snippetOf (String.ofList (lastLine before ++ firstLine (part ++ after)))).map some := by
    rw [snippet, htext, List.append_assoc, hline]
  have hcuts : span.Cuts text before part after :=
    ⟨htext, hoffset, slice_eq_some htext hoffset hoffset', hcolumn⟩
  refine ⟨hcuts, fun hnear ↦ ⟨hcuts, ?_, fun hsame hne ↦ ?_⟩, fun hfar ↦ ?_⟩
  · rw [hsnippet, snippetOf, indent_of_le hnear, ← hcarets]
    rfl
  · have hcount : span.carets part = part.length := by
      have := List.length_pos_iff.2 hne
      rw [carets, if_pos hsame]
      omega
    rw [hcount, hcolumn, List.drop_left, firstLine_append (hpart hsame).1, List.take_left]
  · rw [hsnippet, snippetOf, indent_of_lt hfar]
    rfl

end Span

end TypeSystem
