import TypeSystem.Proofs.Text.Lines
import TypeSystem.Proofs.Syntax.Outline

/-!
# The places of tokens

The tokens of a text stand one behind another, each between the place before its characters and the place
behind them (`Token.Along`). This does not change if some of them are left out, so it holds of the tokens
that a parser sees; and from the start of one of them to the end of another there is a part of the text,
which begins and ends at these places (`Token.Along.exists_part`). No token begins with the line feed of a
line end already counted, since line feeds are separators.

An invalid token may point to a place as well, which is always that of its own first character
(`Token.note_span_eq`).
-/

namespace TypeSystem

open Text

namespace Token

variable {text front : List Char} {t : Token} {ts us : List Token}

/-- The tokens stand one behind another in `text`, not before `front` ends. -/
inductive Along (text : List Char) : List Char → List Token → Prop where
  | nil (front : List Char) : Along text front []
  | cons {front : List Char} {t : Token} {ts : List Token} (before part after : List Char)
      (front_le : front <+: before) (text_eq : text = before ++ part ++ after)
      (clear : (Place.origin.past before).Clear (part ++ after))
      (start_eq : t.span.start = (Place.origin.past before).pos)
      (stop_eq : t.span.stop = (Place.origin.past (before ++ part)).pos)
      (others : Along text (before ++ part) ts) : Along text front (t :: ts)

/-! ### The tokens of a text -/

/-- Since line feeds are separators, what is none does not belong to a line end. -/
theorem clear_of_not_ignored {p : Place} {c : Char} {cs : List Char} (hc : ¬ isIgnored c) :
    p.Clear (c :: cs) := by
  rintro - hhead
  obtain rfl := Option.some.inj hhead
  exact hc rfl

/-- The tokens scanned from a place on stand along the text from there. -/
theorem along_lexFrom (front cs : List Char) :
    Along (front ++ cs) front (lexFrom (Place.origin.past front) cs) := by
  generalize hplace : Place.origin.past front = place
  induction place, cs using lex_induction generalizing front with
  | last place gap hgap =>
    subst hplace
    rw [lexFrom_ignored hgap, ← Place.past_append]
    refine .cons (front ++ gap) [] [] (List.prefix_append _ _) (by simp) (by simp [Place.Clear]) rfl ?_
      (.nil _)
    rw [List.append_nil]
    rfl
  | token place gap c rest hgap hc ih =>
    subst hplace
    -- the lexeme is the part, and the tokens of the rest stand behind it
    have hscan := Lexeme.scan_append c rest
    rw [lexFrom_append hgap hc]
    generalize Lexeme.scan c rest = l at hscan ih ⊢
    have hplace : ((Place.origin.past front).past gap).past l.text =
        Place.origin.past (front ++ gap ++ l.text) := by
      rw [Place.past_append, Place.past_append]
    have htext : front ++ (gap ++ c :: rest) = front ++ gap ++ l.text ++ l.rest := by
      rw [← hscan]
      simp only [List.append_assoc]
    have hothers := ih _ hplace.symm
    rw [htext]
    rw [hplace] at hothers ⊢
    rw [← Place.past_append]
    refine .cons (front ++ gap) l.text l.rest (List.prefix_append _ _) rfl ?_ rfl rfl hothers
    rw [hscan]
    exact clear_of_not_ignored hc

/-- The tokens of a text stand along the whole of it. -/
theorem along_lex (text : String) : Along text.toList [] (lex text) :=
  along_lexFrom [] text.toList

/-! ### Some of the tokens -/

namespace Along

/-- They stand along it from any earlier place too. -/
theorem widen (h : Along text front ts) {front' : List Char} (hle : front' <+: front) :
    Along text front' ts := by
  cases h with
  | nil => exact .nil _
  | cons before part after front_le text_eq clear start_eq stop_eq others =>
    exact .cons before part after (hle.trans front_le) text_eq clear start_eq stop_eq others

/-- Some of the tokens stand along the text as all of them do. -/
theorem filter (h : Along text front ts) (keep : Token → Bool) : Along text front (ts.filter keep) := by
  induction h with
  | nil front => exact .nil front
  | @cons front t ts before part after front_le text_eq clear start_eq stop_eq _ ih =>
    cases hkeep : keep t with
    | true =>
      rw [List.filter_cons_of_pos hkeep]
      exact .cons before part after front_le text_eq clear start_eq stop_eq ih
    | false =>
      rw [List.filter_cons_of_neg (by simp [hkeep])]
      exact ih.widen (front_le.trans (List.prefix_append _ _))

/-- Behind some of the tokens, the others stand. -/
theorem exists_behind (h : Along text front (ts ++ us)) (hfront : front <+: text) :
    ∃ front', front <+: front' ∧ front' <+: text ∧
      lastStop (Place.origin.past front).pos ts = (Place.origin.past front').pos ∧ Along text front' us := by
  induction ts generalizing front with
  | nil => exact ⟨front, List.prefix_rfl, hfront, rfl, h⟩
  | cons t ts ih =>
    rw [List.cons_append] at h
    cases h with
    | cons before part after front_le text_eq clear start_eq stop_eq others =>
      obtain ⟨front', hle, hfront', hstop, hrest⟩ := ih others ⟨after, text_eq.symm⟩
      refine ⟨front', front_le.trans ((List.prefix_append _ _).trans hle), hfront', ?_, hrest⟩
      rw [lastStop_cons, stop_eq, hstop]

/-- From the start of one token to the end of another there is a part of the text, whose ends are where the
span says. -/
theorem exists_part (h : Along text [] ts) {span : Span} (hextent : Extent ts span) :
    ∃ before part after, text = before ++ part ++ after ∧
      (Place.origin.past before).Clear (part ++ after) ∧ span.start = (Place.origin.past before).pos ∧
      span.stop = (Place.origin.past (before ++ part)).pos := by
  obtain ⟨earlier, first, run, later, rfl, hstart, hstop⟩ := hextent
  rw [List.append_assoc] at h
  obtain ⟨front, -, -, -, hfirst⟩ := h.exists_behind List.nil_prefix
  rw [List.cons_append] at hfirst
  cases hfirst with
  | cons before part after front_le text_eq clear start_eq stop_eq others =>
    obtain ⟨_, ⟨more, rfl⟩, ⟨after', htext⟩, hlast, -⟩ := others.exists_behind ⟨after, text_eq.symm⟩
    rw [List.append_assoc before] at htext
    -- what stands behind the start of the first token does not depend on where the last one ends
    have hafter : part ++ after = part ++ more ++ after' := by
      rw [← htext, List.append_assoc before, List.append_assoc before] at text_eq
      exact (List.append_cancel_left text_eq).symm
    refine ⟨before, part ++ more, after', htext.symm, hafter ▸ clear, hstart.trans start_eq, ?_⟩
    rw [hstop, stop_eq, hlast, List.append_assoc]

end Along

/-! ### Where invalid tokens point -/

/-- A note of a fault points to where the fault starts. -/
theorem note_span_eq_of_notes (fault : LexicalFault) {start : Position} {note : Note}
    (hnote : note ∈ fault.notes start) {span : Span} (hspan : note.span = some span) :
    span = .emptyAt start := by
  cases fault <;>
    simp only [LexicalFault.notes, LexicalFault.openNotes, LexicalFault.intRule, LexicalFault.floatRule,
      List.mem_cons, List.not_mem_nil, or_false] at hnote <;>
    grind

/-- A note of an invalid token that points anywhere points to where the token begins. -/
theorem note_span_eq {place : Place} {cs : List Char} (ht : t ∈ lexFrom place cs) {message : String}
    {notes : List Note} (hkind : t.kind = .invalid message notes) {note : Note} (hnote : note ∈ notes)
    {span : Span} (hspan : note.span = some span) : span = .emptyAt t.span.start := by
  induction place, cs using lex_induction with
  | last place gap hgap =>
    rw [lexFrom_ignored hgap, List.mem_singleton] at ht
    rw [ht] at hkind
    cases hkind
  | token place gap c rest hgap hc ih =>
    rw [lexFrom_append hgap hc, List.mem_cons] at ht
    rcases ht with rfl | ht
    · rw [Lexeme.tokenKind] at hkind
      split at hkind <;> cases hkind
      exact note_span_eq_of_notes _ hnote hspan
    · exact ih ht

end Token

end TypeSystem
