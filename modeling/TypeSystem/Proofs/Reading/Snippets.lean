import TypeSystem.Proofs.Reading.Citing
import TypeSystem.Proofs.Reading.FirstError
import TypeSystem.Proofs.Reading.Layout
import TypeSystem.Proofs.Token.Places

/-!
# What snippets underline

A snippet of a span that comes of reading a text shows that span in the text: the line on which it starts,
and carets under the part that it covers (`Span.underlines_of_isFound`). For every such span lies between
two places at which tokens begin or end. The span of a node runs from one token to another
(`Outline.Over.extent`), and so does that of an error (`exists_extent_of_error`); and a note points to where
a token begins (`Token.note_span_eq`).

There is no snippet behind more than 65535 characters of a line, where the program breaks off instead. A text can
lead there: spaces do, with anything behind them (`Token.lex_spaces_append`).
-/

namespace TypeSystem

open HasOutline (outline)

/-- The spans that come of reading a text: those of its tokens, of the nodes of the document that it makes
or of the error, and those to which notes point. -/
inductive Span.IsFound (text : String) : Span → Prop where
  | token {t : Token} (ht : t ∈ Token.lex text) : IsFound text t.span
  | tokenNote {t : Token} {message : String} {notes : List Note} {note : Note} {span : Span}
      (ht : t ∈ Token.lex text) (hkind : t.kind = .invalid message notes) (hnote : note ∈ notes)
      (hspan : note.span = some span) : IsFound text span
  | node {source : Option String} {document : Document} {span : Span}
      (h : Document.ofTokens source (Token.lex text) = .ok document)
      (hspan : span ∈ (outline document).spans) : IsFound text span
  | error {source : Option String} {e : ParseError}
      (h : Document.ofTokens source (Token.lex text) = .error e) : IsFound text e.span
  | sourceError {name : String} {e : ParseError} (h : Document.ofSource ⟨name, text⟩ = .error e) :
      IsFound text e.span
  | errorNote {source : Option String} {e : ParseError} {note : Note} {span : Span}
      (h : Document.ofTokens source (Token.lex text) = .error e) (hnote : note ∈ e.notes)
      (hspan : note.span = some span) : IsFound text span

/-! ### Spans and tokens -/

/-- A token to come is one of the text, as the one for the end is among them. -/
theorem mem_lex_of_mem_shown {text : String} {t : Token}
    (h : t ∈ (TokenStream.ofTokens (Token.lex text)).shown) : t ∈ Token.lex text :=
  Token.mem_lexFrom_of_mem_shown h

/-- An error has the extent of a token, or of an extension that adds nothing. -/
theorem exists_extent_of_error {source : Option String} {text : String} {e : ParseError}
    (h : Document.ofTokens source (Token.lex text) = .error e) :
    ∃ tokens, Token.Along text.toList [] tokens ∧ Token.Extent tokens e.span := by
  -- the depth of a type reference is the one thing that is refused although the input could go on
  by_cases hdepth : ∀ limit, e.fault ≠ .tooDeep limit
  · obtain ⟨ts, found, after, hpending, -, hblame, -⟩ :=
      stops_document source _ e _ (ends_ofTokens_lex text) (Prod.ext h rfl) hdepth
    have htokens : ((Token.lex text).filter fun t ↦ !t.isComment) = ts ++ found :: after := hpending
    refine ⟨ts ++ found :: after, htokens ▸ (Token.along_lex text).filter _, ?_⟩
    rcases hblame with hblames | ⟨-, earlier, extend, others, rfl, -, hspan⟩
    · rw [hblames.span_eq]
      exact Token.extent_of_mem (by simp)
    · rw [hspan]
      exact ⟨earlier, extend, others, found :: after, by simp, rfl, rfl⟩
  · push Not at hdepth
    obtain ⟨limit, hdeep⟩ := hdepth
    obtain ⟨t, ht, rfl⟩ := (cites_of_ofTokens_eq h).of_tooDeep limit hdeep
    exact ⟨_, Token.along_lex text, Token.extent_of_mem (mem_lex_of_mem_shown ht)⟩

namespace Span

variable {text : String} {span : Span}

/-! ### Spans that are shown -/

/-- A span is shown in a text whatever name it gives to it. -/
theorem IsShown.of_ends {span' : Span} {before part after : List Char}
    (h : span.IsShown text before part after) (hstart : span'.start = span.start)
    (hstop : span'.stop = span.stop) : span'.IsShown text before part after := by
  obtain ⟨start, stop, source⟩ := span
  obtain ⟨start', stop', source'⟩ := span'
  obtain rfl : start' = start := hstart
  obtain rfl : stop' = stop := hstop
  obtain ⟨⟨htext, hoffset, hslice, hcolumn⟩, hnear, hfar⟩ := h
  have hcuts : Cuts ⟨start', stop', source'⟩ text before part after := ⟨htext, hoffset, hslice, hcolumn⟩
  exact ⟨hcuts, fun h ↦ ⟨hcuts, (hnear h).snippet_eq, (hnear h).above⟩, hfar⟩

/-- The extent of tokens is shown, as they start and stop at places of the text. -/
theorem exists_isShown_of_extent {ts : List Token} (h : Token.Along text.toList [] ts)
    (hextent : Token.Extent ts span) : ∃ before part after, span.IsShown text before part after := by
  obtain ⟨before, part, after, htext, hclear, hstart, hstop⟩ := h.exists_part hextent
  exact ⟨before, part, after, isShown_of_places htext hclear hstart hstop⟩

/-- A place at which a token begins is shown by one caret. -/
theorem exists_isShown_emptyAt {t : Token} (ht : t ∈ Token.lex text) :
    ∃ before part after, (emptyAt t.span.start).IsShown text before part after := by
  obtain ⟨before, part, after, htext, hclear, hstart, -⟩ :=
    (Token.along_lex text).exists_part (Token.extent_of_mem ht)
  refine ⟨before, [], part ++ after, isShown_of_places ?_ hclear hstart ?_⟩
  · rw [htext]
    simp
  · rw [List.append_nil]
    exact hstart

/-- **A snippet underlines exactly what it is about.** Every span that comes of reading a text, of whatever
line ends and characters, cuts a part out of it. Its snippet shows the line on which that part begins, from
the line end before it up to the next one, with the number of the line, and below it as many spaces as there
are characters on the line before the part, and then one caret for each character of the part, at least one;
or a single one, if the part ends on another line. This holds exactly as long as there are at most 65535
characters before the part; behind more, there is no snippet, and the program breaks off. -/
theorem underlines_of_isFound (h : span.IsFound text) :
    ∃ before part after, span.IsShown text before part after := by
  have herror {source : Option String} {e : ParseError}
      (h : Document.ofTokens source (Token.lex text) = .error e) :
      ∃ before part after, e.span.IsShown text before part after := by
    obtain ⟨tokens, halong, hextent⟩ := exists_extent_of_error h
    exact exists_isShown_of_extent halong hextent
  cases h with
  | token ht => exact exists_isShown_of_extent (Token.along_lex text) (Token.extent_of_mem ht)
  | tokenNote ht hkind hnote hspan =>
    rw [Token.note_span_eq ht hkind hnote hspan]
    exact exists_isShown_emptyAt ht
  | node h hspan =>
    obtain ⟨items, rfl, hover⟩ := over_of_ofTokens_eq h
    exact exists_isShown_of_extent ((Token.along_lex text).filter _)
      (hover.extent (mem_spans_ofDefinitions.1 hspan)).1
  | error h => exact herror h
  | @sourceError name e h =>
    rw [Document.ofSource] at h
    cases hread : Document.ofTokens (some name) (Token.lex text) with
    | ok document =>
      rw [hread] at h
      cases h
    | error e' =>
      rw [hread] at h
      obtain rfl := Except.error.inj h
      obtain ⟨before, part, after, hshown⟩ := herror hread
      exact ⟨before, part, after, hshown.of_ends rfl rfl⟩
  | errorNote h hnote hspan =>
    obtain ⟨t, ht, message, notes, hkind, hmem⟩ :=
      (cites_of_ofTokens_eq h).of_note _ hnote (by simp [hspan])
    rw [Token.note_span_eq (mem_lex_of_mem_shown ht) hkind hmem hspan]
    exact exists_isShown_emptyAt (mem_lex_of_mem_shown ht)

/-- The error is on the second line, behind characters that have more bytes than columns. -/
theorem underlines_of_isFound_behind_description :
    ∃ e, Document.ofSource ⟨"a", "#\r\"é\" scalar A |"⟩ = .error e ∧
      e.span.snippet "#\r\"é\" scalar A |" = .ok (some "   |\n 2 | \"é\" scalar A |\n   |              ^\n") ∧
      ∃ before part after, e.span.Underlines "#\r\"é\" scalar A |" before part after := by
  have hread : Document.ofSource ⟨"a", "#\r\"é\" scalar A |"⟩ =
      .error ⟨"expected a type-system definition, found `|`", ⟨⟨1, 13, 13, 16⟩, ⟨1, 14, 14, 17⟩, some "a"⟩,
        .unexpectedToken ["a type-system definition"] "`|`", []⟩ := by
    decide +kernel
  obtain ⟨before, part, after, hshown⟩ := underlines_of_isFound (.sourceError hread)
  exact ⟨_, hread, by decide, before, part, after, hshown.underlines (by decide)⟩

end Span

/-! ### Far behind the start of a line -/

/-- The spaces that pad are so many characters. -/
theorem Text.toList_spaces (n : ℕ) : (spaces n).toList = List.replicate n ' ' := by
  have hrepeat : (Nat.repeat (fun s : String ↦ s.push ' ') n "").toList = List.replicate n ' ' := by
    induction n with
    | zero => rfl
    | succ n ih => rw [Nat.repeat, String.toList_push, ih, List.replicate_succ']
  exact hrepeat

/-- Behind spaces the column, the units and the offset are their number. -/
theorem Place.past_spaces (n : ℕ) : Place.origin.past (List.replicate n ' ') = ⟨⟨0, n, n, n⟩, false⟩ := by
  induction n with
  | zero => rfl
  | succ n ih =>
    rw [List.replicate_succ', Place.past_append, ih]
    rfl

/-- A text behind spaces has the tokens that it has by itself, moved along the line. -/
theorem Token.lex_spaces_append (n : ℕ) (text : String) :
    Token.lex (Text.spaces n ++ text) = Token.lexFrom ⟨⟨0, n, n, n⟩, false⟩ text.toList := by
  rw [Token.lex, String.toList_append, Text.toList_spaces, Token.lexFrom_gap_append, Place.past_spaces]
  intro c hc
  rw [List.eq_of_mem_replicate hc]
  decide

/-- A token behind so many spaces has no snippet. -/
theorem Span.snippet_breaks_off_behind_spaces :
    let text := Text.spaces 65536 ++ "\x7d"
    let span : Span := ⟨⟨0, 65536, 65536, 65536⟩, ⟨0, 65537, 65537, 65537⟩, none⟩
    span.IsFound text ∧ span.snippet text = .error .widthOutOfRange := by
  intro text span
  have hlex : ⟨.punctuator .braceClose, span⟩ ∈ Token.lex text := by
    rw [Token.lex_spaces_append]
    decide +kernel
  exact ⟨.token hlex, rfl⟩

end TypeSystem
