import TypeSystem.Proofs.Text.Width
import TypeSystem.Proofs.Token.Lexicon

/-!
# Tokens cover their text

`Token.Tiling` is what cutting a text into tokens leaves behind: separators, then the characters of a token,
again and again, and separators up to the end of the input. All that can be said about the spans of the
tokens follows from it by induction on the cuts: they are in bounds and in order, between characters, and
what they leave out are separators. So nothing of the text is lost, and the text can be put together again
from the tokens and the gaps between them (`lex_lossless`).
-/

namespace TypeSystem

open Text

/-! ### What a token is written as -/

namespace TokenKind

/-- The class of the lexemes that make tokens of this kind, if they are no errors. -/
def lexemeClass? : TokenKind → Option LexemeClass
  | punctuator p => some (.punctuator p)
  | name _ => some .name
  | int _ => some .int
  | float _ => some .float
  | string _ => some .string
  | blockString _ => some .blockString
  | comment _ => some .comment
  | endOfInput | invalid _ _ => none

/-- The text of a token. A comment keeps its number sign to itself, and a piece of text that is no token
could be any. -/
def written? : TokenKind → Option String
  | punctuator p => some p.text
  | name text | int text | float text | string text | blockString text => some text
  | comment text => some ("#" ++ text)
  | endOfInput => some ""
  | invalid _ _ => none

/-- A token of this kind may be written as `text`: it is the text that the token keeps, and it is one of
the texts of its class. -/
structure Writes (kind : TokenKind) (text : String) : Prop where
  eq_text : ∀ text' ∈ kind.written?, text = text'
  admits : ∀ cls ∈ kind.lexemeClass?, cls.Admits text.toList

end TokenKind

namespace Token

/-- The tokens of the text `cs`, which begins at `place`: separators and the characters of a token take
turns. -/
inductive Tiling : Place → List Char → List Token → Prop where
  | last {place : Place} {gap : List Char} (ignored : ∀ c ∈ gap, isIgnored c) :
      Tiling place gap [endAt (place.past gap).pos]
  | token {place : Place} {gap part back : List Char} {kind : TokenKind} {ts : List Token}
      (ignored : ∀ c ∈ gap, isIgnored c) (part_ne_nil : part ≠ []) (kind_ne : kind ≠ .endOfInput)
      (writes : kind.Writes (String.ofList part))
      (others : Tiling ((place.past gap).past part) back ts) :
      Tiling place (gap ++ part ++ back)
        (⟨kind, ⟨(place.past gap).pos, ((place.past gap).past part).pos, none⟩⟩ :: ts)

/-! ### Cutting off one token after another -/

/-- A text that holds separators only has no token but the end of the input. -/
theorem lexFrom_ignored {place : Place} {gap : List Char} (h : ∀ c ∈ gap, isIgnored c) :
    lexFrom place gap = [endAt (place.past gap).pos] := by
  have hnothing : ∀ c ∈ ([] : List Char).head?, ¬ isIgnored c := by simp
  have htake : gap.takeWhile isIgnored = gap := by
    simpa using Lexeme.takeWhile_append_of_head? h hnothing
  have hdrop : gap.dropWhile isIgnored = [] := by
    simpa using Lexeme.dropWhile_append_of_head? h hnothing
  rw [lexFrom, htake]
  split
  · rfl
  · next heq => rw [hdrop] at heq; cases heq

/-- Separators are passed, and then a lexeme is cut off. -/
theorem lexFrom_append {place : Place} {gap rest : List Char} {c : Char} (h : ∀ d ∈ gap, isIgnored d)
    (hc : ¬ isIgnored c) :
    lexFrom place (gap ++ c :: rest) =
      ⟨(Lexeme.scan c rest).tokenKind (place.past gap).pos,
        ⟨(place.past gap).pos, ((place.past gap).past (Lexeme.scan c rest).text).pos, none⟩⟩ ::
      lexFrom ((place.past gap).past (Lexeme.scan c rest).text) (Lexeme.scan c rest).rest := by
  have hhead : ∀ d ∈ (c :: rest).head?, ¬ isIgnored d := by
    rintro d ⟨⟩
    exact hc
  have htake := Lexeme.takeWhile_append_of_head? h hhead
  have hdrop := Lexeme.dropWhile_append_of_head? h hhead
  rw [lexFrom, htake]
  split
  · next heq => rw [hdrop] at heq; cases heq
  · next heq =>
    rw [hdrop] at heq
    cases heq
    rfl

/-- A property of texts and the places where they begin holds of all if it holds of separators, and of a
text that begins with a token whenever it holds of what follows the token. -/
theorem lex_induction {motive : Place → List Char → Prop}
    (last : ∀ place gap, (∀ c ∈ gap, isIgnored c) → motive place gap)
    (token : ∀ place gap c rest, (∀ d ∈ gap, isIgnored d) → ¬ isIgnored c →
      motive ((place.past gap).past (Lexeme.scan c rest).text) (Lexeme.scan c rest).rest →
      motive place (gap ++ c :: rest)) (place : Place) (cs : List Char) : motive place cs := by
  -- induction on the length of the text, which every lexeme shortens
  induction hlength : cs.length using Nat.strongRecOn generalizing place cs with
  | ind n ih =>
    have hsplit : cs.takeWhile isIgnored ++ cs.dropWhile isIgnored = cs :=
      List.takeWhile_append_dropWhile
    have hgap : ∀ d ∈ cs.takeWhile isIgnored, isIgnored d := Lexeme.of_mem_takeWhile
    cases hdrop : cs.dropWhile isIgnored with
    | nil =>
      rw [hdrop, List.append_nil] at hsplit
      rw [← hsplit]
      exact last _ _ hgap
    | cons c rest =>
      have hc : ¬ isIgnored c := Lexeme.of_mem_head?_dropWhile c (by rw [hdrop]; rfl)
      have hshorter := scan_rest_length_lt hdrop
      rw [hdrop] at hsplit
      rw [← hsplit]
      exact token _ _ _ _ hgap hc (ih _ (by omega) _ _ rfl)

/-- A lexeme is the text of the token it makes. -/
theorem writes_tokenKind {c : Char} {rest : List Char} (start : Position) :
    ((Lexeme.scan c rest).tokenKind start).Writes (String.ofList (Lexeme.scan c rest).text) := by
  have hsound := Lexeme.scan_sound c rest
  -- only what is sound about the lexeme matters, not how it was scanned
  generalize Lexeme.scan c rest = l at hsound ⊢
  obtain ⟨cls, cs, rest⟩ := l
  constructor
  · intro text htext
    cases cls with
    | punctuator p =>
      obtain rfl : cs = [p.char] := (hsound (by simp [LexemeClass.isInvalid])).1
      cases htext
      rfl
    | comment =>
      obtain ⟨body, rfl, -⟩ := (hsound (by simp [LexemeClass.isInvalid])).1
      cases htext
      show String.ofList (['#'] ++ body) = "#" ++ String.ofList body
      exact String.ofList_append
    | invalid fault => cases htext
    | _ =>
      cases htext
      rfl
  · intro cls' hcls'
    rw [String.toList_ofList]
    cases cls with
    | invalid fault => cases hcls'
    | _ =>
      cases hcls'
      exact (hsound (by simp [LexemeClass.isInvalid])).1

/-- What is scanned is never the end of the input. -/
theorem tokenKind_ne_endOfInput (l : Lexeme) (start : Position) : l.tokenKind start ≠ .endOfInput := by
  obtain ⟨cls, cs, rest⟩ := l
  cases cls <;> simp [Lexeme.tokenKind]

/-- Cutting a text into tokens covers it. -/
theorem tiling_lexFrom (place : Place) (cs : List Char) : Tiling place cs (lexFrom place cs) := by
  induction place, cs using lex_induction with
  | last place gap hgap =>
    rw [lexFrom_ignored hgap]
    exact .last hgap
  | token place gap c rest hgap hc ih =>
    rw [lexFrom_append hgap hc]
    have htiling := Tiling.token hgap (Lexeme.scan_text_ne_nil c rest)
      (tokenKind_ne_endOfInput _ _) (writes_tokenKind (place.past gap).pos) ih
    rwa [List.append_assoc, Lexeme.scan_append] at htiling

namespace Tiling

variable {place : Place} {cs : List Char} {ts : List Token}

/-! ### Where the spans are -/

/-- The end of the input comes last, at the end of the text, and nowhere else. -/
theorem exists_last (h : Tiling place cs ts) :
    ∃ others, ts = others ++ [endAt (place.past cs).pos] ∧ ∀ t ∈ others, t.kind ≠ .endOfInput := by
  induction h with
  | last ignored => exact ⟨[], rfl, by simp⟩
  | @token place gap part back kind ts ignored part_ne_nil kind_ne writes others ih =>
    obtain ⟨init, hts, hinit⟩ := ih
    refine ⟨⟨kind, ⟨(place.past gap).pos, ((place.past gap).past part).pos, none⟩⟩ :: init, ?_,
      List.forall_mem_cons.2 ⟨kind_ne, hinit⟩⟩
    rw [hts, Place.past_append, Place.past_append]
    rfl

/-- Every token covers a part of the text, and is written as that part. -/
theorem exists_part (h : Tiling place cs ts) {t : Token} (ht : t ∈ ts) :
    ∃ front part back, cs = front ++ part ++ back ∧
      t.span.start.offset = place.pos.offset + width front ∧
      t.span.stop.offset = place.pos.offset + width (front ++ part) ∧
      (t.kind ≠ .endOfInput → part ≠ []) ∧ t.kind.Writes (String.ofList part) := by
  induction h with
  | @last place gap ignored =>
    obtain rfl := List.mem_singleton.1 ht
    have hstop := Place.offset_past place gap
    refine ⟨gap, [], [], by simp, hstop, ?_, fun hkind ↦ absurd rfl hkind, ?_⟩
    · rw [List.append_nil]
      exact hstop
    · exact ⟨by rintro _ ⟨⟩; rfl, by rintro _ ⟨⟩⟩
  | @token place gap part back kind ts ignored part_ne_nil kind_ne writes others ih =>
    rcases List.mem_cons.1 ht with rfl | ht
    · refine ⟨gap, part, back, rfl, Place.offset_past place gap, ?_, fun _ ↦ part_ne_nil, writes⟩
      show ((place.past gap).past part).pos.offset = _
      rw [← Place.past_append, Place.offset_past]
    · obtain ⟨front, part', back', rfl, hstart, hstop, hne, hwrites⟩ := ih ht
      rw [← Place.past_append, Place.offset_past] at hstart hstop
      refine ⟨gap ++ part ++ front, part', back', by simp, ?_, ?_, hne, hwrites⟩
      · simp only [width_append] at hstart ⊢
        omega
      · simp only [width_append] at hstop ⊢
        omega

/-- Every token starts behind the place from which on they were scanned. -/
theorem start_le (h : Tiling place cs ts) {t : Token} (ht : t ∈ ts) :
    place.pos.offset ≤ t.span.start.offset := by
  obtain ⟨front, part, back, -, hstart, -⟩ := h.exists_part ht
  omega

/-- A token ends before the next one begins. -/
theorem pairwise (h : Tiling place cs ts) :
    ts.Pairwise fun t u ↦ t.span.stop.offset ≤ u.span.start.offset := by
  induction h with
  | last ignored => exact List.pairwise_singleton _ _
  | token ignored part_ne_nil kind_ne writes others ih =>
    exact List.pairwise_cons.2 ⟨fun u hu ↦ others.start_le hu, ih⟩

/-- A character of a text in two parts stands in one of them. -/
theorem cases_append_eq_append_cons {cs ds front back : List Char} {c : Char}
    (h : cs ++ ds = front ++ c :: back) :
    (∃ middle, cs = front ++ c :: middle) ∨ ∃ front', front = cs ++ front' ∧ ds = front' ++ c :: back := by
  rcases List.append_eq_append_iff.1 h with ⟨front', hfront, hds⟩ | ⟨middle, hcs, hback⟩
  · exact .inr ⟨front', hfront, hds⟩
  · cases middle with
    | nil => exact .inr ⟨[], by simpa using hcs.symm, by simpa using hback.symm⟩
    | cons d middle =>
      obtain ⟨rfl, -⟩ := List.cons.inj hback
      exact .inl ⟨middle, hcs⟩

/-- A character in no token is a separator. -/
theorem ignored_or_covered (h : Tiling place cs ts) {front back : List Char} {c : Char}
    (hcs : cs = front ++ c :: back) :
    isIgnored c ∨ ∃ t ∈ ts, t.span.start.offset ≤ place.pos.offset + width front ∧
      place.pos.offset + width front < t.span.stop.offset := by
  induction h generalizing front with
  | last ignored => exact .inl (ignored c (by rw [hcs]; simp))
  | @token place gap part back' kind ts ignored part_ne_nil kind_ne writes others ih =>
    have hstart := Place.offset_past place gap
    have hstop := Place.offset_past (place.past gap) part
    rw [List.append_assoc] at hcs
    -- the character stands in the gap, in the token, or behind it
    rcases cases_append_eq_append_cons hcs with ⟨middle, rfl⟩ | ⟨front', rfl, htail⟩
    · exact .inl (ignored c (by simp))
    rcases cases_append_eq_append_cons htail with ⟨middle, rfl⟩ | ⟨front'', rfl, hback⟩
    · have hc := c.utf8Size_pos
      refine .inr ⟨_, List.mem_cons_self, ?_⟩
      simp only [width_append, width_cons] at hstart hstop ⊢
      omega
    · rcases ih hback with hignored | ⟨t, ht, hle, hlt⟩
      · exact .inl hignored
      · refine .inr ⟨t, List.mem_cons_of_mem _ ht, ?_⟩
        simp only [width_append] at hle hlt ⊢
        omega

end Tiling

/-! ### The text put together again -/

/-- The parts of a text from an offset on that some tokens cover, with the gaps between them, as far as
the text can be cut there. -/
def rejoin (text : List Char) : Nat → List Token → Option (List Char)
  | _, [] => some []
  | offset, t :: ts => do
    let gap ← slice text offset t.span.start.offset
    let part ← slice text t.span.start.offset t.span.stop.offset
    let others ← rejoin text t.span.stop.offset ts
    return gap ++ part ++ others

/-- Putting a text together again takes the gap before the first token, the token, and then the others. -/
theorem rejoin_cons {text front gap part back : List Char} {t : Token} {ts : List Token}
    (htext : text = front ++ gap ++ part ++ back) (hstart : t.span.start.offset = width front + width gap)
    (hstop : t.span.stop.offset = width front + width gap + width part) :
    rejoin text (width front) (t :: ts) =
      (rejoin text t.span.stop.offset ts).map fun others ↦ gap ++ part ++ others := by
  have hgap : slice text (width front) t.span.start.offset = some gap := by
    rw [htext, hstart, List.append_assoc _ part]
    exact slice_append _ _ _
  have hpart : slice text t.span.start.offset t.span.stop.offset = some part := by
    rw [htext, hstart, hstop, ← width_append]
    exact slice_append _ _ _
  rw [rejoin, hgap]
  show (slice text _ _).bind _ = _
  rw [hpart]
  cases rejoin text t.span.stop.offset ts <;> rfl

/-- Tokens that tile a text give it back. -/
theorem Tiling.rejoin_eq {place : Place} {cs : List Char} {ts : List Token} (h : Tiling place cs ts)
    {text front : List Char} (htext : text = front ++ cs) (hfront : place.pos.offset = width front) :
    rejoin text (width front) ts = some cs := by
  induction h generalizing front with
  | @last place gap ignored =>
    have hstart := Place.offset_past place gap
    rw [hfront] at hstart
    have hsplit : text = front ++ gap ++ [] ++ [] := by simp [htext]
    rw [rejoin_cons hsplit hstart hstart]
    simp [rejoin]
  | @token place gap part back kind ts ignored part_ne_nil kind_ne writes others ih =>
    have hstart := Place.offset_past place gap
    have hstop := Place.offset_past (place.past gap) part
    rw [hfront] at hstart
    rw [hstart] at hstop
    have hsplit : text = front ++ gap ++ part ++ back := by simp [htext]
    have hothers := ih hsplit (by rw [hstop, width_append, width_append])
    rw [width_append, width_append, ← hstop] at hothers
    rw [rejoin_cons hsplit hstart hstop]
    show (rejoin text ((place.past gap).past part).pos.offset ts).map _ = _
    rw [hothers]
    rfl

end Token

/-! ### Tokens asked for one by one -/

namespace TokenSource

/-- The tokens that a source still gives. -/
def tokens (source : TokenSource) : List Token :=
  if source.finished then [] else Token.lexFrom source.place source.rest

/-- A source gives the first of its tokens and keeps the others. -/
theorem tokens_next (source : TokenSource) :
    source.next.1 = source.tokens.head? ∧ source.next.2.tokens = source.tokens.tail := by
  unfold next tokens
  by_cases hfinished : source.finished
  · simp [hfinished]
  · rw [if_neg hfinished, if_neg hfinished, Token.lexFrom]
    dsimp only
    split
    · next heq => split <;> simp_all
    · next heq => split <;> simp_all

/-- Asking so often gives the token with that number. -/
theorem ask_eq_getElem? (source : TokenSource) (n : Nat) : source.ask n = source.tokens[n]? := by
  induction n generalizing source with
  | zero => rw [ask, (tokens_next source).1, List.head?_eq_getElem?]
  | succ n ih => rw [ask, ih, (tokens_next source).2, List.getElem?_tail]

end TokenSource

namespace Token

/-! ### Nothing is lost -/

/-- Some tokens are all there is to a text. -/
structure Cover (text : String) (tokens : List Token) : Prop where
  /-- There is one end of the input. It comes last, and is the empty span at the end of the text. -/
  ends : ∃ others stop, tokens = others ++ [endAt stop] ∧ stop.offset = text.utf8ByteSize ∧
    ∀ t ∈ others, t.kind ≠ .endOfInput
  /-- Spans lie within the text, and begin and end between characters. -/
  in_bounds : ∀ t ∈ tokens, ∃ front part back, text.toList = front ++ part ++ back ∧
    t.span.start.offset = width front ∧ t.span.stop.offset = width (front ++ part)
  /-- Only the span of the end of the input is empty. -/
  nonempty : ∀ t ∈ tokens, t.kind ≠ .endOfInput → t.span.start.offset < t.span.stop.offset
  /-- Spans are in order and do not overlap. -/
  ordered : tokens.Pairwise fun t u ↦ t.span.stop.offset ≤ u.span.start.offset
  /-- A character outside the spans is a separator. -/
  separated : ∀ front c back, text.toList = front ++ c :: back →
    isIgnored c ∨ ∃ t ∈ tokens, t.span.start.offset ≤ width front ∧ width front < t.span.stop.offset
  /-- A token is written as the part of the text that it covers. -/
  written : ∀ t ∈ tokens, ∃ part, t.span.slice text = some part ∧ t.kind.Writes part
  /-- The gaps and the tokens are the text. -/
  rejoined : rejoin text.toList 0 tokens = some text.toList

/-- A tiling covers the text: it keeps the order, it leaves only ignored characters out, and every token is a
slice of the text. -/
theorem Tiling.cover {text : String} {tokens : List Token} (h : Tiling .origin text.toList tokens) :
    Cover text tokens where
  ends := by
    obtain ⟨others, htokens, hothers⟩ := h.exists_last
    refine ⟨others, _, htokens, ?_, hothers⟩
    rw [Place.offset_past, width_toList]
    exact Nat.zero_add _
  in_bounds t ht := by
    obtain ⟨front, part, back, htext, hstart, hstop, -⟩ := h.exists_part ht
    exact ⟨front, part, back, htext, hstart.trans (Nat.zero_add _), hstop.trans (Nat.zero_add _)⟩
  nonempty t ht hkind := by
    obtain ⟨front, part, back, -, hstart, hstop, hne, -⟩ := h.exists_part ht
    have hpos := width_pos (hne hkind)
    rw [width_append] at hstop
    omega
  ordered := h.pairwise
  separated front c back htext := by
    have hcovered := h.ignored_or_covered htext
    rwa [show (Place.origin.pos.offset + width front) = width front from Nat.zero_add _] at hcovered
  written t ht := by
    obtain ⟨front, part, back, htext, hstart, hstop, -, hwrites⟩ := h.exists_part ht
    rw [width_append] at hstop
    exact ⟨_, Span.slice_eq_some htext (hstart.trans (Nat.zero_add _)) (hstop.trans (Nat.zero_add _)),
      hwrites⟩
  rejoined := h.rejoin_eq (List.nil_append text.toList).symm rfl

/-- **Nothing of a text is lost.** Asked for one token after another, a source gives the finitely many
tokens of its text and then nothing any more, and the tokens are all there is to the text. -/
theorem lex_lossless (text : String) :
    (∀ n, (TokenSource.ofText text).ask n = (lex text)[n]?) ∧ Cover text (lex text) :=
  ⟨TokenSource.ask_eq_getElem? (.ofText text), (tiling_lexFrom .origin text.toList).cover⟩

end Token

end TypeSystem
