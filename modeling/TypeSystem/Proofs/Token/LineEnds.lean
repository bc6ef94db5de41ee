import TypeSystem.Proofs.Syntax.Likeness
import TypeSystem.Proofs.Text.LineEnds
import TypeSystem.Proofs.Token.Places

/-!
# Tokens and line ends

With line ends of one kind a text is cut into the same tokens (`Token.lex_unified`). Between tokens a line end
separates, whatever kind it is of; it ends a comment and cuts a string short, and is in neither of them; and only
in a block string is it a part of the token, which then has line ends of one kind too.

So a lexeme of the one text is a lexeme of the other (`Lexeme.scan_unified`), and only block strings, closed or
open, are written in another way (`Lexeme.notMem_return_scan`).
-/

namespace TypeSystem

open Text

/-! ### Lexemes -/

namespace Lexeme

variable {c : Char} {cs rest : List Char}

/-- The lexeme with line ends of one kind in it and behind it. -/
def unified (l : Lexeme) : Lexeme := ⟨l.cls, Text.unified l.text, Text.unified l.rest⟩

/-- A run of one class is scanned in the unified text as the unified run. -/
theorem run_unified (cls : LexemeClass) {p : Char → Bool} (hp : p '\r' = p '\n') (cs : List Char) :
    run cls p (Text.unified cs) = (run cls p cs).unified := by
  rw [run, takeWhile_unified hp, dropWhile_unified hp]
  rfl

/-- A character in front that is no carriage return stays. -/
theorem cons_unified (hc : c ≠ '\r') (l : Lexeme) : l.unified.cons c = (l.cons c).unified := by
  rw [cons, unified, unified, cons, unified_cons hc]

/-! ### Numbers -/

/-- What remains of a text has line ends of one kind. -/
def restUnified (front : List Char × List Char) : List Char × List Char := (front.1, Text.unified front.2)

/-- A class with both line ends or neither has the next character of the unified text just if it has that of
the text. -/
theorem any_head?_unified {p : Char → Bool} (hp : p '\r' = p '\n') (cs : List Char) :
    (Text.unified cs).head?.any p = cs.head?.any p := by
  rcases unified_cases cs with rfl | ⟨ds, es, rfl, hcs⟩ | ⟨c, ds, -, rfl, hcs⟩
  · rfl
  · rw [hcs]
    exact hp.symm
  · rw [hcs]
    rfl

theorem digits_unified (cs : List Char) : digits (Text.unified cs) = restUnified (digits cs) := by
  rw [digits, takeWhile_unified rfl, dropWhile_unified rfl, unified_eq_self (notMem_takeWhile rfl cs)]
  rfl

theorem fraction_unified (cs : List Char) : fraction (Text.unified cs) = restUnified (fraction cs) := by
  rcases unified_cases cs with rfl | ⟨ds, es, rfl, hcs⟩ | ⟨c, ds, -, rfl, hcs⟩
  · rfl
  · rw [hcs, restUnified, fraction, fraction, hcs]
    · rintro rest ⟨⟩
    · rintro rest ⟨⟩
  · by_cases hc : c = '.'
    · subst hc
      rw [hcs, fraction, fraction, digits_unified, restUnified, restUnified]
      dsimp only
      split
      · rw [hcs]
      · rfl
    · rw [hcs, restUnified, fraction, fraction, hcs]
      · rintro rest ⟨⟩
        exact hc rfl
      · rintro rest ⟨⟩
        exact hc rfl

theorem exponentSign_unified (cs : List Char) :
    exponentSign (Text.unified cs) = restUnified (exponentSign cs) := by
  rcases unified_cases cs with rfl | ⟨ds, es, rfl, hcs⟩ | ⟨c, ds, -, rfl, hcs⟩
  · rfl
  · rw [hcs, restUnified]
    exact congrArg (Prod.mk []) hcs.symm
  · rw [hcs, exponentSign, exponentSign]
    split
    · rfl
    · exact congrArg (Prod.mk []) hcs.symm

theorem exponent?_unified (cs : List Char) :
    exponent? (Text.unified cs) = (exponent? cs).map restUnified := by
  rcases unified_cases cs with rfl | ⟨ds, es, rfl, hcs⟩ | ⟨c, ds, -, rfl, hcs⟩
  · rfl
  · rw [hcs]
    exact congrArg (fun back ↦ some ([], back)) hcs.symm
  · rw [hcs, exponent?, exponent?, exponentSign_unified]
    split
    · rw [restUnified]
      dsimp only
      rw [digits_unified, restUnified]
      split <;> rfl
    · exact congrArg (fun back ↦ some ([], back)) hcs.symm

theorem wholePart_unified (cs : List Char) :
    wholePart (Text.unified cs) = (wholePart cs).map restUnified := by
  rcases unified_cases cs with rfl | ⟨ds, es, rfl, hcs⟩ | ⟨c, ds, -, rfl, hcs⟩
  · rfl
  · rw [hcs]
    rfl
  · by_cases hc : c = '0'
    · subst hc
      rw [hcs, wholePart, wholePart, any_head?_unified rfl]
      split <;> rfl
    · have hzero : ∀ back rest, c :: back = '0' :: rest → False := by
        rintro back rest ⟨⟩
        exact hc rfl
      rw [hcs, wholePart, wholePart, ← hcs, digits_unified, restUnified]
      · dsimp only
        split <;> rfl
      · exact hzero _
      · exact hzero _

theorem runsOn_unified (cs : List Char) : runsOn (Text.unified cs) = runsOn cs := by
  rcases unified_cases cs with rfl | ⟨ds, es, rfl, hcs⟩ | ⟨c, ds, -, rfl, hcs⟩
  · rfl
  · rw [hcs]
    rfl
  · rw [hcs]
    rfl

theorem minusSign_unified (cs : List Char) : minusSign (Text.unified cs) = restUnified (minusSign cs) := by
  rcases unified_cases cs with rfl | ⟨ds, es, rfl, hcs⟩ | ⟨c, ds, -, rfl, hcs⟩
  · rfl
  · rw [restUnified, hcs]
    exact congrArg (Prod.mk []) hcs.symm
  · by_cases hc : c = '-'
    · subst hc
      rw [hcs]
      rfl
    · rw [hcs, restUnified, minusSign, minusSign, hcs]
      · rintro rest ⟨⟩
        exact hc rfl
      · rintro rest ⟨⟩
        exact hc rfl

theorem unsigned_unified (cs : List Char) : unsigned (Text.unified cs) =
    (unsigned cs).map fun l ↦ { l with rest := Text.unified l.rest } := by
  rw [unsigned, unsigned, wholePart_unified]
  cases wholePart cs with
  | error fault => rfl
  | ok front =>
    obtain ⟨whole, afterWhole⟩ := front
    dsimp only [Except.map, restUnified]
    rw [fraction_unified, restUnified]
    dsimp only
    rw [exponent?_unified]
    cases exponent? (fraction afterWhole).2 with
    | none => rfl
    | some back =>
      dsimp only [Option.map, restUnified]
      rw [runsOn_unified]
      split
      · rfl
      · split <;> rfl

/-- Numbers have no line ends in them, so only what follows differs. -/
theorem number_unified (cs : List Char) :
    number (Text.unified cs) = { number cs with rest := Text.unified (number cs).rest } := by
  rw [number, number, minusSign_unified]
  dsimp only [restUnified]
  rw [unsigned_unified]
  cases unsigned (minusSign cs).2 with
  | ok l => rfl
  | error fault =>
    cases fault
    case loneMinus => rfl
    all_goals
      refine (run_unified _ rfl cs).trans ?_
      rw [unified, run, unified_eq_self (notMem_takeWhile rfl cs)]
      rfl

/-- The same characters are read from a text without carriage returns. -/
theorem notMem_return_number (cs : List Char) : '\r' ∉ (number cs).text := by
  have happend := number_append (Text.unified cs)
  rw [number_unified] at happend
  exact fun hmem ↦ notMem_unified cs (happend ▸ List.mem_append_left _ hmem)

/-! ### Strings -/

/-- A string ends before a line end, of either kind. -/
theorem stringBody_unified (cs : List Char) : stringBody (Text.unified cs) = (stringBody cs).unified := by
  fun_induction stringBody cs with
  | case1 => rfl
  | case2 rest =>
    rw [unified_cons (by decide), stringBody]
    rfl
  | case3 c rest hc =>
    obtain ⟨ds, hds⟩ := exists_unified_of_isLineEnd hc rest
    rw [unified_cons (by decide), hds, stringBody, if_pos (by decide), unified, hds]
    rfl
  | case4 c rest hc ih =>
    -- an escaped line end is the case before this one
    have hreturn : c ≠ '\r' := by
      rintro rfl
      exact hc rfl
    rw [unified_cons (by decide), unified_cons hreturn, stringBody, if_neg hc, ih, cons_unified hreturn,
      cons_unified (by decide)]
  | case5 c rest hquote hescape hc =>
    obtain ⟨ds, hds⟩ := exists_unified_of_isLineEnd hc rest
    rw [hds, stringBody, if_pos (by decide), unified, hds]
    · rfl
    · rintro ⟨⟩
    · rintro d es ⟨⟩
  | case6 c rest hquote hescape hc ih =>
    have hreturn : c ≠ '\r' := by
      rintro rfl
      exact hc rfl
    rw [unified_cons hreturn, stringBody, if_neg hc, ih, cons_unified hreturn]
    · exact hquote
    · rintro d es rfl hrest
      cases rest with
      | nil => cases hrest
      | cons d rest => exact hescape d rest rfl rfl

/-- No string has a carriage return in it. -/
theorem notMem_return_stringBody (cs : List Char) : '\r' ∉ (stringBody cs).text := by
  fun_induction stringBody cs with
  | case1 | case2 | case3 | case5 => simp
  | case4 c rest hc ih | case6 c rest _ _ hc ih =>
    have hreturn : c ≠ '\r' := by
      rintro rfl
      exact hc rfl
    simp [cons, hreturn.symm, ih]

/-- A character that is neither a quote nor a backslash is part of a block string. -/
theorem blockStringBody_cons (hquote : c ≠ '"') (hescape : c ≠ '\\') (cs : List Char) :
    blockStringBody (c :: cs) = (blockStringBody cs).cons c := by
  rw [blockStringBody]
  · exact fun _ hc _ ↦ hescape hc
  · exact fun _ hc _ ↦ hquote hc

theorem head?_text_blockStringBody (h : cs.head? ≠ some c) : (blockStringBody cs).text.head? ≠ some c := by
  intro htext
  obtain ⟨tail, htail⟩ := List.head?_eq_some_iff.1 htext
  refine h ?_
  rw [← blockStringBody_append cs, htail]
  rfl

/-- A block string has line ends in it, and in the unified text it is the unified one. The induction takes a
carriage return and its line feed together. -/
theorem blockStringBody_unified (cs : List Char) :
    blockStringBody (Text.unified cs) = (blockStringBody cs).unified := by
  fun_induction blockStringBody cs with
  | case1 => rfl
  | case2 rest ih =>
    rw [unified_cons (by decide), unified_cons (by decide), unified_cons (by decide), unified_cons (by decide),
      blockStringBody, ih, cons_unified (by decide), cons_unified (by decide), cons_unified (by decide),
      cons_unified (by decide)]
  | case3 rest =>
    rw [unified_cons (by decide), unified_cons (by decide), unified_cons (by decide), blockStringBody]
    rfl
  | case4 c rest hescape hclose ih =>
    by_cases hc : c = '\r'
    · subst hc
      by_cases hhead : rest.head? = some '\n'
      · -- the line feed behind is there in both texts, and stands for the two
        obtain ⟨rest, rfl⟩ := List.head?_eq_some_iff.1 hhead
        rw [unified_return_feed, ← unified_cons (by decide), ih, blockStringBody_cons (by decide) (by decide)]
        simp only [unified, cons, unified_return_feed, unified_cons (show '\n' ≠ '\r' by decide)]
      · rw [unified_return hhead, blockStringBody_cons (by decide) (by decide), ih, unified, unified, cons, cons,
          unified_return (head?_text_blockStringBody hhead)]
    · rw [unified_cons hc, blockStringBody, ih, cons_unified hc]
      · rintro es rfl hrest
        obtain ⟨ds, hds, -⟩ := exists_append_of_unified (by decide)
          (show Text.unified rest = ['"', '"', '"'] ++ es from hrest)
        exact hescape ds rfl hds
      · rintro es rfl hrest
        obtain ⟨ds, hds, -⟩ := exists_append_of_unified (by decide)
          (show Text.unified rest = ['"', '"'] ++ es from hrest)
        exact hclose ds rfl hds

/-- Strings and block strings are told apart by quotes, which stay. -/
theorem quote_unified (rest : List Char) : quote (Text.unified rest) = (quote rest).unified := by
  rw [quote.eq_def rest]
  split
  · next body =>
    rw [unified_cons (by decide), unified_cons (by decide), quote, blockStringBody_unified,
      cons_unified (by decide), cons_unified (by decide), cons_unified (by decide)]
  · next hopen =>
    rw [quote, stringBody_unified, cons_unified (by decide)]
    intro body hbody
    obtain ⟨ds, hds, -⟩ := exists_append_of_unified (by decide) (show Text.unified rest = ['"', '"'] ++ body from hbody)
    exact hopen ds hds

/-! ### Any lexeme -/

/-- **Scanning commutes with unifying line ends.** -/
theorem scan_unified (hc : ¬ isIgnored c) (rest : List Char) :
    scan c (Text.unified rest) = (scan c rest).unified := by
  have hreturn : c ≠ '\r' := by
    rintro rfl
    exact hc rfl
  rw [scan, scan]
  split
  · rw [unified, unified_eq_self (show '\r' ∉ [c] by simpa using hreturn.symm)]
  · split
    · rw [run_unified _ rfl, cons_unified hreturn]
    · split
      · exact quote_unified rest
      · split
        · rw [run_unified _ rfl, cons_unified hreturn]
        · split
          · rw [← unified_cons hreturn, number_unified, unified, unified_eq_self (notMem_return_number _)]
          · rw [unified, unified_eq_self (show '\r' ∉ [c] by simpa using hreturn.symm)]

/-- A lexeme that begins with triple quotes is a block string, or one that stays open. -/
theorem scan_tripleQuote (body : List Char) :
    ∃ cs, (scan '"' ('"' :: '"' :: body)).text = '"' :: '"' :: '"' :: cs ∧
      ((scan '"' ('"' :: '"' :: body)).cls = .blockString ∨
        (scan '"' ('"' :: '"' :: body)).cls = .invalid .openBlockString) := by
  refine ⟨_, rfl, ?_⟩
  show (blockStringBody body).cls = _ ∨ (blockStringBody body).cls = _
  fun_induction blockStringBody body with
  | case1 => exact .inr rfl
  | case2 _ ih | case4 _ _ _ _ ih => exact ih
  | case3 => exact .inl rfl

/-- Only strings between triple quotes have carriage returns in them. -/
theorem notMem_return_scan (hc : ¬ isIgnored c) (hblock : ¬ ∃ body, c = '"' ∧ rest = '"' :: '"' :: body) :
    '\r' ∉ (scan c rest).text := by
  have hreturn : c ≠ '\r' := by
    rintro rfl
    exact hc rfl
  rw [scan]
  split
  · simpa using hreturn.symm
  · split
    · simpa [run, cons, hreturn.symm] using notMem_takeWhile rfl rest
    · split
      · next hquote =>
        rw [quote]
        · simpa [cons] using notMem_return_stringBody rest
        · rintro body rfl
          exact hblock ⟨body, hquote, rfl⟩
      · split
        · simpa [run, cons, hreturn.symm] using notMem_takeWhile rfl rest
        · split
          · exact notMem_return_number _
          · simpa using hreturn.symm

end Lexeme

/-! ### Tokens -/

/-- A lexeme with line ends of one kind in it, if it begins with triple quotes. -/
def unifiedLexeme (text : String) : String :=
  if ['"', '"', '"'] <+: text.toList then String.ofList (Text.unified text.toList) else text

/-- The same but for byte offsets, and for the line ends in block strings. -/
def Likeness.lineEnds : Likeness where
  place := Position.SameButOffset
  lexeme a b := b = unifiedLexeme a

/-- A lexeme without carriage returns stays as it is. -/
theorem unifiedLexeme_eq_self (h : '\r' ∉ cs) : String.ofList cs = unifiedLexeme (String.ofList cs) := by
  rw [unifiedLexeme, String.toList_ofList, unified_eq_self h, ite_self]

/-- A block string is unified from its first quote on. -/
theorem unifiedLexeme_tripleQuote (cs : List Char) : String.ofList (Text.unified ('"' :: '"' :: '"' :: cs)) =
    unifiedLexeme (String.ofList ('"' :: '"' :: '"' :: cs)) := by
  rw [unifiedLexeme, String.toList_ofList, if_pos (by simp)]

namespace LexicalFault

/-- The notes of a fault are at its place, whatever the offset of that is. -/
theorem notes_alike (fault : LexicalFault) {p q : Position} (h : p.SameButOffset q) :
    List.Forall₂ (Note.Alike .lineEnds) (fault.notes p) (fault.notes q) := by
  cases fault with
  | loneMinus | strayCharacter => exact .nil
  | leadingZero | numberTail | emptyExponent => exact .cons ⟨rfl, rfl, .none⟩ .nil
  | openString | openBlockString =>
    exact .cons ⟨rfl, rfl, .some ⟨h, h, rfl⟩⟩ (.cons ⟨rfl, rfl, .none⟩ .nil)
  | brokenString => exact .cons ⟨rfl, rfl, .none⟩ (.cons ⟨rfl, rfl, .none⟩ .nil)

end LexicalFault

namespace Token

/-- The lexeme at the front of a text makes a token like that made of the lexeme at the front of the text with
line ends of one kind. -/
theorem tokenKind_alike {p q : Position} (h : p.SameButOffset q) (hc : ¬ isIgnored c) (rest : List Char) :
    ((Lexeme.scan c rest).tokenKind p).Alike .lineEnds ((Lexeme.scan c (Text.unified rest)).tokenKind q) := by
  rw [Lexeme.scan_unified hc]
  by_cases hblock : ∃ body, c = '"' ∧ rest = '"' :: '"' :: body
  · obtain ⟨body, rfl, rfl⟩ := hblock
    obtain ⟨cs, htext, hcls⟩ := Lexeme.scan_tripleQuote body
    generalize Lexeme.scan '"' ('"' :: '"' :: body) = l at htext hcls ⊢
    obtain ⟨cls, text, rest⟩ := l
    obtain rfl := htext
    rcases hcls with rfl | rfl
    · exact .blockString (unifiedLexeme_tripleQuote cs)
    · exact .invalid _ (LexicalFault.notes_alike _ h)
  · have htext := Lexeme.notMem_return_scan hc hblock
    generalize Lexeme.scan c rest = l at htext ⊢
    obtain ⟨cls, text, rest⟩ := l
    rw [Lexeme.unified, unified_eq_self htext]
    cases cls with
    | punctuator p => exact .punctuator p
    | name => exact .name (unifiedLexeme_eq_self htext)
    | int => exact .int (unifiedLexeme_eq_self htext)
    | float => exact .float (unifiedLexeme_eq_self htext)
    | string => exact .string (unifiedLexeme_eq_self htext)
    | blockString => exact .blockString (unifiedLexeme_eq_self htext)
    | comment => exact .comment (unifiedLexeme_eq_self fun hmem ↦ htext (List.mem_of_mem_tail hmem))
    | invalid fault => exact .invalid _ (LexicalFault.notes_alike fault h)

/-- No lexeme ends within a line end. -/
theorem clear_past_scan (p : Place) (hc : ¬ isIgnored c) :
    (p.past (Lexeme.scan c rest).text).Clear (Lexeme.scan c rest).rest := by
  have happend := Lexeme.scan_append c (Text.unified rest)
  have hreturn : c ≠ '\r' := by
    rintro rfl
    exact hc rfl
  rw [← unified_cons hreturn, ← Lexeme.scan_append c rest, Lexeme.scan_unified hc] at happend
  exact fun hafter ↦ unified_append_iff.1 happend.symm
    (Place.getLast?_of_afterReturn (Lexeme.scan_text_ne_nil c rest) hafter)

/-- A text and the text with line ends of one kind are cut into tokens that are alike. -/
theorem lexFrom_unified {p q : Place} {cs : List Char} (hpos : p.pos.SameButOffset q.pos)
    (hq : q.afterReturn = false) (hclear : p.Clear cs) :
    List.Forall₂ (Token.Alike .lineEnds) (lexFrom p cs) (lexFrom q (Text.unified cs)) := by
  induction p, cs using lex_induction generalizing q with
  | last place gap hgap =>
    obtain ⟨hend, -⟩ := Place.past_unified hpos hq hclear
    rw [lexFrom_ignored hgap, lexFrom_ignored (forall_mem_unified rfl hgap)]
    exact .cons ⟨.endOfInput, ⟨hend, hend, rfl⟩⟩ .nil
  | token place gap c rest hgap hc ih =>
    have hreturn : c ≠ '\r' := by
      rintro rfl
      exact hc rfl
    have hfeed : c ≠ '\n' := by
      rintro rfl
      exact hc rfl
    -- the gap may have line ends in it, the token too; both leave the places alike
    obtain ⟨hstart, hq⟩ := Place.past_unified hpos hq hclear.left
    have htext : (place.past gap).Clear (Lexeme.scan c rest).text := by
      have hwhole : (place.past gap).Clear (c :: rest) := clear_of_not_ignored hc
      rw [← Lexeme.scan_append c rest] at hwhole
      exact hwhole.left
    obtain ⟨hstop, hq⟩ := Place.past_unified hstart hq htext
    rw [unified_append (by simp [hfeed]), unified_cons hreturn, lexFrom_append hgap hc,
      lexFrom_append (forall_mem_unified rfl hgap) hc]
    refine .cons ⟨tokenKind_alike hstart hc rest, ⟨hstart, ?_, rfl⟩⟩ ?_
    · rw [Lexeme.scan_unified hc]
      exact hstop
    · rw [Lexeme.scan_unified hc]
      exact ih hstop hq (clear_past_scan _ hc)

/-- With line ends of one kind a text has the same tokens, but for byte offsets and for the line ends in block
strings. -/
theorem lex_unified (text : String) :
    List.Forall₂ (Token.Alike .lineEnds) (lex text) (lex (String.ofList (Text.unified text.toList))) := by
  rw [lex, lex, String.toList_ofList]
  exact lexFrom_unified ⟨rfl, rfl, rfl⟩ rfl (by simp [Place.Clear, Place.origin])

end Token

end TypeSystem
