import Mathlib.Data.List.Infix
import TypeSystem.Proofs.Token.Parts

/-!
# Texts that spell tokens

The lexicon says which texts are tokens and what may stand behind each. `Token.Spells` puts them together:
separators and well-formed tokens take turns, and every token ends where it may. This describes, without
scanning anything, the texts that are cut into tokens without an error, and what they are cut into
(`spells_iff`). A part of a text is described in the same way, once it is known which character comes next,
and whatever that begins, the part is cut into the same tokens (`Spells.lexFrom_append`).

A separator behind a token is always enough, if it is the end of the line behind a comment. So well-formed
tokens may be written down one after another in any order, with separators between them, and are read back as
they were written (`lex_exact`).
-/

namespace TypeSystem

open Text

/-! ### Well-formed tokens -/

namespace TokenKind

/-- The characters that a token is written as, if it is no error. -/
def chars (kind : TokenKind) : List Char :=
  (kind.written?.getD "").toList

/-- A token whose characters are a text of its class. An error is none, and neither is the end of the
input. -/
def IsWellFormed (kind : TokenKind) : Prop :=
  ∃ cls ∈ kind.lexemeClass?, cls.Admits kind.chars

/-- A well-formed token is no fault. -/
theorem IsWellFormed.isValid {kind : TokenKind} (h : kind.IsWellFormed) : kind.IsValid := by
  obtain ⟨cls, hcls, -⟩ := h
  cases kind with
  | invalid message notes => cases hcls
  | _ => exact fun hsort ↦ by cases hsort

/-- What is written as one of the texts of its class is well formed. -/
theorem Writes.isWellFormed {kind : TokenKind} {cs : List Char} (h : kind.Writes (String.ofList cs))
    (hvalid : kind.IsValid) (hend : kind ≠ .endOfInput) : kind.IsWellFormed ∧ kind.chars = cs := by
  obtain ⟨heq, hadmits⟩ := h
  have hwritten (text : String) (htext : kind.written? = some text) : kind.chars = cs := by
    rw [chars, htext, Option.getD_some, ← heq text htext, String.toList_ofList]
  have hboth (cls : LexemeClass) (text : String) (hcls : kind.lexemeClass? = some cls)
      (htext : kind.written? = some text) : kind.IsWellFormed ∧ kind.chars = cs := by
    have hadmitted := hadmits cls hcls
    rw [String.toList_ofList, ← hwritten text htext] at hadmitted
    exact ⟨⟨cls, hcls, hadmitted⟩, hwritten text htext⟩
  cases kind with
  | endOfInput => exact absurd rfl hend
  | invalid message notes => exact absurd rfl hvalid
  | _ => exact hboth _ _ rfl rfl

end TokenKind

namespace LexemeClass

/-- The classes of well-formed tokens are those of scans that succeed. -/
theorem not_isInvalid_of_mem {kind : TokenKind} {cls : LexemeClass} (h : cls ∈ kind.lexemeClass?) :
    ¬ cls.isInvalid := by
  cases kind <;> cases h <;> exact Bool.false_ne_true

theorem not_isIgnored_of_isNameStart {c : Char} (hc : isNameStart c) : ¬ isIgnored c := by
  intro hignored
  simp only [isIgnored, Bool.or_eq_true, decide_eq_true_eq] at hignored
  rcases hignored with ((((rfl | rfl) | rfl) | rfl) | rfl) | rfl <;> exact absurd hc (by decide)

/-- No separator begins a token. -/
theorem exists_head_of_admits {cls : LexemeClass} {cs : List Char} (hcls : ¬ cls.isInvalid)
    (h : cls.Admits cs) : ∃ c tail, cs = c :: tail ∧ ¬ isIgnored c := by
  -- a number begins with its sign or with a digit, and both kinds of numbers begin alike
  have hnumber {sign whole tail : List Char} (hsign : IsOptional (· = '-') sign) (hwhole : IsWholePart whole) :
      ∃ c cs, sign ++ (whole ++ tail) = c :: cs ∧ ¬ isIgnored c := by
    obtain ⟨d, hd, -⟩ := Lexeme.head?_of_isWholePart hwhole tail
    have hne : sign ++ (whole ++ tail) ≠ [] := by
      intro hnil
      rw [(List.append_eq_nil_iff.1 hnil).2] at hd
      cases hd
    obtain ⟨c, cs, heq⟩ := List.exists_cons_of_ne_nil hne
    refine ⟨c, cs, heq, fun hignored ↦ ?_⟩
    simp only [isIgnored, Bool.or_eq_true, decide_eq_true_eq] at hignored
    rcases Lexeme.head_of_number hsign hwhole heq.symm with rfl | hdigit
    · exact absurd hignored (by decide)
    · rcases hignored with ((((rfl | rfl) | rfl) | rfl) | rfl) | rfl <;> exact absurd hdigit (by decide)
  cases cls with
  | punctuator p => exact ⟨p.char, [], h, by cases p <;> decide⟩
  | name =>
    obtain ⟨c, ds, rfl, hc, -⟩ := h
    exact ⟨c, ds, rfl, not_isIgnored_of_isNameStart hc⟩
  | int =>
    obtain ⟨sign, whole, rfl, hsign, hwhole⟩ := h
    have hne := @hnumber sign whole [] hsign hwhole
    rwa [List.append_nil] at hne
  | float =>
    obtain ⟨sign, whole, frac, exp, rfl, hsign, hwhole, -⟩ := h
    rw [List.append_assoc whole]
    exact hnumber hsign hwhole
  | string =>
    obtain ⟨body, rfl, -⟩ := h
    exact ⟨'"', body, rfl, by decide⟩
  | blockString =>
    obtain ⟨body, rfl, -⟩ := h
    exact ⟨'"', _, rfl, by decide⟩
  | comment =>
    obtain ⟨body, rfl, -⟩ := h
    exact ⟨'#', body, rfl, by decide⟩
  | invalid fault => exact absurd rfl hcls

/-- Any text may end before a separator, a comment before the end of its line only. -/
theorem endsBefore_ignored (cls : LexemeClass) (cs : List Char) {c : Char} (hc : isIgnored c)
    (hcomment : cls = .comment → isLineEnd c) : cls.EndsBefore cs (some c) := by
  by_cases hline : isLineEnd c
  · exact endsBefore_lineEnd cls cs hline
  · have hchar : c = ' ' ∨ c = '\t' ∨ c = ',' ∨ c = '\uFEFF' := by
      simp only [isIgnored, isLineEnd, Bool.or_eq_true, decide_eq_true_eq] at hc hline
      tauto
    cases cls with
    | comment => exact absurd (hcomment rfl) hline
    | _ =>
      rcases hchar with rfl | rfl | rfl | rfl <;>
        simp [EndsBefore, isNameContinue, isNameStart, isLetter, isDigit]

end LexemeClass

namespace Lexeme

/-- The lexeme of a well-formed token makes the token. -/
theorem tokenKind_of_mem_lexemeClass? {kind : TokenKind} {cls : LexemeClass} (h : cls ∈ kind.lexemeClass?)
    (rest : List Char) (start : Position) : tokenKind ⟨cls, kind.chars, rest⟩ start = kind := by
  cases kind with
  | endOfInput => cases h
  | invalid message notes => cases h
  | comment text =>
    cases h
    show TokenKind.comment (String.ofList ("#" ++ text).toList.tail) = .comment text
    rw [String.toList_append]
    exact congrArg TokenKind.comment String.ofList_toList
  | punctuator p =>
    cases h
    rfl
  | name text | int text | float text | string text | blockString text =>
    cases h
    simp [tokenKind, TokenKind.chars, TokenKind.written?]

end Lexeme

namespace Token

/-! ### Spelling -/

/-- A text in which tokens of these kinds are written one after another, up to the character `next` or the
end of the input. Separators may stand before each and behind the last, and must stand between two that
would not end otherwise. -/
inductive Spells (next : Option Char) : List Char → List TokenKind → Prop where
  | last {gap : List Char} (ignored : ∀ c ∈ gap, isIgnored c) : Spells next gap []
  | token {gap back : List Char} {kind : TokenKind} {kinds : List TokenKind}
      (ignored : ∀ c ∈ gap, isIgnored c) (well_formed : kind.IsWellFormed)
      (ends : ∀ cls ∈ kind.lexemeClass?, cls.EndsBefore kind.chars (back.head?.or next))
      (others : Spells next back kinds) : Spells next (gap ++ (kind.chars ++ back)) (kind :: kinds)

/-- A well-formed token is cut off where it may end. -/
theorem lexFrom_spelled {place : Place} {gap back : List Char} {kind : TokenKind}
    (hgap : ∀ c ∈ gap, isIgnored c) (hkind : kind.IsWellFormed)
    (hends : ∀ cls ∈ kind.lexemeClass?, cls.EndsBefore kind.chars back.head?) :
    lexFrom place (gap ++ (kind.chars ++ back)) =
      ⟨kind, ⟨(place.past gap).pos, ((place.past gap).past kind.chars).pos, none⟩⟩ ::
        lexFrom ((place.past gap).past kind.chars) back := by
  obtain ⟨cls, hcls, hadmits⟩ := hkind
  have hvalid := LexemeClass.not_isInvalid_of_mem hcls
  obtain ⟨c, tail, hchars, hc⟩ := LexemeClass.exists_head_of_admits hvalid hadmits
  have hscan : Lexeme.scan c (tail ++ back) = ⟨cls, kind.chars, back⟩ := by
    rw [hchars] at hadmits ⊢
    exact Lexeme.scan_complete hvalid hadmits (hchars ▸ hends cls hcls)
  have htoken : lexFrom place (gap ++ c :: (tail ++ back)) = _ := lexFrom_append hgap hc
  rw [hscan, Lexeme.tokenKind_of_mem_lexemeClass? hcls] at htoken
  rwa [hchars, List.cons_append, ← hchars]

/-- A part of a text is cut into the tokens that it spells, and then the rest of the text is cut. -/
theorem Spells.lexFrom_append {cs rest : List Char} {kinds : List TokenKind}
    (h : Spells rest.head? cs kinds) (place : Place) :
    ∃ ts, ts.map kind = kinds ∧ lexFrom place (cs ++ rest) = ts ++ lexFrom (place.past cs) rest := by
  induction h generalizing place with
  | last ignored => exact ⟨[], rfl, lexFrom_gap_append ignored rest⟩
  | @token gap back kind kinds ignored well_formed ends others ih =>
    obtain ⟨ts, hts, hrest⟩ := ih ((place.past gap).past kind.chars)
    rw [← List.head?_append] at ends
    refine ⟨⟨kind, ⟨(place.past gap).pos, ((place.past gap).past kind.chars).pos, none⟩⟩ :: ts,
      congrArg (kind :: ·) hts, ?_⟩
    rw [List.append_assoc, List.append_assoc, lexFrom_spelled ignored well_formed ends, hrest,
      Place.past_append, Place.past_append, List.cons_append]

/-- A text is cut into the tokens that it spells. -/
theorem Spells.map_kind {cs : List Char} {kinds : List TokenKind} (h : Spells none cs kinds) (place : Place) :
    (lexFrom place cs).map kind = kinds ++ [.endOfInput] := by
  obtain ⟨ts, rfl, hts⟩ := @Spells.lexFrom_append cs [] kinds h place
  have hnothing : ∀ c ∈ ([] : List Char), isIgnored c := by simp
  rw [List.append_nil, lexFrom_ignored hnothing] at hts
  rw [hts, List.map_append]
  rfl

/-- A lexeme that is no error is a well-formed token, and ends where it may. -/
theorem tokenKind_scan {c : Char} {rest : List Char} {start : Position}
    (hvalid : ((Lexeme.scan c rest).tokenKind start).IsValid) :
    ((Lexeme.scan c rest).tokenKind start).IsWellFormed ∧
      ((Lexeme.scan c rest).tokenKind start).chars = (Lexeme.scan c rest).text ∧
      ∀ cls ∈ ((Lexeme.scan c rest).tokenKind start).lexemeClass?,
        cls.EndsBefore (Lexeme.scan c rest).text (Lexeme.scan c rest).rest.head? := by
  obtain ⟨hkind, hchars⟩ :=
    (writes_tokenKind start).isWellFormed hvalid (tokenKind_ne_endOfInput _ start)
  refine ⟨hkind, hchars, fun cls hcls ↦ ?_⟩
  have hends := (Lexeme.scan_sound c rest ((Lexeme.isValid_tokenKind_iff _ start).1 hvalid)).2
  generalize Lexeme.scan c rest = l at hcls hends ⊢
  obtain ⟨cls', cs, rest⟩ := l
  cases cls' <;> cases hcls <;> exact hends

/-- The texts that are cut into tokens without an error are those that spell them. -/
theorem spells_iff {cs : List Char} {kinds : List TokenKind} {place : Place} :
    Spells none cs kinds ↔
      (lexFrom place cs).map kind = kinds ++ [.endOfInput] ∧ ∀ kind ∈ kinds, kind.IsValid := by
  constructor
  · intro h
    refine ⟨h.map_kind place, ?_⟩
    induction h with
    | last ignored => exact fun kind hkind ↦ by cases hkind
    | token ignored well_formed ends others ih => exact List.forall_mem_cons.2 ⟨well_formed.isValid, ih⟩
  · rintro ⟨hmap, hvalid⟩
    induction place, cs using lex_induction generalizing kinds with
    | last place gap hgap =>
      rw [lexFrom_ignored hgap] at hmap
      cases kinds with
      | nil => exact .last hgap
      | cons kind kinds => simp at hmap
    | token place gap c rest hgap hc ih =>
      rw [lexFrom_append hgap hc, List.map_cons] at hmap
      cases kinds with
      | nil => exact absurd (List.cons.inj hmap).1 (tokenKind_ne_endOfInput _ _)
      | cons kind kinds =>
        obtain ⟨rfl, hothers⟩ := List.cons.inj hmap
        obtain ⟨hfirst, hrest⟩ := List.forall_mem_cons.1 hvalid
        obtain ⟨hkind, hchars, hends⟩ := tokenKind_scan hfirst
        rw [← hchars, ← Option.or_none (o := (Lexeme.scan c rest).rest.head?)] at hends
        have hspells := Spells.token hgap hkind hends (ih hothers hrest)
        rwa [hchars, Lexeme.scan_append] at hspells

/-- In front of the end of a line tokens are spelled as at the end of the input, whatever comes then. -/
theorem Spells.line {cs : List Char} {kinds : List TokenKind} (h : Spells none cs kinds) {c : Char}
    (hc : isLineEnd c) (next : Option Char) : Spells next (cs ++ [c]) kinds := by
  induction h with
  | last ignored =>
    exact .last (List.forall_mem_append.2 ⟨ignored, List.forall_mem_singleton.2 (isIgnored_of_isLineEnd hc)⟩)
  | @token gap back kind kinds ignored well_formed ends others ih =>
    rw [List.append_assoc, List.append_assoc]
    refine .token ignored well_formed (fun cls hcls ↦ ?_) ih
    cases hback : back.head? with
    | none =>
      obtain rfl := List.head?_eq_none_iff.1 hback
      exact LexemeClass.endsBefore_lineEnd cls _ hc
    | some d =>
      rw [List.head?_append, hback]
      have hends := ends cls hcls
      rwa [hback] at hends

/-! ### Tokens written down -/

/-- A well-formed token as it is written down, with separators behind it. Behind a comment they begin with
the end of its line. -/
structure Piece where
  /-- What the token is. -/
  kind : TokenKind
  /-- What stands behind it. -/
  gap : List Char
  well_formed : kind.IsWellFormed
  ignored : ∀ c ∈ gap, isIgnored c
  ends_line : kind.sort = .comment → ∀ c ∈ gap.head?, isLineEnd c

namespace Piece

/-- The token and what stands behind it. -/
def chars (piece : Piece) : List Char :=
  piece.kind.chars ++ piece.gap

/-- Between any two of the tokens there is a separator. Behind the last there need be none. -/
def Apart (pieces : List Piece) : Prop :=
  ∀ piece ∈ pieces.dropLast, piece.gap ≠ []

end Piece

/-- A written token ends before what stands behind it. -/
theorem Piece.ends (piece : Piece) {others : List Piece} (h : others ≠ [] → piece.gap ≠ []) :
    ∀ cls ∈ piece.kind.lexemeClass?,
      cls.EndsBefore piece.kind.chars ((piece.gap ++ others.flatMap chars).head?.or none) := by
  intro cls hcls
  rw [Option.or_none]
  cases hgap : piece.gap with
  | nil =>
    obtain rfl : others = [] := by
      by_contra hothers
      exact h hothers hgap
    exact LexemeClass.endsBefore_none cls _
  | cons c gap =>
    refine LexemeClass.endsBefore_ignored cls _ (piece.ignored c (by simp [hgap])) fun hcomment ↦ ?_
    refine piece.ends_line ?_ c (by simp [hgap])
    cases hkind : piece.kind <;> rw [hkind, hcomment] at hcls <;> first | rfl | cases hcls

/-- Tokens that are written down with separators between them are spelled. -/
theorem spells_pieces {gap : List Char} {pieces : List Piece} (hgap : ∀ c ∈ gap, isIgnored c)
    (happart : Piece.Apart pieces) :
    Spells none (gap ++ pieces.flatMap Piece.chars) (pieces.map Piece.kind) := by
  induction pieces generalizing gap with
  | nil =>
    rw [List.flatMap_nil, List.append_nil]
    exact .last hgap
  | cons piece pieces ih =>
    have hends : pieces ≠ [] → piece.gap ≠ [] := by
      intro hne
      refine happart piece ?_
      rw [List.dropLast_cons_of_ne_nil hne]
      exact List.mem_cons_self
    have hothers : Piece.Apart pieces := by
      intro other hother
      refine happart other ?_
      rw [List.dropLast_cons_of_ne_nil (List.ne_nil_of_mem (List.mem_of_mem_dropLast hother))]
      exact List.mem_cons_of_mem _ hother
    rw [List.flatMap_cons, Piece.chars, List.append_assoc]
    exact .token hgap piece.well_formed (piece.ends hends) (ih piece.ignored hothers)

/-- **The lexicon is exact.** Every token of a text that is no error is well formed, and well-formed tokens
that are written down one after another, with separators between them and each comment at the end of its
line, are the tokens of what is written, followed by the end of the input. -/
theorem lex_exact :
    (∀ text, ∀ t ∈ lex text, t.kind.IsValid → t.kind ≠ .endOfInput → t.kind.IsWellFormed) ∧
      ∀ gap pieces, (∀ c ∈ gap, isIgnored c) → Piece.Apart pieces →
        (lex (String.ofList (gap ++ pieces.flatMap Piece.chars))).map kind =
          pieces.map Piece.kind ++ [.endOfInput] := by
  constructor
  · intro text t ht hvalid hend
    obtain ⟨-, part, -, -, -, -, -, hwrites⟩ := (tiling_lexFrom .origin text.toList).exists_part ht
    exact (hwrites.isWellFormed hvalid hend).1
  · intro gap pieces hgap happart
    rw [lex, String.toList_ofList]
    exact (spells_pieces hgap happart).map_kind .origin

/-- An empty string beside a block string that keeps triple quotes, and a comment at the end of the text. -/
theorem lex_exact_empty_beside_block :
    (lex "\"\",\"\"\"\\\"\"\"\"\"\"\r#").map kind =
      [.string "\"\"", .blockString "\"\"\"\\\"\"\"\"\"\"", .comment "", .endOfInput] := by
  have hstring : (TokenKind.string "\"\"").IsWellFormed := ⟨.string, rfl, _, rfl, .close⟩
  have hblock : (TokenKind.blockString "\"\"\"\\\"\"\"\"\"\"").IsWellFormed :=
    ⟨.blockString, rfl, _, rfl, .escape .close⟩
  have hcomment : (TokenKind.comment "").IsWellFormed := ⟨.comment, rfl, [], rfl, by simp⟩
  have hignored (c : Char) (hc : isIgnored c) : ∀ d ∈ [c], isIgnored d := List.forall_mem_singleton.2 hc
  have hwritten (text : String) (pieces : List Piece) (happart : Piece.Apart pieces)
      (htext : text.toList = pieces.flatMap Piece.chars) :
      (lex text).map kind = pieces.map Piece.kind ++ [.endOfInput] := by
    have hlex := lex_exact.2 [] pieces (by simp) happart
    rwa [List.nil_append, ← htext, String.ofList_toList] at hlex
  exact hwritten _
    [⟨_, [','], hstring, hignored _ (by decide), by simp [TokenKind.sort]⟩,
      ⟨_, ['\r'], hblock, hignored _ (by decide), by simp [TokenKind.sort]⟩,
      ⟨_, [], hcomment, by simp, by simp⟩] (by simp [Piece.Apart])
    (by simp [Piece.chars, TokenKind.chars, TokenKind.written?])

end Token

end TypeSystem
