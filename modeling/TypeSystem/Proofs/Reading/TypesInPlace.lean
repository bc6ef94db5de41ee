import TypeSystem.Proofs.Reading.TypeStarts
import TypeSystem.Proofs.Token.Reckoning

/-!
# Types in place

A type may stand in a text wherever a lead has come before it (`TypePlace`). How it is read there does not depend
on the lead, however many types there are in it and however deep they are: each is read from as many levels as
the first one was. So a type is read as it is written, unless it has too many levels by itself
(`type_reads_back`).

What stands behind the type matters in two ways only. The name of the type may go on in it, or a mark may come
first (`TypeReference.EndsBefore`); and the document may go wrong there. It need not: whatever a lead has begun
can be closed behind the type (`Lead.closes_document`).
-/

namespace TypeSystem

open HasTypes (nodeTypes)
open Text

/-! ### Texts that close what has begun -/

/-- The text of some tokens, with a space in front of each. -/
def closing (kinds : List TokenKind) : List Char :=
  kinds.flatMap fun kind ↦ ' ' :: kind.chars

theorem head?_closing (kinds : List TokenKind) : ∀ c ∈ (closing kinds).head?, c = ' ' := by
  cases kinds <;> simp [closing]

theorem isWellFormed_of_mem_closers : ∀ kind ∈ closers, kind.IsWellFormed := by
  have hon : (TokenKind.name "on").IsWellFormed := ⟨.name, rfl, 'o', ['n'], rfl, by decide, by simp; decide⟩
  have hquery : (TokenKind.name "QUERY").IsWellFormed :=
    ⟨.name, rfl, 'Q', ['U', 'E', 'R', 'Y'], rfl, by decide, by simp; decide⟩
  simp [closers, Token.isWellFormed_punctuator, hon, hquery]

theorem isLegible_of_mem_closers : ∀ kind ∈ closers, kind.IsLegible := by
  simp [closers, TokenKind.IsLegible.punctuator, TokenKind.IsLegible.name]

/-- What closes is spelled with a space before each token. -/
theorem Token.spells_closing {kinds : List TokenKind} (h : kinds ⊆ closers) :
    Spells none (closing kinds) kinds := by
  induction kinds with
  | nil => exact .last (by simp [closing])
  | cons kind kinds ih =>
    obtain ⟨hkind, hothers⟩ := List.cons_subset.1 h
    have hends : ∀ cls ∈ kind.lexemeClass?, cls.EndsBefore kind.chars ((closing kinds).head?.or none) := by
      intro cls hcls
      rw [Option.or_none]
      cases hhead : (closing kinds).head? with
      | none => exact LexemeClass.endsBefore_none cls _
      | some c =>
        obtain rfl := head?_closing kinds c hhead
        refine LexemeClass.endsBefore_ignored cls _ (by decide) ?_
        rintro rfl
        cases kind <;> cases hcls
        exact absurd rfl (isLegible_of_mem_closers _ hkind).ne_comment
    have hspace : ∀ c ∈ [' '], isIgnored c := List.forall_mem_singleton.2 (by decide)
    exact .token hspace (isWellFormed_of_mem_closers kind hkind) hends (ih hothers)

/-- No token is left out if none of them is a comment. -/
theorem Token.filter_isComment_eq_self {ts : List Token} {kinds : List TokenKind} (hts : ts.map kind = kinds)
    (h : ∀ k ∈ kinds, k.sort ≠ .comment) : ts.filter (fun t ↦ !t.isComment) = ts := by
  refine List.filter_eq_self.2 fun t ht ↦ ?_
  simpa [isComment] using h t.kind (hts ▸ List.mem_map_of_mem ht)

/-- So it is scanned as it is meant. -/
theorem Token.map_kind_closing {kinds : List TokenKind} (h : kinds ⊆ closers) (place : Place) :
    ((lexFrom place (closing kinds)).filter fun t ↦ !t.isComment).map kind = kinds ++ [.endOfInput] := by
  have hmap := (spells_closing h).map_kind place
  rw [filter_isComment_eq_self hmap, hmap]
  refine List.forall_mem_append.2 ⟨fun k hk ↦ (isLegible_of_mem_closers k (h hk)).ne_comment, ?_⟩
  exact List.forall_mem_singleton.2 (by simp [TokenKind.sort])

/-! ### Texts with a type in them -/

namespace Token

variable {next : Option Char} {place : Place} {cs : List Char}

/-- A token has characters. -/
theorem Spells.ne_nil {kind : TokenKind} {kinds : List TokenKind} (h : Spells next cs (kind :: kinds)) :
    cs ≠ [] := by
  cases h with
  | token ignored well_formed ends others =>
    obtain ⟨cls, hcls, hadmits⟩ := well_formed
    obtain ⟨c, tail, hchars, -⟩ :=
      LexemeClass.exists_head_of_admits (LexemeClass.not_isInvalid_of_mem hcls) hadmits
    simp [hchars]

/-- Marks may be written one right behind the other. -/
theorem spells_replicate (p : Punctuator) (n : ℕ) :
    Spells next (List.replicate n p.char) (List.replicate n (.punctuator p)) := by
  induction n with
  | zero => exact .last (by simp)
  | succ n ih => exact ih.punctuator p

/-- A character that is no separator begins a token where it stands. -/
theorem exists_lexFrom_cons {c : Char} (hc : ¬ isIgnored c) :
    ∃ t ts, lexFrom place (c :: cs) = t :: ts ∧ t.span.start = place.pos ∧ (c ≠ '#' → ¬ t.isComment) := by
  have hlex : lexFrom place ([] ++ c :: cs) = _ := lexFrom_append (by simp) hc
  refine ⟨_, _, hlex, rfl, fun hhash hcomment ↦ hhash ?_⟩
  have hsound := Lexeme.scan_sound c cs
  have happend := Lexeme.scan_append c cs
  have hsort : ((Lexeme.scan c cs).tokenKind (place.past []).pos).sort = .comment := of_decide_eq_true hcomment
  generalize Lexeme.scan c cs = l at hsound happend hsort
  obtain ⟨cls, text, rest⟩ := l
  cases cls with
  | comment =>
    obtain ⟨body, rfl, -⟩ := (hsound (by simp [LexemeClass.isInvalid])).1
    exact (List.cons.inj happend).1.symm
  | _ => cases hsort

/-- What sort of tokens there are does not depend on where the text begins. -/
theorem map_sort_lexFrom (place place' : Place) (cs : List Char) :
    (lexFrom place cs).map (fun t ↦ t.kind.sort) = (lexFrom place' cs).map (fun t ↦ t.kind.sort) := by
  induction place, cs using lex_induction generalizing place' with
  | last place gap hgap =>
    rw [lexFrom_ignored hgap, lexFrom_ignored hgap]
    rfl
  | token place gap c rest hgap hc ih =>
    rw [lexFrom_append hgap hc, lexFrom_append hgap hc, List.map_cons, List.map_cons, ih]
    refine congrArg (· :: _) ?_
    show ((Lexeme.scan c rest).tokenKind _).sort = ((Lexeme.scan c rest).tokenKind _).sort
    unfold Lexeme.tokenKind
    cases (Lexeme.scan c rest).cls <;> rfl

/-- A mark is not what comes first, wherever the text begins. -/
theorem free_of_current_ne {p : Punctuator} {back : List Char}
    (h : (TokenStream.ofTokens (lex (String.ofList back))).current.kind ≠ .punctuator p) (place : Place) :
    Free {.punctuator p} (((lexFrom place back).filter fun t ↦ !t.isComment).map kind) := by
  have hsorts (place : Place) : ((lexFrom place back).filter fun t ↦ !t.isComment).map (fun t ↦ t.kind.sort) =
      ((lexFrom place back).map fun t ↦ t.kind.sort).filter fun sort ↦ !decide (sort = .comment) := by
    rw [List.filter_map]
    rfl
  have heq := hsorts place
  rw [map_sort_lexFrom place .origin, ← hsorts] at heq
  intro k hk hmem
  obtain rfl := Set.mem_singleton_iff.1 hmem
  rw [lex, String.toList_ofList, TokenStream.ofTokens] at h
  generalize (lexFrom place back).filter (fun t ↦ !t.isComment) = ts at hk heq
  generalize (lexFrom .origin back).filter (fun t ↦ !t.isComment) = us at h heq
  cases ts with
  | nil => cases hk
  | cons t ts =>
    obtain ⟨u, us, rfl, hu, -⟩ := List.map_eq_cons_iff.1 heq.symm
    have ht : t.kind = .punctuator p := Option.some.inj hk
    change u.kind.sort = t.kind.sort at hu
    rw [ht] at hu
    exact h (TokenKind.sort_eq_punctuator_iff.1 hu)

end Token

open Token

/-! ### References in a text -/

namespace TypeReference

variable {t : TypeReference}

/-- The reference ends where it is written to end: in what follows neither does its name go on nor does a mark
for its last level come first. -/
structure EndsBefore (t : TypeReference) (back : List Char) : Prop where
  name_ends : ∀ name, t = .named name .nullable → ∀ c ∈ back.head?, ¬ isNameContinue c
  not_marked : t.nullability = .nullable →
    (TokenStream.ofTokens (lex (String.ofList back))).current.kind ≠ .punctuator .bang

/-- Every reference ends before what closes a phrase. -/
theorem endsBefore_closing (t : TypeReference) {kinds : List TokenKind} (h : kinds ⊆ closers) :
    t.EndsBefore (closing kinds) where
  name_ends name _ c hc := by
    obtain rfl := head?_closing kinds c hc
    decide
  not_marked _ hbang := by
    have hmap := map_kind_closing h .origin
    rw [lex, String.toList_ofList, TokenStream.ofTokens] at hbang
    generalize (lexFrom .origin (closing kinds)).filter (fun t ↦ !t.isComment) = ts at hmap hbang
    cases ts with
    | nil => cases hbang
    | cons u ts =>
      rw [List.map_cons, show u.kind = .punctuator .bang from hbang] at hmap
      cases kinds with
      | nil => cases hmap
      | cons kind kinds =>
        obtain rfl := (List.cons.inj hmap).1
        have hcloser := h List.mem_cons_self
        simp [closers] at hcloser

/-- The tokens of a type are legible. -/
theorem isLegible_of_mem_kinds : ∀ k ∈ t.kinds, k.IsLegible := by
  have hmark (n : Nullability) : ∀ k ∈ n.kinds, k.IsLegible := by
    cases n <;> simp [Nullability.kinds, TokenKind.IsLegible.punctuator]
  induction t with
  | named name n => exact List.forall_mem_cons.2 ⟨.name name, hmark n⟩
  | list element n ih =>
    refine List.forall_mem_cons.2 ⟨.punctuator _, List.forall_mem_append.2 ⟨ih, ?_⟩⟩
    exact List.forall_mem_cons.2 ⟨.punctuator _, hmark n⟩

theorem filter_isComment_of_kinds {ts : List Token} (h : ts.map kind = t.kinds) :
    ts.filter (fun t ↦ !t.isComment) = ts :=
  filter_isComment_eq_self h fun k hk ↦ (t.isLegible_of_mem_kinds k hk).ne_comment

/-- Where it ends, the text of a reference is cut into its tokens. -/
theorem exists_lexFrom_display (hname : LexemeClass.name.Admits t.innermostName.toList) {back : List Char}
    (hends : t.EndsBefore back) (place : Place) :
    ∃ ts, ts.map kind = t.kinds ∧
      lexFrom place (t.display.toList ++ back) = ts ++ lexFrom (place.past t.display.toList) back := by
  have hspells : Spells back.head? (t.display.toList ++ []) (t.kinds ++ []) :=
    spells_display hname (by simpa using hends.name_ends) (.last (by simp))
  rw [List.append_nil, List.append_nil] at hspells
  exact hspells.lexFrom_append place

/-- The text of a reference of so many levels and more begins with as many brackets, and is not at its end
then. -/
theorem display_eq_replicate_append (hname : LexemeClass.name.Admits t.innermostName.toList) {levels : ℕ}
    (h : levels ≤ t.depth) : ∃ c tail, t.display.toList = List.replicate levels '[' ++ c :: tail ∧
      ¬ isIgnored c ∧ c ≠ '#' := by
  induction levels generalizing t with
  | zero =>
    cases t with
    | named name n =>
      obtain ⟨c, ds, hchars, hc, -⟩ := hname
      refine ⟨c, ds ++ n.mark.toList, ?_, LexemeClass.not_isIgnored_of_isNameStart hc, ?_⟩
      · change name.toList = c :: ds at hchars
        simp [display, hchars]
      · rintro rfl
        exact absurd hc (by decide)
    | list element n =>
      exact ⟨'[', (element.display ++ "]" ++ n.mark).toList, by simp [display], by decide, by decide⟩
  | succ levels ih =>
    cases t with
    | named name n => exact absurd h (Nat.not_succ_le_zero levels)
    | list element n =>
      obtain ⟨c, tail, helement, hc⟩ := ih (t := element) hname (Nat.le_of_succ_le_succ h)
      refine ⟨c, tail ++ ("]" ++ n.mark).toList, ?_, hc⟩
      simp [display, helement, List.replicate_succ]

end TypeReference

/-- The tokens that mean something. -/
def TokenKind.meaningful (kinds : List TokenKind) : List TokenKind :=
  kinds.filter fun kind ↦ kind.sort ≠ .comment

/-- A place for a type in a text: what the text has before the node that the type is of, and the node up to
its type, with the tokens of both. -/
structure TypePlace where
  /-- The text before the node. -/
  outside : List Char
  /-- The text of the node up to its type. -/
  head : List Char
  /-- The tokens before the node. -/
  earlier : List TokenKind
  /-- The first token of the node. -/
  first : TokenKind
  /-- The other tokens of the node up to its type. -/
  begun : List TokenKind
  spells_outside : Spells head.head? outside earlier
  spells_head : ∀ next, Spells next head (first :: begun)
  begins : ∀ c ∈ head.head?, ¬ Text.isIgnored c
  not_comment : first.sort ≠ .comment
  lead : Lead.document (TokenKind.meaningful earlier) (first :: TokenKind.meaningful begun)

namespace TypePlace

variable (place : TypePlace)

/-- Where the node begins. -/
def start : Position := .behind place.outside

/-- The text before the type. -/
def before : List Char := place.outside ++ place.head

/-- The text with a type at the place, and with some text behind it. -/
def write (t : TypeReference) (back : List Char) : String :=
  String.ofList (place.before ++ (t.display.toList ++ back))

/-- What a text is cut into that has the place in it, comments left out: a lead, and then the tokens of the
rest of the text. -/
theorem exists_ofTokens_eq (cs : List Char) :
    ∃ outside first head, TokenStream.ofTokens (lex (String.ofList (place.before ++ cs))) =
        .after .origin (outside ++ (first :: head ++
          (lexFrom (Place.origin.past place.before) cs).filter fun t ↦ !t.isComment)) ∧
      outside.map kind = TokenKind.meaningful place.earlier ∧
      (first :: head).map kind = place.first :: TokenKind.meaningful place.begun ∧
      first.span.start = place.start := by
  obtain ⟨c, tail, hhead⟩ := List.exists_cons_of_ne_nil (place.spells_head none).ne_nil
  have houtside : Spells (place.head ++ cs).head? place.outside place.earlier := by
    have hspells := place.spells_outside
    rw [hhead] at hspells ⊢
    exact hspells
  obtain ⟨ts, hts, hlex⟩ := houtside.lexFrom_append .origin
  obtain ⟨us, hus, hlex'⟩ := (place.spells_head cs.head?).lexFrom_append (Place.origin.past place.outside)
  obtain ⟨t, us, rfl, hfirst, hbegun⟩ := List.map_eq_cons_iff.1 hus
  have hstart : t.span.start = place.start := by
    have hc : ¬ isIgnored c := place.begins c (by simp [hhead])
    rw [hhead, List.cons_append] at hlex'
    obtain ⟨t', ts', ht', hstart, -⟩ := exists_lexFrom_cons hc
    rw [ht', List.cons_append] at hlex'
    rw [← (List.cons.inj hlex').1, hstart, Place.pos_past_origin, start]
  have hmeaningful (ts : List Token) :
      (ts.filter fun t ↦ !t.isComment).map kind = TokenKind.meaningful (ts.map kind) := by
    rw [TokenKind.meaningful, List.filter_map]
    refine congrArg _ (List.filter_congr fun t _ ↦ ?_)
    simp [isComment]
  have ht : (t :: us).filter (fun t ↦ !t.isComment) = t :: us.filter fun t ↦ !t.isComment :=
    List.filter_cons_of_pos (by simp [isComment, hfirst, place.not_comment])
  refine ⟨ts.filter fun t ↦ !t.isComment, t, us.filter fun t ↦ !t.isComment, ?_, ?_, ?_, hstart⟩
  · rw [TokenStream.ofTokens, lex, String.toList_ofList, before, List.append_assoc, hlex, hlex',
      List.filter_append, List.filter_append, ht, Place.past_append]
  · rw [hmeaningful, hts]
  · rw [List.map_cons, hmeaningful, hfirst, hbegun]

/-- In a text that has the place in it the parser comes to the rest of the text, where it reads a type. A
document that it gives has a node of this type in it that begins where the place says. -/
theorem comesTo (source : Option String) (cs : List Char) :
    ∃ e, (Parser.document source).ComesTo (.ofTokens (lex (String.ofList (place.before ++ cs))))
      (.after e ((lexFrom (Place.origin.past place.before) cs).filter fun t ↦ !t.isComment))
      fun type document ↦ (place.start, type) ∈ nodeTypes document := by
  obtain ⟨outside, first, head, hstream, houtside, hhead, hstart⟩ := place.exists_ofTokens_eq cs
  rw [hstream, ← hstart]
  refine wantsType_document source .origin outside first head _ ?_
  rw [houtside, hhead]
  exact place.lead

/-- With too many levels the parser fails at the first of them that may not be. -/
theorem error_of_depth (source : Option String) {t : TypeReference}
    (hname : LexemeClass.name.Admits t.innermostName.toList) (hdepth : 64 ≤ t.depth) (back : List Char) :
    ∃ e, Document.ofTokens source (lex (place.write t back)) = .error e ∧ e.fault = .tooDeep 64 ∧
      e.span.start = .behind (place.before ++ List.replicate 64 '[') := by
  obtain ⟨c, tail, hdisplay, hc, hhash⟩ := t.display_eq_replicate_append hname hdepth
  obtain ⟨e, k, hcomes, -⟩ := place.comesTo source (t.display.toList ++ back)
  -- the brackets, and then the token of which the error is
  have hspells : Spells (c :: (tail ++ back)).head? (List.replicate 64 '[')
      (List.replicate 64 (.punctuator .bracketOpen)) := spells_replicate .bracketOpen 64
  obtain ⟨ts, hts, hlex⟩ := hspells.lexFrom_append (Place.origin.past place.before)
  obtain ⟨found, others, hfound, hstart, hcomment⟩ := exists_lexFrom_cons hc
  have hkept := filter_isComment_eq_self hts fun k hk ↦ by simp [List.eq_of_mem_replicate hk, TokenKind.sort]
  rw [hdisplay, List.append_assoc, List.cons_append, hlex, List.filter_append, hkept, hfound,
    List.filter_cons_of_pos (by simpa using hcomment hhash)] at hcomes
  obtain ⟨e', herror⟩ := Parser.typeReferenceWithin_of_brackets 64 hts
  have hread : (Parser.typeReference >>= k) _ = _ := Parser.bind_eq_error_iff.2 (.inl herror)
  refine ⟨Parser.tooManyLevels found, ?_, rfl, ?_⟩
  · rw [Document.ofTokens, write, hdisplay, List.append_assoc, List.cons_append, hcomes, hread]
    rfl
  · show found.span.start = _
    rw [hstart, ← Place.past_append, Place.pos_past_origin]

/-- With no more levels than may be read, the type is read as it is written, and the parser goes on behind it. -/
theorem exists_reads (source : Option String) {t : TypeReference}
    (hname : LexemeClass.name.Admits t.innermostName.toList) (hdepth : t.depth ≤ 63) {back : List Char}
    (hends : t.EndsBefore back) :
    ∃ (e : Position) (k : Parser Document),
      Parser.document source (.ofTokens (lex (place.write t back))) =
        k (.after e ((lexFrom (Place.origin.past (place.before ++ t.display.toList)) back).filter
          fun t ↦ !t.isComment)) ∧
      k.Gives fun document ↦ (place.start, t) ∈ nodeTypes document := by
  obtain ⟨e, k, hcomes, hgives⟩ := place.comesTo source (t.display.toList ++ back)
  obtain ⟨ts, hts, hlex⟩ := t.exists_lexFrom_display hname hends (Place.origin.past place.before)
  rw [hlex, List.filter_append, TypeReference.filter_isComment_of_kinds hts, ← Place.past_append] at hcomes
  obtain ⟨e', htype⟩ := Parser.typeReferenceWithin_kinds (Nat.lt_succ_of_le hdepth) hts
    fun hnullable ↦ free_of_current_ne (hends.not_marked hnullable) _
  exact ⟨e', k t, hcomes.trans (Parser.bind_eq_of_eq_ok htype), hgives t⟩

/-- With no more levels than may be read, something can stand behind the type with which there is a
document. -/
theorem exists_isOk (source : Option String) {t : TypeReference}
    (hname : LexemeClass.name.Admits t.innermostName.toList) (hdepth : t.depth ≤ 63) :
    ∃ back, t.EndsBefore back ∧ (Document.ofTokens source (lex (place.write t back))).isOk := by
  have htype : Phrase.typeReference admitted t.kinds t :=
    ⟨TypeReference.isTypeReference_iff.2 rfl, Nat.lt_succ_of_le hdepth⟩
  -- the kinds of tokens that can stand behind the place are written out as a text
  obtain ⟨more, hmore, document, hdocument⟩ := Lead.closes_document _ _ _ _ place.lead htype
  have hends := t.endsBefore_closing hmore
  obtain ⟨outside, first, head, hstream, houtside, hhead, -⟩ :=
    place.exists_ofTokens_eq (t.display.toList ++ closing more)
  obtain ⟨ts, hts, hlex⟩ := t.exists_lexFrom_display hname hends (Place.origin.past place.before)
  obtain ⟨us, rest, hus, hmore, hrest⟩ := List.map_eq_append_iff.1
    (map_kind_closing hmore ((Place.origin.past place.before).past t.display.toList))
  rw [hlex, List.filter_append, TypeReference.filter_isComment_of_kinds hts, hus] at hstream
  have htokens : (outside ++ (first :: head ++ (ts ++ us))).map kind =
      TokenKind.meaningful place.earlier ++
        (place.first :: TokenKind.meaningful place.begun ++ (t.kinds ++ more)) := by
    rw [List.map_append, List.map_append, List.map_append, houtside, hhead, hts, hmore]
  rw [← htokens] at hdocument
  have hfree : Free inputGoesOn (rest.map kind) := by
    rw [hrest]
    exact free_cons.2 (by simp [inputGoesOn])
  obtain ⟨read, e, hread, -⟩ := (reads_document source).complete .origin _ rest document hdocument hfree
  refine ⟨closing more, hends, ?_⟩
  have hshape : outside ++ (first :: head ++ (ts ++ (us ++ rest))) =
      outside ++ (first :: head ++ (ts ++ us)) ++ rest := by simp
  rw [Document.ofTokens, write, hstream, hshape, hread]
  rfl

end TypePlace

/-- **A type is read as it is written, whatever came before it.** With more than 63 levels of lists a type is
refused where the 65th level would begin. With no more, there are texts that go on behind it and are read; in the
document of any such text the node at this place has the type that was written and no other; and where such a
text is refused for the levels of a type, that type comes later. -/
theorem type_reads_back (source : Option String) (place : TypePlace) {t : TypeReference}
    (hname : LexemeClass.name.Admits t.innermostName.toList) :
    (64 ≤ t.depth → ∀ back, ∃ e, Document.ofTokens source (lex (place.write t back)) = .error e ∧
      e.fault = .tooDeep 64 ∧ e.span.start = .behind (place.before ++ List.replicate 64 '[')) ∧
    (t.depth ≤ 63 →
      (∃ back, t.EndsBefore back ∧ (Document.ofTokens source (lex (place.write t back))).isOk) ∧
      ∀ back, t.EndsBefore back →
        (∀ document, Document.ofTokens source (lex (place.write t back)) = .ok document →
          ∀ type, (place.start, type) ∈ nodeTypes document ↔ type = t) ∧
        ∀ e limit, Document.ofTokens source (lex (place.write t back)) = .error e → e.fault = .tooDeep limit →
          (Position.behind (place.before ++ t.display.toList)).offset ≤ e.span.start.offset) := by
  refine ⟨place.error_of_depth source hname, fun hdepth ↦ ⟨place.exists_isOk source hname hdepth,
    fun back hends ↦ ?_⟩⟩
  obtain ⟨e', k, hread, hgives⟩ := place.exists_reads source hname hdepth hends
  refine ⟨fun document h type ↦ ?_, fun e limit h hfault ↦ ?_⟩
  · have hmem : (place.start, t) ∈ nodeTypes document :=
      (hgives.of_ok _ document _ (hread.symm.trans (Prod.ext h rfl))).1
    refine ⟨fun htype ↦ type_eq_of_mem_nodeTypes h htype hmem, ?_⟩
    rintro rfl
    exact hmem
  · have hcites := hgives.of_error _ e _ (hread.symm.trans (Prod.ext h rfl))
    obtain ⟨found, hfound, rfl⟩ := hcites.of_tooDeep limit hfault
    rw [← Place.pos_past_origin]
    exact (tiling_lexFrom _ back).start_le (mem_lexFrom_of_mem_shown hfound)

/-- Behind a field with a type in brackets, the type of the next one may have 63 pairs of brackets around it, and
not one more. -/
theorem type_reads_back_behind_brackets :
    let nest (n : ℕ) := (fun t ↦ TypeReference.list t .nonNull)^[n] (.named "C" .nullable)
    ∃ place : TypePlace, place.outside = "type A\x7bf:[B!]\n".toList ∧ place.head = "g:\n".toList ∧
      (∃ e, Document.ofTokens none (lex (place.write (nest 64) ['}'])) = .error e ∧ e.fault = .tooDeep 64) ∧
      ∃ back document, Document.ofTokens none (lex (place.write (nest 63) back)) = .ok document ∧
        ∀ type, (place.start, type) ∈ nodeTypes document ↔ type = nest 63 := by
  intro nest
  have houtside : Spells none "type A\x7bf:[B!]".toList [.name "type", .name "A", .punctuator .braceOpen,
      .name "f", .punctuator .colon, .punctuator .bracketOpen, .name "B", .punctuator .bang,
      .punctuator .bracketClose] :=
    (@spells_iff _ _ .origin).2 ⟨by decide +kernel, by simp [TokenKind.IsValid, TokenKind.sort]⟩
  have hhead : Spells none "g:".toList [.name "g", .punctuator .colon] :=
    (@spells_iff _ _ .origin).2 ⟨by decide +kernel, by simp [TokenKind.IsValid, TokenKind.sort]⟩
  have htype : Phrase.typeReference admitted _ (.list (.named "B" .nonNull) .nullable) :=
    ⟨TypeReference.isTypeReference_iff.2 rfl, show 1 < 64 by decide⟩
  have hfield : Phrase.field admitted [.name "f", .punctuator .colon, .punctuator .bracketOpen, .name "B",
      .punctuator .bang, .punctuator .bracketClose] _ :=
    ⟨none, [], _, rfl, .inr ⟨rfl, rfl⟩, "f", [_], _, rfl, rfl, [], [], _, rfl, .inr ⟨rfl, rfl⟩,
      Phrase.mark_bind_iff.2 ⟨_, rfl, _, _, [], rfl, htype, [], [], [], rfl, .nil, rfl, rfl⟩⟩
  have hlead : Lead.document [.name "type", .name "A", .punctuator .braceOpen, .name "f", .punctuator .colon,
      .punctuator .bracketOpen, .name "B", .punctuator .bang, .punctuator .bracketClose]
      [.name "g", .punctuator .colon] := by
    refine ⟨[], [], _, rfl, .nil, none, [], _, rfl, .inr ⟨rfl, rfl⟩, .inl ⟨.object, (), [_], _, rfl, rfl, ?_⟩⟩
    refine ⟨"A", [_], _, rfl, rfl, [], [], _, rfl, .inr ⟨rfl, rfl⟩, [], [], _, rfl, .nil, (), [_], _, rfl, rfl, ?_⟩
    refine ⟨_, _, [], rfl, .cons hfield .nil, .inl ⟨rfl, none, [], _, rfl, .inr ⟨rfl, rfl⟩, ?_⟩⟩
    exact ⟨"g", [_], _, rfl, rfl, [], [], _, rfl, .inr ⟨rfl, rfl⟩, rfl⟩
  let place : TypePlace :=
    { outside := "type A\x7bf:[B!]\n".toList
      head := "g:\n".toList
      earlier := [.name "type", .name "A", .punctuator .braceOpen, .name "f", .punctuator .colon,
        .punctuator .bracketOpen, .name "B", .punctuator .bang, .punctuator .bracketClose]
      first := .name "g"
      begun := [.punctuator .colon]
      spells_outside := by simpa using houtside.line (c := '\n') rfl (some 'g')
      spells_head := by simpa using hhead.line (c := '\n') rfl
      begins := by simp; decide
      not_comment := by simp [TokenKind.sort]
      lead := hlead }
  have hname : LexemeClass.name.Admits "C".toList := ⟨'C', [], rfl, by decide, by simp⟩
  obtain ⟨e, he, hfault, -⟩ := (type_reads_back none place (t := nest 64) hname).1 (by decide) ['}']
  obtain ⟨⟨back, hends, hok⟩, hreads⟩ := (type_reads_back none place (t := nest 63) hname).2 (by decide)
  obtain ⟨document, hdocument⟩ := exists_eq_ok_of_isOk hok
  exact ⟨place, rfl, rfl, ⟨e, he, hfault⟩, back, document, hdocument, (hreads back hends).1 document hdocument⟩

end TypeSystem
