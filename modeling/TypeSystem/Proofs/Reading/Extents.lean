import TypeSystem.Proofs.Reading.Legible
import TypeSystem.Proofs.Reading.Relocation

/-!
# The text of an item

The span of an item covers the text of the item and nothing else: cut out and read by itself, that text is
a document with this item only, as many bytes nearer to the beginning as were cut off in front
(`item_reads_alone`).

The span runs from the first token of the item to its last one (`Parser.SpansTo`). Cut out, that part of
the text has the tokens that it has in place (`Token.lex_slice`). They are read as in place, although the
input ends behind them (`Parser.Relocates`), and it does not matter either what was read before them
(`Parser.Forgets`).
-/

namespace TypeSystem

variable {α β : Type}

/-! ### What was read before -/

namespace Parser

/-- Where a token comes next, it does not matter where the token before it ended. -/
def Forgets (p : Parser α) : Prop :=
  ∀ t ts e e', t.kind ≠ .endOfInput → p (.after e (t :: ts)) = p (.after e' (t :: ts))

namespace Forgets

/-- What forgets at its first step forgets. -/
theorem first {p : Parser α} {k : α → Parser β} (hp : p.Forgets) : (p >>= k).Forgets := by
  intro t ts e e' ht
  show Parser.bind p k _ = Parser.bind p k _
  rw [Parser.bind, Parser.bind, hp t ts e e' ht]

/-- Looking at a token before the first step changes nothing. -/
theorem look {p : Parser α} (view : Token → α) (hp : ∀ s, p s = (.ok (view s.current), s)) {k : α → Parser β}
    (hk : ∀ t, t.kind ≠ .endOfInput → (k (view t)).Forgets) : (p >>= k).Forgets := by
  intro t ts e e' ht
  show Parser.bind p k _ = Parser.bind p k _
  rw [Parser.bind, Parser.bind, hp, hp]
  exact hk t ht t ts e e' ht

/-- A choice forgets if both sides do. -/
theorem ite {condition : Prop} [Decidable condition] {p q : Parser α} (hp : p.Forgets) (hq : q.Forgets) :
    (if condition then p else q).Forgets := by
  split
  · exact hp
  · exact hq

/-- Taking a token forgets what was before it. -/
theorem next : Parser.next.Forgets := fun _ _ _ _ _ ↦ rfl

/-- So does taking a token that fits. -/
theorem views {p : Parser α} {view : Token → Option α} {expected : List String}
    (hp : p.Views view expected) : p.Forgets := by
  intro t ts e e' _
  rw [hp.eq, hp.eq]
  rfl

theorem keyword (text : String) : (requireKeyword text).Forgets := .views (views_requireKeyword text)

/-- A description is taken or is not there, and what follows forgets. -/
theorem description {k : Option String → Parser β} (hk : ∀ text, (k text).Forgets) :
    (description? >>= k).Forgets := by
  intro t ts e e' ht
  show Parser.bind _ k _ = Parser.bind _ k _
  by_cases hmem : t.kind ∈ strings
  · have hfound (e : Position) :
        description? (.after e (t :: ts)) = (.ok t.kind.rawText?, .after t.span.stop ts) :=
      description?_of_mem (s := .after e (t :: ts)) hmem
    rw [Parser.bind, Parser.bind, hfound, hfound]
  · have hnone (e : Position) : description? (.after e (t :: ts)) = (.ok none, .after e (t :: ts)) :=
      description?_of_notMem (s := .after e (t :: ts)) hmem
    rw [Parser.bind, Parser.bind, hnone, hnone]
    exact hk none t ts e e' ht

end Forgets

theorem forgets_definitionOf (source : Option String) (keyword : String) (description : Option String)
    (start : Position) : (definitionOf source keyword description start).Forgets := by
  unfold definitionOf
  cases TypeKind.ofKeyword? keyword with
  | some kind => exact .first (.first (.keyword _))
  | none =>
    exact .ite (.first (.first (.keyword _))) <| .ite (.first (.first (.keyword _))) <|
      .ite (.ite (.first (.keyword _)) (.first .next)) (.first .next)

/-- An item is read in the same way wherever the last one stopped. -/
theorem forgets_definition (source : Option String) : (definition source).Forgets := by
  refine .look (fun t ↦ t.span.start) (fun _ ↦ rfl) fun first _ ↦ .description fun description ↦ ?_
  refine .look (fun t ↦ t) (fun _ ↦ rfl) fun t ht ↦ ?_
  cases hkind : t.kind with
  | name keyword => exact .first (forgets_definitionOf source keyword description first.span.start)
  | endOfInput => exact absurd hkind ht
  | _ => exact .first .next

/-! ### Where an item ends -/

/-- What the parser gives has a span from `start` to where the last token taken ended. -/
def SpansTo (source : Option String) (start : Position) (span : α → Span) (p : Parser α) : Prop :=
  ∀ s a s', p s = (.ok a, s') → span a = ⟨start, s'.lastEnd, source⟩

namespace SpansTo

variable {source : Option String} {start : Position} {span : β → Span}

/-- What comes last says where the span ends. -/
theorem bind {p : Parser α} {k : α → Parser β} (hk : ∀ a, (k a).SpansTo source start span) :
    (p >>= k).SpansTo source start span := by
  intro s b s' h
  obtain ⟨a, s₁, -, hb⟩ := bind_eq_ok_iff.1 h
  exact hk a s₁ b s' hb

/-- A node that gets its span at the end. -/
theorem last {node : Span → β} (hnode : ∀ sp, span (node sp) = sp) :
    SpansTo source start span (do return node (← Parser.spanFrom source start)) := by
  rintro s _ _ ⟨⟩
  exact hnode _

/-- What is made of a node has its span. -/
theorem wrapped {p : Parser α} {wrap : α → β} (h : p.SpansTo source start fun a ↦ span (wrap a)) :
    SpansTo source start span (do return wrap (← p)) := by
  intro s b s' hb
  obtain ⟨a, s₁, ha, heq⟩ := bind_eq_ok_iff.1 hb
  cases heq
  exact h s a s' ha

theorem ite {condition : Prop} [Decidable condition] {p q : Parser β} (hp : p.SpansTo source start span)
    (hq : q.SpansTo source start span) : (if condition then p else q).SpansTo source start span := by
  split
  · exact hp
  · exact hq

/-- What fails makes no node. -/
theorem failing {p : Parser β} [p.AlwaysFails] : p.SpansTo source start span :=
  fun s a s' h ↦ absurd h (AlwaysFails.ne_ok s a s')

end SpansTo

end Parser

/-- The span of an item. -/
def Definition.span : Definition → Span
  | .type definition => definition.span
  | .schema definition => definition.span
  | .directive definition => definition.span
  | .typeExtension ext => ext.span
  | .schemaExtension ext => ext.span

theorem spansTo_extension (source : Option String) (start : Position) :
    (Parser.extension source start).SpansTo source start Definition.span := by
  refine .bind fun _ ↦ .bind fun keyword ↦ ?_
  cases TypeKind.ofKeyword? keyword with
  | some kind =>
    refine .wrapped (.bind fun _ ↦ .bind fun name ↦ .bind fun r ↦ ?_)
    obtain ⟨directives, body⟩ := r
    exact .ite .failing (.last fun _ ↦ rfl)
  | none =>
    refine .ite (.wrapped (.bind fun _ ↦ .bind fun directives ↦ .bind fun braces ↦ ?_)) .failing
    exact .ite (.bind fun _ ↦ .last fun _ ↦ rfl) (.ite .failing (.last fun _ ↦ rfl))

theorem spansTo_definitionOf (source : Option String) (keyword : String) (description : Option String)
    (start : Position) :
    (Parser.definitionOf source keyword description start).SpansTo source start Definition.span := by
  unfold Parser.definitionOf
  cases TypeKind.ofKeyword? keyword with
  | some kind =>
    refine .wrapped (.bind fun _ ↦ .bind fun _ ↦ .bind fun r ↦ ?_)
    obtain ⟨directives, body⟩ := r
    exact .last fun _ ↦ rfl
  | none =>
    refine .ite ?_ <| .ite ?_ <| .ite (.ite (spansTo_extension source start) .failing) .failing
    · exact .wrapped (.bind fun _ ↦ .bind fun _ ↦ .bind fun _ ↦ .bind fun _ ↦ .bind fun _ ↦ .bind fun _ ↦
        .bind fun _ ↦ .last fun _ ↦ rfl)
    · exact .wrapped (.bind fun _ ↦ .bind fun _ ↦ .bind fun _ ↦ .last fun _ ↦ rfl)

/-! ### Items in place -/

/-- An item is read from some tokens, and from the same tokens, moved, it is read again, moved. -/
theorem exists_passed_of_definition {source : Option String} {s s' : TokenStream} {item : Definition}
    (h : Parser.definition source s = (.ok (some item), s')) (f : Position → Position) :
    ∃ ts, ts ≠ [] ∧ Passed s ts s' ∧ ∀ rest, Resumes f s'.pending rest →
      Parser.definition none (.after (f s.lastEnd) (ts.map (Token.move f) ++ rest)) =
        (.ok (some (moved f item)), .after (f s'.lastEnd) rest) := by
  obtain ⟨description, s₁, keyword, hdescription, hkind, hitem⟩ := (definition_eq_some_iff source).1 h
  obtain ⟨front, hfront, hfirst⟩ := Parser.Relocates.description (f := f) s description s₁ hdescription
  obtain ⟨back, hback, hsecond⟩ :=
    relocates_definitionOf (f := f) source keyword description s₁ item s' hitem
  have hpassed := hfront.trans hback
  have hback_ne := (advances_definitionOf source keyword description).ne_nil hitem hback
  have hne : front ++ back ≠ [] := List.append_ne_nil_of_right_ne_nil front hback_ne
  refine ⟨front ++ back, hne, hpassed, fun rest hrest ↦ ?_⟩
  have hdescribed : Parser.description?
      (.after (f s.lastEnd) ((front ++ back).map (Token.move f) ++ rest)) =
      (.ok description, .after (f s₁.lastEnd) (back.map (Token.move f) ++ rest)) := by
    rw [List.map_append, List.append_assoc, hfirst _ (hrest.append hback), moved_string?]
  refine (definition_eq_some_iff none).2 ⟨description, _, keyword, hdescribed, ?_, ?_⟩
  · rw [hback.current_eq hback_ne, Token.move_kind, hkind]
  · rw [hpassed.current_eq hne]
    exact hsecond rest hrest

/-- An item is read from some tokens, which its span covers, and it is read from them wherever they stand,
also if the input ends behind them. -/
theorem exists_tokens_of_definition {source : Option String} {s s' : TokenStream} {item : Definition}
    (h : Parser.definition source s = (.ok (some item), s')) :
    ∃ first others, Taken s (first :: others) s' ∧ Passed s (first :: others) s' ∧
      item.span = ⟨first.span.start, s'.lastEnd, source⟩ ∧
      ∀ f e rest, Resumes f s'.pending rest →
        Parser.definition none (.after e ((first :: others).map (Token.move f) ++ rest)) =
          (.ok (some (moved f item)), .after (f s'.lastEnd) rest) := by
  obtain ⟨ts, htaken, -⟩ := (reads_definition source).sound s _ s' h
  -- whatever the positions become, the tokens are those that were taken
  have hagain (f : Position → Position) : ts ≠ [] ∧ Passed s ts s' ∧ ∀ rest, Resumes f s'.pending rest →
      Parser.definition none (.after (f s.lastEnd) (ts.map (Token.move f) ++ rest)) =
        (.ok (some (moved f item)), .after (f s'.lastEnd) rest) := by
    obtain ⟨passed, hne, hpassed, hreads⟩ := exists_passed_of_definition h f
    obtain rfl := hpassed.eq_of_taken htaken
    exact ⟨hne, hpassed, hreads⟩
  obtain ⟨hne, hpassed, -⟩ := hagain id
  obtain ⟨first, others, rfl⟩ := List.exists_cons_of_ne_nil hne
  refine ⟨first, others, htaken, hpassed, ?_, fun f e rest hrest ↦ ?_⟩
  · obtain ⟨description, s₁, keyword, -, -, hitem⟩ := (definition_eq_some_iff source).1 h
    rw [spansTo_definitionOf source keyword description _ s₁ item s' hitem, TokenStream.current,
      htaken.pending_eq]
    rfl
  · rw [← (hagain f).2.2 rest hrest]
    exact Parser.forgets_definition none _ _ _ _ (htaken.kind_ne first List.mem_cons_self)

/-! ### Items of a document -/

section Rounds

variable [HasSpans α] {K₁ K₂ : Set TokenKind} {item : Parser (Option α)} {P : Phrase α} {E : Phrase Unit}
  {s s' : TokenStream}

/-- Every item that a loop lists was read in one of its rounds. -/
theorem exists_round_of_mem (hitem : ReadsOrEnds K₁ K₂ item P E) {as : List α}
    (h : Parser.many item s = (.ok as, s')) {a : α} (ha : a ∈ as) :
    ∃ front s₁ s₂, Taken s front s₁ ∧ item s₁ = (.ok (some a), s₂) := by
  replace h := Parser.rounds_of_many h
  induction h with
  | last _ => cases ha
  | @stuck s s' b round _ =>
    obtain rfl := List.mem_singleton.1 ha
    exact ⟨[], s, s', .refl s, round⟩
  | @more s s₁ s' b as round _ ih =>
    rcases List.mem_cons.1 ha with rfl | ha
    · exact ⟨[], s, s₁, .refl s, round⟩
    · obtain ⟨front, hfront, -⟩ := hitem.sound s _ s₁ round
      obtain ⟨back, s₂, s₃, hback, hround⟩ := ih ha
      exact ⟨front ++ back, s₂, s₃, hfront.trans hback, hround⟩

/-- A loop lists one item if its second round gives none. -/
theorem many_of_round {s₁ : TokenStream} (hitem : ReadsOrEnds K₁ K₂ item P E) {a : α}
    (hround : item s = (.ok (some a), s₁)) (hlast : item s₁ = (.ok none, s')) :
    Parser.many item s = (.ok [a], s') := by
  have hfirst : (do return (← item).map (· :: []) : Parser (Option (List α))) s = (.ok (some [a]), s₁) :=
    Parser.bind_eq_ok_iff.2 ⟨some a, s₁, hround, rfl⟩
  have hsecond : (do return (← item).map (· :: [a]) : Parser (Option (List α))) s₁ = (.ok none, s') :=
    Parser.bind_eq_ok_iff.2 ⟨none, s', hlast, rfl⟩
  refine Parser.bind_eq_ok_iff.2 ⟨[a], s', ?_, rfl⟩
  rw [Parser.iterate, hfirst]
  simp only [hitem.left_lt hround, if_true]
  rw [Parser.iterate, hsecond]

end Rounds

/-- An item is in the list for its sort. -/
def Document.Holds (document : Document) : Definition → Prop
  | .type definition => definition ∈ document.types
  | .schema definition => definition ∈ document.schemas
  | .directive definition => definition ∈ document.directives
  | .typeExtension ext => ext ∈ document.typeExtensions
  | .schemaExtension ext => ext ∈ document.schemaExtensions

/-- A document made of items holds these and no others. -/
theorem holds_ofDefinitions_iff {items : List Definition} {item : Definition} :
    (Document.ofDefinitions items).Holds item ↔ item ∈ items := by
  rw [Document.ofDefinitions_eq]
  constructor
  · intro h
    cases item <;> obtain ⟨item, hitem, heq⟩ := List.mem_filterMap.1 h <;> cases item <;> cases heq <;> exact hitem
  · intro h
    cases item <;> exact List.mem_filterMap.2 ⟨_, h, rfl⟩

/-! ### Tokens with comments -/

/-- Some tokens that are kept, with those between them that are not. -/
theorem exists_segment {keep : Token → Bool} {tokens ts rest : List Token}
    (h : tokens.filter keep = ts ++ rest) :
    ∃ segment others, tokens = segment ++ others ∧ segment.filter keep = ts ∧
      ∀ before, Token.lastStop before segment = Token.lastStop before ts := by
  induction ts generalizing tokens with
  | nil => exact ⟨[], tokens, rfl, rfl, fun _ ↦ rfl⟩
  | cons t ts ih =>
    obtain ⟨dropped, tokens, rfl, hdropped, hkeep, hrest⟩ := List.filter_eq_cons_iff.1 h
    obtain ⟨segment, others, rfl, hsegment, hstop⟩ := ih hrest
    refine ⟨dropped ++ t :: segment, others, by simp, ?_, fun before ↦ ?_⟩
    · rw [List.filter_append, List.filter_eq_nil_iff.2 hdropped, List.nil_append,
        List.filter_cons_of_pos hkeep, hsegment]
    · rw [Token.lastStop_append, Token.lastStop_cons, Token.lastStop_cons, hstop]

/-- Moving tokens leaves what they are, so also which are comments. -/
theorem filter_isComment_map_move (f : Position → Position) (ts : List Token) :
    ((ts.map (Token.move f)).filter fun t ↦ !t.isComment) =
      (ts.filter fun t ↦ !t.isComment).map (Token.move f) :=
  List.filter_map

/-- A part of a text has the tokens that it has within the text, comments left out here and there. -/
theorem slice_of_significant {text : String} (hvalid : ∀ t ∈ Token.lex text, t.kind.IsValid)
    {front others rest : List Token} {first : Token}
    (hkept : ((Token.lex text).filter fun t ↦ !t.isComment) = front ++ first :: (others ++ rest))
    (hend : ∀ t ∈ front ++ first :: others, t.kind ≠ .endOfInput) (source : Option String) :
    ∃ part tokens stop,
      Span.slice ⟨first.span.start, Token.lastStop first.span.stop others, source⟩ text = some part ∧
        Token.lex part = tokens ++ [.endAt stop] ∧
        (tokens.filter fun t ↦ !t.isComment).map (Token.move (.bytes first.span.start.offset)) =
          (first :: others).map (Token.move (.bytes 0)) := by
  -- the first token and the others, with the comments before and between them
  obtain ⟨before, back, hlex, hbefore, -⟩ := exists_segment hkept
  rw [hlex, List.filter_append, hbefore] at hkept
  have hback := List.append_cancel_left hkept
  obtain ⟨dropped, back, rfl, hdropped, hfirst, hothers⟩ := List.filter_eq_cons_iff.1 hback
  obtain ⟨segment, after, rfl, hsegment, hstop⟩ := exists_segment hothers
  have hsplit : Token.lex text = (before ++ dropped) ++ (first :: segment ++ after) := by simp [hlex]
  have hfilter : ((first :: segment).filter fun t ↦ !t.isComment) = first :: others := by
    rw [List.filter_cons, if_pos hfirst, hsegment]
  have hvalid' : ∀ t ∈ before ++ dropped ++ first :: segment, t.kind.IsValid := by
    intro t ht
    refine hvalid t ?_
    rw [hsplit, ← List.append_assoc]
    exact List.mem_append_left _ ht
  have hend' : ∀ t ∈ before ++ dropped ++ first :: segment, t.kind ≠ .endOfInput := by
    intro t ht hkind
    have hmem : t ∈ (before ++ dropped ++ first :: segment).filter fun t ↦ !t.isComment :=
      List.mem_filter.2 ⟨ht, by simp [Token.isComment, hkind, TokenKind.sort]⟩
    rw [List.filter_append, List.filter_append, hbefore, List.filter_eq_nil_iff.2 hdropped, List.append_nil,
      hfilter] at hmem
    exact hend t hmem hkind
  obtain ⟨part, tokens, stop, hslice, hpart, hmoved⟩ := Token.lex_slice hsplit source hvalid' hend'
  refine ⟨part, tokens, stop, by rw [← hstop, hslice], hpart, ?_⟩
  rw [← filter_isComment_map_move, hmoved, filter_isComment_map_move, hfilter]

/-! ### Items by themselves -/

/-- Where nothing follows, reading goes on as at the end of the input. -/
theorem resumes_nil (f : Position → Position) (pending : List Token) : Resumes f pending [] :=
  .inr fun _ h ↦ by cases h

/-- The tokens of an item make a document with this item only, wherever they stand. -/
theorem exists_ofTokens_eq_singleton {source : Option String} {s s' : TokenStream} {item : Definition}
    (h : Parser.definition source s = (.ok (some item), s')) {ts : List Token} (hts : Taken s ts s')
    {f g : Position → Position} {tokens : List Token}
    (htokens : (tokens.filter fun t ↦ !t.isComment).map (Token.move g) = ts.map (Token.move f))
    (source' : Option String) (stop : Position) :
    ∃ item', Document.ofTokens source' (tokens ++ [.endAt stop]) = .ok (.ofDefinitions [item']) ∧
      withoutSpans item' = withoutSpans item ∧ moved g item' = moved f item := by
  obtain ⟨first, others, htaken, hpassed, -, hagain⟩ := exists_tokens_of_definition h
  obtain rfl := hpassed.eq_of_taken hts
  obtain ⟨ts', htaken', hphrase⟩ := (reads_definition source).sound s _ s' h
  obtain rfl := hpassed.eq_of_taken htaken'
  generalize hus : (tokens.filter fun t ↦ !t.isComment) = us at htokens
  have hkinds : us.map Token.kind = (first :: others).map Token.kind := by
    rw [← Token.map_kind_map_move g us, htokens, Token.map_kind_map_move]
  -- the item is read, and then there is no other
  rw [← hkinds] at hphrase
  obtain ⟨item', e, hround, hitem'⟩ := (reads_definition source').more .origin us [.endAt stop] _ hphrase
    (free_cons.2 (by simp [itemEnd, Token.endAt]))
  obtain ⟨e', hlast⟩ := (reads_definition source').last e [] [.endAt stop] ⟨rfl, rfl⟩
    (free_cons.2 (by simp [inputGoesOn, Token.endAt]))
  have hitems := many_of_round (reads_definition source') hround hlast
  have hstream : TokenStream.ofTokens (tokens ++ [.endAt stop]) = .after .origin (us ++ [.endAt stop]) := by
    rw [TokenStream.ofTokens, List.filter_append, hus]
    rfl
  have hdocument : Parser.document source' (.ofTokens (tokens ++ [.endAt stop])) =
      (.ok (.ofDefinitions [item']), .after e' [.endAt stop]) := by
    rw [hstream]
    exact Parser.bind_eq_ok_iff.2 ⟨[item'], _, hitems, rfl⟩
  refine ⟨item', congrArg Prod.fst hdocument, hitem', ?_⟩
  -- moved, the tokens are the same, and so is what is read from them
  obtain ⟨first', others', htaken', -, -, hagain'⟩ := exists_tokens_of_definition hround
  have hus' : us = first' :: others' := List.append_cancel_right htaken'.pending_eq
  have hmoved := hagain f .origin [] (resumes_nil f _)
  have hmoved' := hagain' g .origin [] (resumes_nil g _)
  rw [← hus', htokens, hmoved] at hmoved'
  have heq := congrArg Prod.fst hmoved'
  exact (Option.some.inj (Except.ok.inj heq)).symm

/-- **The text of an item is that item.** The span of an item cuts a text out of the text it was read from.
That text is read as a document with one item, which is the same item apart from its spans; and any byte
offset in it is as far behind the beginning of the text as the corresponding offset in the item is behind
the beginning of the item. -/
theorem item_reads_alone {source : Option String} {text : String} {document : Document}
    (h : Document.ofTokens source (Token.lex text) = .ok document) {item : Definition}
    (hitem : document.Holds item) (source' : Option String) :
    ∃ part item', item.span.slice text = some part ∧
      Document.ofTokens source' (Token.lex part) = .ok (.ofDefinitions [item']) ∧
      withoutSpans item' = withoutSpans item ∧
      moved (.bytes item.span.start.offset) item' = moved (.bytes 0) item := by
  have hdocument : Parser.document source (.ofTokens (Token.lex text)) = (.ok document, _) := Prod.ext h rfl
  obtain ⟨items, s', hitems, heq⟩ := Parser.bind_eq_ok_iff.1 hdocument
  obtain ⟨hitems_eq, -⟩ := Prod.mk.inj heq
  obtain rfl := Except.ok.inj hitems_eq
  obtain ⟨front, s₁, s₂, hfront, hround⟩ :=
    exists_round_of_mem (reads_definition source) hitems (holds_ofDefinitions_iff.1 hitem)
  -- the tokens of the item, from its first to its last
  obtain ⟨first, others, htaken, hpassed, hspan, -⟩ := exists_tokens_of_definition hround
  have hkept : ((Token.lex text).filter fun t ↦ !t.isComment) = front ++ first :: (others ++ s₂.pending) := by
    rw [← List.cons_append, ← htaken.pending_eq]
    exact hfront.pending_eq
  obtain ⟨part, tokens, stop, hslice, hpart, htokens⟩ :=
    slice_of_significant (isValid_of_ofTokens_eq h) hkept (hfront.trans htaken).kind_ne source
  obtain ⟨item', hread, hwithout, hmoved⟩ :=
    exists_ofTokens_eq_singleton hround htaken htokens source' stop
  have hextent : item.span = ⟨first.span.start, Token.lastStop first.span.stop others, source⟩ := by
    rw [hspan, hpassed.lastEnd_eq, Token.lastStop_cons]
  rw [hextent]
  exact ⟨part, item', hslice, by rw [hpart, hread], hwithout, hmoved⟩

/-- An item on a second line, behind a comment, with a description that belongs to it. -/
theorem item_reads_alone_on_second_line :
    ∃ document item, Document.ofTokens none (Token.lex "scalar A #\n\"B\" scalar B") = .ok document ∧
      document.Holds item ∧ ∃ part item', item.span.slice "scalar A #\n\"B\" scalar B" = some part ∧
        Document.ofTokens none (Token.lex part) = .ok (.ofDefinitions [item']) ∧
        withoutSpans item' = withoutSpans item ∧
        moved (.bytes item.span.start.offset) item' = moved (.bytes 0) item := by
  let a : TypeDefinition := ⟨none, "A", [], .scalar, ⟨.origin, ⟨0, 8, 8, 8⟩, none⟩⟩
  let b : TypeDefinition := ⟨some "\"B\"", "B", [], .scalar, ⟨⟨1, 0, 0, 11⟩, ⟨1, 12, 12, 23⟩, none⟩⟩
  have hread : Document.ofTokens none (Token.lex "scalar A #\n\"B\" scalar B") =
      .ok ⟨[a, b], [], [], [], []⟩ := by
    decide +kernel
  have hitem : Document.Holds ⟨[a, b], [], [], [], []⟩ (.type b) := List.mem_cons_of_mem _ List.mem_cons_self
  exact ⟨_, .type b, hread, hitem, item_reads_alone hread hitem none⟩

end TypeSystem
