import Mathlib.Data.List.TakeWhile
import TypeSystem.Proofs.Reading.Layout
import TypeSystem.Proofs.Reading.Extents
import TypeSystem.Proofs.Syntax.Nesting

/-!
# Documents cover their texts

An item is read from the tokens that come next, and its span covers all of them. So the items of a document
cover the tokens of a text up to the end of the input, but for comments (`exists_covers_of_ofTokens_eq`). The
tokens of a text are in order, and what nodes over tokens in order are like is known; so the nodes of a
document are nested, and no token is lost (`covers_of_ofTokens_eq`).
-/

namespace TypeSystem

open HasOutline (outline)

variable {source : Option String} {s s' : TokenStream}

/-! ### Items and the tokens they are read from -/

/-- Every item is one node, with others inside. -/
theorem exists_outline_eq (item : Definition) : ∃ inside, outline item = .cons item.span inside .nil := by
  cases item <;> exact ⟨_, rfl⟩

/-- An item covers the tokens taken. -/
theorem exists_covers_of_definition {item : Definition}
    (h : Parser.definition source s = (.ok (some item), s')) :
    ∃ ts, Taken s ts s' ∧ (outline item).Covers source ts := by
  obtain ⟨first, run, htaken, hpassed, hspan, -⟩ := exists_tokens_of_definition h
  obtain ⟨ts, hts, hover⟩ := (outlines_definition source).exists_over h
  obtain rfl := hts.eq_of_taken htaken
  obtain ⟨inside, heq⟩ := exists_outline_eq item
  have hover : (outline item).Over source (first :: run) := hover
  rw [heq] at hover ⊢
  rw [hspan, hpassed.lastEnd_eq, Token.lastStop_cons]
  have hcovers := Outline.Covers.cons hover.inside .nil
  rw [List.append_nil] at hcovers
  exact ⟨_, htaken, hcovers⟩

/-- Where no item comes, nothing is taken. -/
theorem taken_nil_of_definition (h : Parser.definition source s = (.ok none, s')) : Taken s [] s' := by
  obtain ⟨ts, htaken, hphrase⟩ := (reads_definition source).sound s none s' h
  obtain rfl := List.map_eq_nil_iff.1 hphrase.1
  exact htaken

/-- The items of a document cover the tokens taken. -/
theorem exists_covers_of_rounds {items : List Definition}
    (h : Parser.Rounds (Parser.definition source) s items s') :
    ∃ ts, Taken s ts s' ∧ (outline items).Covers source ts := by
  induction h with
  | last ends => exact ⟨[], taken_nil_of_definition ends, .nil⟩
  | stuck round not_lt => exact absurd ((reads_definition source).left_lt round) not_lt
  | more round _ ih =>
    obtain ⟨front, hfront, hcovers⟩ := exists_covers_of_definition round
    obtain ⟨back, hback, hothers⟩ := ih
    exact ⟨front ++ back, hfront.trans hback, hcovers.append hothers⟩

variable {document : Document}

/-- The items of a document cover all tokens that mean something. -/
theorem exists_covers_of_ofTokens_eq {tokens : List Token} (h : Document.ofTokens source tokens = .ok document) :
    ∃ items, document = .ofDefinitions items ∧ (outline items).Covers source (Token.meaningful tokens) := by
  have hdocument : Parser.document source (.ofTokens tokens) = (.ok document, _) := Prod.ext h rfl
  obtain ⟨items, hitems, rfl⟩ := document_eq_ok_iff.1 hdocument
  obtain ⟨ts, htaken, hcovers⟩ := exists_covers_of_rounds (Parser.rounds_of_many hitems)
  obtain rfl := eq_meaningful_of_taken htaken (current_of_document hdocument)
  exact ⟨items, rfl, hcovers⟩

/-! ### Texts -/

/-- The nodes of a document lie in a text, of which the name and the tokens are given, like brackets, and the
outermost ones leave out nothing but comments. -/
structure Document.Covers (document : Document) (source : Option String) (tokens : List Token) : Prop where
  /-- A node begins where a token begins and ends where a token ends. -/
  ends : ∀ span ∈ (outline document).spans, ∃ first ∈ tokens, ∃ last ∈ tokens,
    span.start = first.span.start ∧ span.stop = last.span.stop
  /-- No node is empty. -/
  nonempty : ∀ span ∈ (outline document).spans, span.start.offset < span.stop.offset
  /-- A node has the name of the text, or none if the text has none. -/
  source_eq : ∀ span ∈ (outline document).spans, span.source = source
  /-- In each list, nodes beside each other are disjoint and in order, at every depth, and each contains those
  inside it. -/
  nested : ∀ nodes ∈ document.outlines, nodes.Nested
  /-- The outermost nodes of all lists are disjoint. -/
  disjoint : (outline document).tops.Pairwise Span.Disjoint
  /-- Every token but comments and the end of the input is within exactly one of the outermost nodes. -/
  countP_contains : ∀ t ∈ tokens, ¬ t.isComment → t.kind ≠ .endOfInput →
    (outline document).tops.countP (fun span ↦ span.Contains t.span) = 1

namespace Token

variable {text : String} {tokens : List Token} {t : Token}

/-- The tokens that mean something are some of the tokens. -/
theorem meaningful_sublist (tokens : List Token) : (meaningful tokens).Sublist tokens :=
  List.filter_sublist.trans (List.takeWhile_sublist _)

theorem kind_ne_of_mem_meaningful (ht : t ∈ meaningful tokens) : t.kind ≠ .endOfInput := by
  simpa using List.mem_takeWhile_imp (List.mem_filter.1 ht).1

namespace Cover

theorem mem_meaningful (h : Cover text tokens) (ht : t ∈ tokens) (hcomment : ¬ t.isComment)
    (hkind : t.kind ≠ .endOfInput) : t ∈ meaningful tokens := by
  obtain ⟨others, stop, rfl, -, hothers⟩ := h.ends
  have hgoesOn : ∀ t ∈ others, decide (t.kind ≠ .endOfInput) = true := by simpa using hothers
  refine List.mem_filter.2 ⟨?_, by simpa using hcomment⟩
  rw [List.takeWhile_append_of_pos hgoesOn]
  rcases List.mem_append.1 ht with ht | ht
  · exact List.mem_append_left _ ht
  · obtain rfl := List.mem_singleton.1 ht
    exact absurd rfl hkind

/-- They stand in order, as all tokens of a text do. -/
theorem inOrder_meaningful (h : Cover text tokens) : InOrder (meaningful tokens) where
  nonempty t ht := h.nonempty t ((meaningful_sublist tokens).subset ht) (kind_ne_of_mem_meaningful ht)
  ordered := h.ordered.sublist (meaningful_sublist tokens)

end Cover

end Token

/-- **A document covers its text.** Each node runs from the start of a token to the end of one and names the
text; the nodes are nested and in order; and every token that means something is in exactly one item. -/
theorem covers_of_ofTokens_eq {text : String} (h : Document.ofTokens source (Token.lex text) = .ok document) :
    document.Covers source (Token.lex text) := by
  have hcover : Token.Cover text (Token.lex text) := (Token.tiling_lexFrom .origin text.toList).cover
  obtain ⟨items, rfl, hcovers⟩ := exists_covers_of_ofTokens_eq h
  have hinOrder := hcover.inOrder_meaningful
  have hsubset := (Token.meaningful_sublist (Token.lex text)).subset
  have hnested := hcovers.toOver.nested hinOrder
  have hextent {span : Span} (hspan : span ∈ (outline (Document.ofDefinitions items)).spans) :=
    hcovers.toOver.extent (mem_spans_ofDefinitions.1 hspan)
  refine ⟨fun span hspan ↦ ?_, fun span hspan ↦ hinOrder.start_lt_stop (hextent hspan).1,
    fun span hspan ↦ (hextent hspan).2, fun nodes ↦ nested_of_mem_outlines hnested, ?_,
    fun t ht hcomment hkind ↦ ?_⟩
  · obtain ⟨first, hfirst, last, hlast, hends⟩ := (hextent hspan).1.exists_ends
    exact ⟨first, hsubset hfirst, last, hsubset hlast, hends⟩
  · rw [(perm_tops_ofDefinitions items).pairwise_iff Span.Disjoint.symm]
    exact hnested.pairwise_before.imp .inl
  · rw [(perm_tops_ofDefinitions items).countP_eq]
    exact hcovers.countP_contains hinOrder (hcover.mem_meaningful ht hcomment hkind)

/-- A definition with a node in a node, and an extension, so that two of the lists are not empty. -/
theorem covers_of_ofTokens_eq_two_lists :
    ∃ document, Document.ofTokens (some "a") (Token.lex "type A {b(c: D @e): F}\nextend scalar G @h # i") =
      .ok document ∧ document.Covers (some "a") (Token.lex "type A {b(c: D @e): F}\nextend scalar G @h # i") := by
  let e : AppliedDirective := ⟨"e", [], ⟨⟨0, 15, 15, 15⟩, ⟨0, 17, 17, 17⟩, some "a"⟩⟩
  let c : InputValueDefinition :=
    ⟨none, "c", .named "D" .nullable, none, [e], ⟨⟨0, 10, 10, 10⟩, ⟨0, 17, 17, 17⟩, some "a"⟩⟩
  let b : FieldDefinition :=
    ⟨none, "b", [c], .named "F" .nullable, [], ⟨⟨0, 8, 8, 8⟩, ⟨0, 21, 21, 21⟩, some "a"⟩⟩
  let a : TypeDefinition := ⟨none, "A", [], .object [] [b], ⟨.origin, ⟨0, 22, 22, 22⟩, some "a"⟩⟩
  let h : AppliedDirective := ⟨"h", [], ⟨⟨1, 16, 16, 39⟩, ⟨1, 18, 18, 41⟩, some "a"⟩⟩
  let g : TypeExtension := ⟨"G", [h], .scalar, ⟨⟨1, 0, 0, 23⟩, ⟨1, 18, 18, 41⟩, some "a"⟩⟩
  have hread : Document.ofTokens (some "a") (Token.lex "type A {b(c: D @e): F}\nextend scalar G @h # i") =
      .ok ⟨[a], [], [], [g], []⟩ := by
    decide +kernel
  exact ⟨_, hread, covers_of_ofTokens_eq hread⟩

end TypeSystem
