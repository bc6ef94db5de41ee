import TypeSystem.Proofs.Reading.Relocation
import TypeSystem.Proofs.Syntax.Outline

/-!
# Nodes and the tokens they are read from

A node is read from a run of tokens. Its span begins where the first of them begins, which was looked at
before anything was taken, and ends where the last of them ends, no matter whether the next token was looked
at as well; and the nodes inside it are read from tokens of the same run. So the outline of what a parser
gives lies over the tokens that the parser takes (`Parser.Outlines`).

A node has its span only when all of it has been read. In the course of this some of the nodes inside are
known, and the laws say what becomes of these with those that are still to come (`Parser.Builds`).
-/

namespace TypeSystem

open HasOutline (outline)

namespace Parser

variable {α β : Type} [HasOutline α] [HasOutline β] {source : Option String}
  {whole : Position → Outline → Outline} {inside : Outline} {s s' : TokenStream}

/-- The nodes known so far, and behind them nodes over the tokens that the parser takes, make the outline of
what it gives: `whole` puts them together, given where the last token taken ended. -/
def Builds (source : Option String) (whole : Position → Outline → Outline) (inside : Outline) (p : Parser α) :
    Prop :=
  ∀ s a s', p s = (.ok a, s') → ∃ ts nodes, Passed s ts s' ∧ nodes.Over source ts ∧
    outline a = whole s'.lastEnd (inside ++ nodes)

/-- What the parser gives has nodes over the tokens that the parser takes, and no others. -/
abbrev Outlines (source : Option String) (p : Parser α) : Prop :=
  Builds source (fun _ nodes ↦ nodes) .nil p

/-- The parser reads the rest of a node that began at `start`. -/
abbrev Finishes (source : Option String) (start : Position) (inside : Outline) (p : Parser α) : Prop :=
  Builds source (fun stop nodes ↦ .cons ⟨start, stop, source⟩ nodes .nil) inside p

/-- What a parser gives lies over the tokens that it takes. -/
theorem Outlines.exists_over {p : Parser α} (hp : Outlines source p) {a : α} (h : p s = (.ok a, s')) :
    ∃ ts, Passed s ts s' ∧ (outline a).Over source ts := by
  obtain ⟨ts, nodes, hts, hnodes, heq⟩ := hp s a s' h
  rw [heq]
  exact ⟨ts, hts, hnodes⟩

/-- A node that begins with the first token taken lies over the tokens taken. -/
theorem Finishes.exists_over {p : Parser α} (hp : Finishes source s.current.span.start .nil p)
    (hadvances : p.Advances) {a : α} (h : p s = (.ok a, s')) :
    ∃ ts, Passed s ts s' ∧ (outline a).Over source ts := by
  obtain ⟨ts, nodes, hts, hnodes, heq⟩ := hp s a s' h
  refine ⟨ts, hts, ?_⟩
  obtain ⟨first, run, rfl⟩ := List.exists_cons_of_ne_nil (hadvances.ne_nil h hts)
  have hfirst : s.current = first := by
    rw [TokenStream.current, hts.pending_eq]
    rfl
  rw [heq, hfirst, hts.lastEnd_eq]
  have hnode := Outline.Over.cons [] hnodes (.nil [])
  rwa [List.nil_append, List.append_nil] at hnode

namespace Builds

/-- A parser that reads no nodes, and then another. -/
theorem step {γ : Type} {p : Parser γ} [p.LooksOneAhead] {k : γ → Parser α}
    (hk : ∀ c, Builds source whole inside (k c)) : Builds source whole inside (p >>= k) := by
  intro s a s' h
  obtain ⟨c, s₁, hc, ha⟩ := bind_eq_ok_iff.1 h
  obtain ⟨front, hfront, -⟩ := LooksOneAhead.exists_passed hc
  obtain ⟨back, nodes, hback, hnodes, heq⟩ := hk c s₁ a s' ha
  exact ⟨front ++ back, nodes, hfront.trans hback, (Outline.Over.nil front).append hnodes, heq⟩

/-- A parser that reads nodes of the part that is still to come, and then another. -/
theorem child {p : Parser β} {k : β → Parser α} (hp : Outlines source p)
    (hk : ∀ b, Builds source whole (inside ++ outline b) (k b)) :
    Builds source whole inside (p >>= k) := by
  intro s a s' h
  obtain ⟨b, s₁, hb, ha⟩ := bind_eq_ok_iff.1 h
  obtain ⟨front, hfront, hover⟩ := hp.exists_over hb
  obtain ⟨back, nodes, hback, hnodes, heq⟩ := hk b s₁ a s' ha
  refine ⟨front ++ back, outline b ++ nodes, hfront.trans hback, hover.append hnodes, ?_⟩
  rw [heq, Outline.append_assoc]

/-- What is made at the end has the outline that was built. -/
theorem pure {a : α} (h : ∀ stop, outline a = whole stop inside) :
    Builds source whole inside (Pure.pure a : Parser α) := by
  rintro s _ _ ⟨⟩
  refine ⟨[], .nil, .refl s, .nil [], ?_⟩
  rw [Outline.append_nil]
  exact h _

/-- What has the same outline. -/
theorem wrapped {p : Parser β} {wrap : β → α} (hp : Builds source whole inside p)
    (hwrap : ∀ b, outline (wrap b) = outline b) : Builds source whole inside (do return wrap (← p)) := by
  intro s a s' h
  obtain ⟨b, s₁, hb, ha⟩ := bind_eq_ok_iff.1 h
  cases ha
  rw [hwrap]
  exact hp s b s' hb

/-- What fails builds nothing. -/
theorem failing {p : Parser α} [p.AlwaysFails] : Builds source whole inside p :=
  fun s a s' h ↦ absurd h (AlwaysFails.ne_ok s a s')

/-- A choice builds what either side does. -/
theorem ite {condition : Prop} [Decidable condition] {p q : Parser α} (hp : Builds source whole inside p)
    (hq : Builds source whole inside q) : Builds source whole inside (if condition then p else q) := by
  split
  · exact hp
  · exact hq

/-- A node that gets its span at the end. -/
theorem last {start : Position} {node : Span → α}
    (hnode : ∀ span, outline (node span) = .cons span inside .nil) :
    Finishes source start inside (do return node (← Parser.spanFrom source start)) := by
  rintro s _ _ ⟨⟩
  refine ⟨[], .nil, .refl s, .nil [], ?_⟩
  rw [Outline.append_nil]
  exact hnode _

/-- A node, which begins where the next token does. -/
theorem here {k : Position → Parser α} (hk : ∀ start, Finishes source start .nil (k start))
    (hadvances : ∀ start, (k start).Advances) : Outlines source (Parser.here >>= k) := by
  intro s a s' h
  obtain ⟨ts, hts, hover⟩ := (hk s.current.span.start).exists_over (hadvances _) (s := s) h
  exact ⟨ts, outline a, hts, hover, rfl⟩

/-! ### Loops and blocks -/

/-- The rounds of a loop take the tokens under the nodes of the items that they give. -/
theorem exists_over_of_rounds {item : Parser (Option α)} (hitem : Outlines source item) {as : List α}
    (h : Rounds item s as s') : ∃ ts, Passed s ts s' ∧ (outline as).Over source ts := by
  induction h with
  | last ends =>
    obtain ⟨ts, hts, -⟩ := hitem.exists_over ends
    exact ⟨ts, hts, .nil ts⟩
  | stuck round _ =>
    obtain ⟨ts, hts, hover⟩ := hitem.exists_over round
    refine ⟨ts, hts, ?_⟩
    rw [HasOutline.outline_cons, HasOutline.outline_nil, Outline.append_nil]
    exact hover
  | more round _ ih =>
    obtain ⟨front, hfront, hover⟩ := hitem.exists_over round
    obtain ⟨back, hback, hovers⟩ := ih
    refine ⟨front ++ back, hfront.trans hback, ?_⟩
    rw [HasOutline.outline_cons]
    exact hover.append hovers

/-- A loop builds the nodes of its items, one behind the other. -/
theorem many {item : Parser (Option α)} (hitem : Outlines source item) :
    Outlines source (Parser.many item) := by
  intro s as s' h
  obtain ⟨ts, hts, hover⟩ := exists_over_of_rounds hitem (rounds_of_many h)
  exact ⟨ts, outline as, hts, hover, rfl⟩

theorem unlessMark {p : Punctuator} {item : Parser α} (hitem : Outlines source item) :
    Outlines source (Parser.unlessMark p item) :=
  .step fun _ ↦ .ite (.pure fun _ ↦ rfl) (.wrapped hitem fun _ ↦ rfl)

theorem block {brackets : Brackets} {construct : String} {item : Parser α} (hitem : Outlines source item) :
    Outlines source (Parser.block brackets construct item) :=
  .step fun _ ↦ .step fun _ ↦ .many (.unlessMark hitem)

theorem optionalBlock {brackets : Brackets} {construct : String} {item : Parser α}
    (hitem : Outlines source item) : Outlines source (Parser.optionalBlock brackets construct item) :=
  .step fun _ ↦ .ite (.block hitem) (.pure fun _ ↦ rfl)

theorem members {mayLack : Bool} {construct : String} {item : Parser α} (hitem : Outlines source item) :
    Outlines source (Parser.members mayLack construct item) :=
  .ite (.optionalBlock hitem) (.block hitem)

end Builds

end Parser

/-! ### The grammar -/

section Grammar

open TypeSystem.Parser (Outlines Finishes)

variable (source : Option String)

theorem outlines_appliedDirective : Outlines source (Parser.appliedDirective source) := by
  refine .here (fun start ↦ .step fun _ ↦ .step fun name ↦ .step fun arguments ↦ ?_) fun start ↦
    .first (.mark _)
  exact .last fun span ↦ rfl

theorem outlines_appliedDirectives : Outlines source (Parser.appliedDirectives source) :=
  .many <| .step fun _ ↦ .ite (.wrapped (outlines_appliedDirective source) fun _ ↦ rfl) (.pure fun _ ↦ rfl)

theorem outlines_inputValue : Outlines source (Parser.inputValue source) := by
  refine .here (fun start ↦ ?_) fun start ↦ .second fun _ ↦ .first (.name _)
  refine .step fun description ↦ .step fun name ↦ .step fun _ ↦ .step fun type ↦ .step fun value ↦ ?_
  exact .child (outlines_appliedDirectives source) fun directives ↦ .last fun span ↦ rfl

theorem outlines_arguments : Outlines source (Parser.arguments source) :=
  .optionalBlock (outlines_inputValue source)

theorem outlines_field : Outlines source (Parser.field source) := by
  refine .here (fun start ↦ ?_) fun start ↦ .second fun _ ↦ .first (.name _)
  refine .step fun description ↦ .step fun name ↦ .child (outlines_arguments source) fun arguments ↦ ?_
  refine .step fun _ ↦ .step fun type ↦ ?_
  exact .child (outlines_appliedDirectives source) fun directives ↦ .last fun span ↦ rfl

theorem outlines_enumValue : Outlines source (Parser.enumValue source) := by
  refine .here (fun start ↦ ?_) fun start ↦ .second fun _ ↦ .first (.requireName _)
  refine .step fun description ↦ .step fun found ↦ ?_
  obtain ⟨name, span⟩ := found
  exact .ite .failing <| .child (outlines_appliedDirectives source) fun directives ↦ .last fun span ↦ rfl

theorem outlines_typeBody (mayLack : Bool) (kind : TypeKind) :
    Outlines source (Parser.typeBody source mayLack kind) := by
  have hdirectives := outlines_appliedDirectives source
  cases kind with
  | scalar =>
    refine .wrapped hdirectives fun directives ↦ ?_
    exact Outline.append_nil _
  | object | interface =>
    exact .step fun interfaces ↦ .child hdirectives fun directives ↦
      .child (.members (outlines_field source)) fun fields ↦ .pure fun _ ↦ rfl
  | union =>
    refine .child hdirectives fun directives ↦ .ite (.step fun members ↦ ?_)
      (.step fun _ ↦ .step fun members ↦ ?_)
    all_goals exact .pure fun _ ↦ Outline.append_nil _
  | enum =>
    exact .child hdirectives fun directives ↦
      .child (.members (outlines_enumValue source)) fun values ↦ .pure fun _ ↦ rfl
  | inputObject =>
    exact .child hdirectives fun directives ↦
      .child (.members (outlines_inputValue source)) fun fields ↦ .pure fun _ ↦ rfl

variable (start : Position)

theorem finishes_typeDefinition (kind : TypeKind) (description : Option String) :
    Finishes source start .nil (Parser.typeDefinition source kind description start) := by
  refine .step fun _ ↦ .step fun name ↦ .child (outlines_typeBody source false kind) fun r ↦ ?_
  obtain ⟨directives, body⟩ := r
  exact .last fun span ↦ rfl

theorem finishes_typeExtension (kind : TypeKind) :
    Finishes source start .nil (Parser.typeExtension source kind start) := by
  refine .step fun _ ↦ .step fun name ↦ .child (outlines_typeBody source true kind) fun r ↦ ?_
  obtain ⟨directives, body⟩ := r
  exact .ite .failing (.last fun span ↦ rfl)

theorem finishes_directiveDefinition (description : Option String) :
    Finishes source start .nil (Parser.directiveDefinition source description start) := by
  refine .step fun _ ↦ .step fun _ ↦ .step fun name ↦ .child (outlines_arguments source) fun arguments ↦ ?_
  exact .step fun repeatable ↦ .step fun _ ↦ .step fun locations ↦ .last fun span ↦ rfl

theorem finishes_schemaDefinition (description : Option String) :
    Finishes source start .nil (Parser.schemaDefinition source description start) :=
  .step fun _ ↦ .child (outlines_appliedDirectives source) fun _ ↦ .step fun _ ↦ .last fun _ ↦ rfl

theorem finishes_schemaExtension :
    Finishes source start .nil (Parser.schemaExtension source start) := by
  refine .step fun _ ↦ .child (outlines_appliedDirectives source) fun directives ↦ .step fun braces ↦ ?_
  exact .ite (.step fun roots ↦ .last fun span ↦ rfl) (.ite .failing (.last fun span ↦ rfl))

theorem finishes_extension : Finishes source start .nil (Parser.extension source start) := by
  refine .step fun _ ↦ .step fun keyword ↦ ?_
  cases TypeKind.ofKeyword? keyword with
  | some kind => exact .wrapped (finishes_typeExtension source start kind) fun _ ↦ rfl
  | none => exact .ite (.wrapped (finishes_schemaExtension source start) fun _ ↦ rfl) .failing

theorem finishes_definitionOf (keyword : String) (description : Option String) :
    Finishes source start .nil (Parser.definitionOf source keyword description start) := by
  unfold Parser.definitionOf
  cases TypeKind.ofKeyword? keyword with
  | some kind => exact .wrapped (finishes_typeDefinition source start kind description) fun _ ↦ rfl
  | none =>
    exact .ite (.wrapped (finishes_directiveDefinition source start description) fun _ ↦ rfl) <|
      .ite (.wrapped (finishes_schemaDefinition source start description) fun _ ↦ rfl) <|
      .ite (.ite (finishes_extension source start) .failing) .failing

variable {start}

/-- An item lies over its tokens. -/
theorem outlines_definition : Outlines source (Parser.definition source) := by
  intro s found s' h
  cases found with
  | some item =>
    obtain ⟨description, s₁, keyword, hdescription, -, hitem⟩ := (definition_eq_some_iff source).1 h
    have hboth : (do
        let description ← Parser.description?
        Parser.definitionOf source keyword description s.current.span.start) s = (.ok item, s') :=
      Parser.bind_eq_ok_iff.2 ⟨description, s₁, hdescription, hitem⟩
    obtain ⟨ts, hts, hover⟩ := Finishes.exists_over (s := s) (.step fun description ↦
      finishes_definitionOf source _ keyword description)
      (.second fun description ↦ advances_definitionOf source keyword description) hboth
    exact ⟨ts, outline item, hts, hover, rfl⟩
  | none =>
    obtain ⟨hdescription, -⟩ := (definition_eq_none_iff source).1 h
    obtain ⟨ts, hts, -⟩ := Parser.LooksOneAhead.exists_passed hdescription
    exact ⟨ts, .nil, hts, .nil ts, rfl⟩

end Grammar

/-- **A document is laid over its tokens.** When tokens are read as a document, its items are read from runs
of these tokens, one behind the other, and every node within them from a part of the run for the node around
it, comments left out. -/
theorem over_of_ofTokens_eq {source : Option String} {tokens : List Token} {document : Document}
    (h : Document.ofTokens source tokens = .ok document) :
    ∃ items, document = .ofDefinitions items ∧
      (outline items).Over source (tokens.filter fun t ↦ !t.isComment) := by
  obtain ⟨items, hitems, rfl⟩ := document_eq_ok_iff.1 (Prod.ext h rfl)
  obtain ⟨ts, hts, hover⟩ := (Parser.Builds.many (outlines_definition source)).exists_over hitems
  refine ⟨items, rfl, ?_⟩
  have hpending : (tokens.filter fun t ↦ !t.isComment) = ts ++ _ := hts.pending_eq
  rw [hpending]
  exact hover.more _

/-- The span of a node runs from the start of one token to the end of another, and names the source. -/
theorem extent_of_mem_spans {source : Option String} {tokens : List Token} {document : Document}
    (h : Document.ofTokens source tokens = .ok document) {span : Span} (hspan : span ∈ (outline document).spans) :
    Token.Extent (tokens.filter fun t ↦ !t.isComment) span ∧ span.source = source := by
  obtain ⟨items, rfl, hover⟩ := over_of_ofTokens_eq h
  exact hover.extent (mem_spans_ofDefinitions.1 hspan)

end TypeSystem
