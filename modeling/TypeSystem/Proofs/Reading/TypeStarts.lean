import Mathlib.Data.List.Nodup
import TypeSystem.Proofs.Reading.Relocation
import TypeSystem.Proofs.Reading.TypePlaces

/-!
# Where nodes with a type begin

A node that has a type begins at a token of its own: it is made of a description and a name before anything
within it is looked at, so the nodes in it begin further on. What a parser gives has its nodes begin at tokens
that the parser takes, one behind the other (`Parser.Starts`), and no two tokens of a text begin together. So
where a node begins says which node it is, and there is one type there at most (`type_eq_of_mem_nodeTypes`).
-/

namespace TypeSystem

open HasTypes (nodeTypes)

variable {α β γ δ : Type}

/-- Where the nodes begin that have a type. -/
def HasTypes.starts [HasTypes α] (a : α) : List Position := (nodeTypes a).map Prod.fst

open HasTypes (starts)

namespace Token

/-- Where tokens begin. -/
def starts (ts : List Token) : List Position := ts.map fun t ↦ t.span.start

/-- Tokens of two runs begin where those of both do. -/
theorem starts_append (ts us : List Token) : starts (ts ++ us) = starts ts ++ starts us :=
  List.map_append

/-- No two tokens of a text begin together. -/
theorem nodup_starts_lexFrom (place : Place) (cs : List Char) : (starts (lexFrom place cs)).Nodup := by
  suffices hlt : (lexFrom place cs).Pairwise fun t u ↦ t.span.start.offset < u.span.start.offset from
    List.pairwise_map.2 (hlt.imp fun hlt heq ↦ hlt.ne (congrArg Position.offset heq))
  have htiling := tiling_lexFrom place cs
  generalize lexFrom place cs = ts at htiling
  induction htiling with
  | last ignored => exact List.pairwise_singleton _ _
  | @token place gap part back kind ts ignored part_ne_nil kind_ne writes others ih =>
    refine List.pairwise_cons.2 ⟨fun u hu ↦ ?_, ih⟩
    have hwidth : 0 < Text.width part := Text.width_pos part_ne_nil
    have hstart := others.start_le hu
    rw [Place.offset_past] at hstart
    show (place.past gap).pos.offset < _
    omega

end Token

namespace Parser

variable [HasTypes α] [HasTypes β] {known : List Position} {s s' : TokenStream}

/-- The nodes with a type begin at `known`, as far as they have been read, and the others, one behind the other,
at tokens that the parser takes. -/
def Starts (known : List Position) (p : Parser α) : Prop :=
  ∀ s a s', p s = (.ok a, s') → ∃ ts, Passed s ts s' ∧ (starts a).Sublist (known ++ Token.starts ts)

namespace Starts

/-- A parser that reads no nodes with a type, and then another. -/
theorem step {p : Parser γ} [p.LooksOneAhead] {k : γ → Parser α} (hk : ∀ c, Starts known (k c)) :
    Starts known (p >>= k) := by
  intro s a s' h
  obtain ⟨c, s₁, hc, ha⟩ := bind_eq_ok_iff.1 h
  obtain ⟨front, hfront, -⟩ := LooksOneAhead.exists_passed hc
  obtain ⟨back, hback, hsub⟩ := hk c s₁ a s' ha
  refine ⟨front ++ back, hfront.trans hback, hsub.trans ?_⟩
  rw [Token.starts_append]
  exact (List.sublist_append_right _ _).append_left known

/-- A parser that reads some of the nodes, and then another. -/
theorem child {p : Parser β} {k : β → Parser α} (hp : Starts [] p)
    (hk : ∀ b, Starts (known ++ starts b) (k b)) : Starts known (p >>= k) := by
  intro s a s' h
  obtain ⟨b, s₁, hb, ha⟩ := bind_eq_ok_iff.1 h
  obtain ⟨front, hfront, hbefore⟩ := hp s b s₁ hb
  obtain ⟨back, hback, hsub⟩ := hk b s₁ a s' ha
  refine ⟨front ++ back, hfront.trans hback, hsub.trans ?_⟩
  rw [Token.starts_append, List.append_assoc]
  exact (hbefore.append_right _).append_left known

/-- What is made at the end has begun where it was known. -/
theorem pure {a : α} (h : starts a = known) : Starts known (Pure.pure a : Parser α) := by
  rintro s _ _ ⟨⟩
  refine ⟨[], .refl s, ?_⟩
  rw [h]
  exact List.sublist_append_left _ _

/-- What has the same nodes. -/
theorem wrapped {p : Parser β} {wrap : β → α} (hp : Starts known p)
    (hwrap : ∀ b, starts (wrap b) = starts b) : Starts known (do return wrap (← p)) := by
  intro s a s' h
  obtain ⟨b, s₁, hb, ha⟩ := bind_eq_ok_iff.1 h
  cases ha
  rw [hwrap]
  exact hp s b s' hb

/-- What fails makes no node. -/
theorem failing {p : Parser α} [p.AlwaysFails] : Starts known p :=
  fun s a s' h ↦ absurd h (AlwaysFails.ne_ok s a s')

/-- A choice makes what either side does. -/
theorem ite {condition : Prop} [Decidable condition] {p q : Parser α} (hp : Starts known p)
    (hq : Starts known q) : Starts known (if condition then p else q) := by
  split
  · exact hp
  · exact hq

/-- What gets its span at the end. -/
theorem last {source : Option String} {start : Position} {node : Span → α}
    (hnode : ∀ span : Span, span.start = start → starts (node span) = known) :
    Starts known (do return node (← Parser.spanFrom source start)) := by
  rintro s _ _ ⟨⟩
  refine ⟨[], .refl s, ?_⟩
  rw [hnode _ rfl]
  exact List.sublist_append_left _ _

/-- A node with a type, which begins with something that is always taken before the nodes in it. -/
theorem node {p : Parser γ} {q : Parser δ} [p.LooksOneAhead] [q.LooksOneAhead] (hq : q.Advances)
    {k : Position → γ → δ → Parser α} (hk : ∀ start c d, Starts [start] (k start c d)) :
    Starts [] (do let start ← Parser.here; let c ← p; let d ← q; k start c d) := by
  intro s a s' h
  obtain ⟨start, _, hstart, h⟩ := bind_eq_ok_iff.1 h
  cases hstart
  obtain ⟨c, s₁, hc, h⟩ := bind_eq_ok_iff.1 h
  obtain ⟨d, s₂, hd, ha⟩ := bind_eq_ok_iff.1 h
  obtain ⟨front, hfront, -⟩ := LooksOneAhead.exists_passed hc
  obtain ⟨middle, hmiddle, -⟩ := LooksOneAhead.exists_passed hd
  obtain ⟨back, hback, hsub⟩ := hk _ c d s₂ a s' ha
  obtain ⟨first, run, hrun⟩ : ∃ first run, front ++ middle = first :: run :=
    List.exists_cons_of_ne_nil fun hnil ↦ hq.ne_nil hd hmiddle (List.append_eq_nil_iff.1 hnil).2
  have hbegun : Passed s (first :: run) s₂ := hrun ▸ hfront.trans hmiddle
  have hfirst : s.current = first := by
    rw [TokenStream.current, hbegun.pending_eq]
    rfl
  rw [hfirst] at hsub
  refine ⟨first :: run ++ back, hbegun.trans hback, hsub.trans ?_⟩
  rw [Token.starts_append]
  exact (List.singleton_sublist.2 List.mem_cons_self).append_right _

/-! ### Loops and blocks -/

/-- The nodes of listed items begin one behind the other, as the rounds do. -/
theorem exists_sublist_of_rounds {item : Parser (Option α)} (hitem : Starts [] item) {as : List α}
    (h : Rounds item s as s') : ∃ ts, Passed s ts s' ∧ (starts as).Sublist (Token.starts ts) := by
  induction h with
  | last ends =>
    obtain ⟨ts, hts, -⟩ := hitem _ _ _ ends
    exact ⟨ts, hts, List.nil_sublist _⟩
  | stuck round _ =>
    obtain ⟨ts, hts, hsub⟩ := hitem _ _ _ round
    exact ⟨ts, hts, hsub⟩
  | @more s s₁ s' a as round _ ih =>
    obtain ⟨front, hfront, hfirst⟩ := hitem _ _ _ round
    obtain ⟨back, hback, hothers⟩ := ih
    refine ⟨front ++ back, hfront.trans hback, ?_⟩
    have hcons : starts (a :: as) = starts (some a) ++ starts as := by
      simp [starts, nodeTypes]
    rw [hcons, Token.starts_append]
    exact hfirst.append hothers

/-- A loop lists nodes, one behind the other. -/
theorem many {item : Parser (Option α)} (hitem : Starts [] item) : Starts [] (Parser.many item) :=
  fun _ _ _ h ↦ exists_sublist_of_rounds hitem (rounds_of_many h)

theorem unlessMark {p : Punctuator} {item : Parser α} (hitem : Starts [] item) :
    Starts [] (Parser.unlessMark p item) :=
  .step fun _ ↦ .ite (.pure rfl) (.wrapped hitem fun a ↦ by simp [starts, nodeTypes])

theorem block {brackets : Brackets} {construct : String} {item : Parser α} (hitem : Starts [] item) :
    Starts [] (Parser.block brackets construct item) :=
  .step fun _ ↦ .step fun _ ↦ .many (.unlessMark hitem)

theorem optionalBlock {brackets : Brackets} {construct : String} {item : Parser α} (hitem : Starts [] item) :
    Starts [] (Parser.optionalBlock brackets construct item) :=
  .step fun _ ↦ .ite (.block hitem) (.pure rfl)

theorem members {mayLack : Bool} {construct : String} {item : Parser α} (hitem : Starts [] item) :
    Starts [] (Parser.members mayLack construct item) :=
  .ite (.optionalBlock hitem) (.block hitem)

end Starts

end Parser

/-! ### The grammar -/

section Grammar

open TypeSystem.Parser (Starts)

variable (source : Option String)

theorem starts_inputValue : Starts [] (Parser.inputValue source) :=
  .node (.name _) fun _ _ _ ↦ .step fun _ ↦ .step fun _ ↦ .step fun _ ↦ .step fun _ ↦
    .last fun _ hspan ↦ congrArg ([·]) hspan

theorem starts_arguments : Starts [] (Parser.arguments source) :=
  .optionalBlock (starts_inputValue source)

theorem starts_field : Starts [] (Parser.field source) :=
  .node (.name _) fun _ _ _ ↦ .child (starts_arguments source) fun arguments ↦ .step fun _ ↦ .step fun _ ↦
    .step fun _ ↦ .last fun _ hspan ↦ congrArg (· :: starts arguments) hspan

theorem starts_typeBody (mayLack : Bool) (kind : TypeKind) : Starts [] (Parser.typeBody source mayLack kind) := by
  cases kind with
  | scalar => exact .step fun _ ↦ .pure rfl
  | object | interface =>
    exact .step fun _ ↦ .step fun _ ↦ .wrapped (.members (starts_field source)) fun _ ↦ rfl
  | union =>
    refine .step fun _ ↦ .ite (.step fun _ ↦ .pure rfl) ?_
    exact .step fun _ ↦ .step fun _ ↦ .pure rfl
  | enum => exact .step fun _ ↦ .step fun _ ↦ .pure rfl
  | inputObject =>
    exact .step fun _ ↦ .wrapped (.members (starts_inputValue source)) fun _ ↦ rfl

variable (start : Position)

theorem starts_typeDefinition (kind : TypeKind) (description : Option String) :
    Starts [] (Parser.typeDefinition source kind description start) :=
  .step fun _ ↦ .step fun _ ↦ .child (starts_typeBody source false kind) fun _ ↦ .last fun _ _ ↦ rfl

theorem starts_typeExtension (kind : TypeKind) : Starts [] (Parser.typeExtension source kind start) :=
  .step fun _ ↦ .step fun _ ↦ .child (starts_typeBody source true kind) fun _ ↦
    .ite .failing (.last fun _ _ ↦ rfl)

theorem starts_directiveDefinition (description : Option String) :
    Starts [] (Parser.directiveDefinition source description start) :=
  .step fun _ ↦ .step fun _ ↦ .step fun _ ↦ .child (starts_arguments source) fun _ ↦
    .step fun _ ↦ .step fun _ ↦ .step fun _ ↦ .last fun _ _ ↦ rfl

theorem starts_extension : Starts [] (Parser.extension source start) := by
  refine .step fun _ ↦ .step fun keyword ↦ ?_
  cases TypeKind.ofKeyword? keyword with
  | some kind => exact .wrapped (starts_typeExtension source start kind) fun _ ↦ rfl
  | none => exact .ite (.step fun _ ↦ .pure rfl) .failing

theorem starts_definitionOf (keyword : String) (description : Option String) :
    Starts [] (Parser.definitionOf source keyword description start) := by
  unfold Parser.definitionOf
  cases TypeKind.ofKeyword? keyword with
  | some kind => exact .wrapped (starts_typeDefinition source start kind description) fun _ ↦ rfl
  | none =>
    exact .ite (.wrapped (starts_directiveDefinition source start description) fun _ ↦ rfl) <|
      .ite (.step fun _ ↦ .pure rfl) <| .ite (.ite (starts_extension source start) .failing) .failing

/-- The nodes of an item begin at tokens of its own. -/
theorem starts_definition : Starts [] (Parser.definition source) := by
  refine .step fun start ↦ .step fun description ↦ .step fun t ↦ ?_
  cases t.kind with
  | name keyword =>
    exact .wrapped (starts_definitionOf source start keyword description) fun _ ↦ by simp [starts, nodeTypes]
  | endOfInput => exact .ite (.pure rfl) .failing
  | _ => exact .failing

end Grammar

/-- **No two nodes with a type begin together.** -/
theorem type_eq_of_mem_nodeTypes {source : Option String} {text : String} {document : Document}
    (h : Document.ofTokens source (Token.lex text) = .ok document) {start : Position} {t t' : TypeReference}
    (ht : (start, t) ∈ nodeTypes document) (ht' : (start, t') ∈ nodeTypes document) : t = t' := by
  obtain ⟨items, hitems, rfl⟩ := document_eq_ok_iff.1 (Prod.ext h rfl)
  obtain ⟨ts, hts, hsub⟩ := Parser.Starts.many (starts_definition source) _ items _ hitems
  have hlex : ts.Sublist (Token.lex text) := by
    have hpending : (Token.lex text).filter (fun t ↦ !t.isComment) = ts ++ _ := hts.pending_eq
    exact (List.sublist_append_left _ _).trans (hpending ▸ List.filter_sublist)
  have hnodup : ((nodeTypes items).map Prod.fst).Nodup :=
    (Token.nodup_starts_lexFrom .origin text.toList).sublist (hsub.trans (hlex.map _))
  have hmem {entry : Position × TypeReference} := (HasTypes.perm_nodeTypes_ofDefinitions items).mem_iff (a := entry)
  exact (Prod.mk.inj (List.inj_on_of_nodup_map hnodup (hmem.1 ht) (hmem.1 ht') rfl)).2

end TypeSystem
