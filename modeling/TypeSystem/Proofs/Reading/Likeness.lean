import TypeSystem.Proofs.Syntax.Likeness
import TypeSystem.Reading.Grammar

/-!
# Reading alike

From streams that are alike, a parser comes to outcomes that are alike (`Parser.Respects`): it gives results
that are alike, or errors that are, and leaves streams that are alike. For a parser looks at the sorts of tokens
and at names, and neither at positions nor into lexemes; those it only passes on.

There is one law for each way of building parsers and one lemma for each parser of the grammar, up to
`respects_document`. All of them hold for any `Likeness`, so what positions and lexemes decide, namely nothing,
is said here once.
-/

namespace TypeSystem

variable {l : Likeness}

/-- Two outcomes of reading are alike: both are results, related by `R`, or both are errors that are alike. -/
inductive Likeness.Result (l : Likeness) {α β : Type} (R : α → β → Prop) :
    Except ParseError α → Except ParseError β → Prop
  | ok {a : α} {b : β} (h : R a b) : Result l R (.ok a) (.ok b)
  | error {e e' : ParseError} (h : e.Alike l e') : Result l R (.error e) (.error e')

namespace Parser

variable {α α' β β' σ σ' : Type}

/-- From streams that are alike the parsers come to results in `R`, or to errors that are alike, and leave
streams that are alike. -/
def Respects (l : Likeness) (R : α → α' → Prop) (p : Parser α) (q : Parser α') : Prop :=
  ∀ s s' : TokenStream, s.Alike l s' → l.Result R (p s).1 (q s').1 ∧ (p s).2.Alike l (q s').2

/-- Tokens that are alike fail to fit alike. -/
theorem misfit_alike {t u : Token} (h : t.Alike l u) (expected : List String) :
    (misfit t expected).Alike l (misfit u expected) := by
  obtain ⟨kind, span⟩ := t
  obtain ⟨kind', span'⟩ := u
  obtain ⟨hkind, hspan⟩ := h
  cases hkind with
  | blockString hlexeme => exact .blockString _ _ hlexeme hspan .nil
  | invalid message hnotes => exact .same _ _ hspan hnotes
  | _ => exact .same _ _ hspan .nil

namespace Respects

variable {R : α → α' → Prop} {S : β → β' → Prop} {p : Parser α} {p' : Parser α'} {q : Parser α}
  {q' : Parser α'}

/-- Giving what is alike respects likeness. -/
theorem pure {a : α} {a' : α'} (h : R a a') : Respects l R (Pure.pure a) (Pure.pure a') :=
  fun _ _ hs ↦ ⟨.ok h, hs⟩

theorem fail {e e' : ParseError} (h : e.Alike l e') : Respects l R (Parser.fail e) (Parser.fail e') :=
  fun _ _ hs ↦ ⟨.error h, hs⟩

/-- One parser after another: what the first gives is alike, so the second goes the same way. -/
theorem bind {k : α → Parser β} {k' : α' → Parser β'} (hp : Respects l R p p')
    (hk : ∀ a a', R a a' → Respects l S (k a) (k' a')) : Respects l S (p >>= k) (p' >>= k') := by
  intro s s' hs
  have hfirst := hp s s' hs
  show l.Result S (Parser.bind p k s).1 (Parser.bind p' k' s').1 ∧
    (Parser.bind p k s).2.Alike l (Parser.bind p' k' s').2
  rw [Parser.bind, Parser.bind]
  generalize p s = r at hfirst ⊢
  generalize p' s' = r' at hfirst ⊢
  obtain ⟨x, s₁⟩ := r
  obtain ⟨y, s₁'⟩ := r'
  obtain ⟨hresult, hstream⟩ := hfirst
  cases hresult with
  | ok h => exact hk _ _ h _ _ hstream
  | error he => exact ⟨.error he, hstream⟩

/-- Results that have to be equal are passed on as one. -/
theorem andThen {p p' : Parser α} {k : α → Parser β} {k' : α → Parser β'} (hp : Respects l Eq p p')
    (hk : ∀ a, Respects l S (k a) (k' a)) : Respects l S (p >>= k) (p' >>= k') :=
  hp.bind fun a _ heq ↦ heq ▸ hk a

/-- A choice is made alike on both sides, since what it depends on is the same. -/
theorem ite {condition : Prop} [Decidable condition] (hp : Respects l R p p') (hq : Respects l R q q') :
    Respects l R (if condition then p else q) (if condition then p' else q') := by
  split
  · exact hp
  · exact hq

/-! ### Single tokens -/

/-- Taking a token. -/
theorem next : Respects l (Token.Alike l) Parser.next Parser.next :=
  fun _ _ hs ↦ ⟨.ok hs.current, hs.advance⟩

/-- Looking at a token. -/
theorem peek : Respects l (Token.Alike l) Parser.peek Parser.peek :=
  fun _ _ hs ↦ ⟨.ok hs.current, hs⟩

/-- Where the next token starts. -/
theorem here : Respects l l.place Parser.here Parser.here :=
  fun _ _ hs ↦ ⟨.ok hs.current.span.start, hs⟩

/-- Where the last token stopped. -/
theorem lastEnd : Respects l l.place Parser.lastEnd Parser.lastEnd :=
  fun _ _ hs ↦ ⟨.ok hs.lastEnd, hs⟩

theorem peekIs (sort : TokenSort) : Respects l Eq (Parser.peekIs sort) (Parser.peekIs sort) := fun _ _ hs ↦ by
  rw [Parser.peekIs, Parser.peekIs, hs.current.kind.sort_eq]
  exact ⟨.ok rfl, hs⟩

/-- A token is accepted on both sides or on neither, as sorts are the same. -/
theorem accept (sorts : List TokenSort) :
    Respects l (Option.Rel (Token.Alike l)) (Parser.accept sorts) (Parser.accept sorts) := fun _ _ hs ↦ by
  rw [Parser.accept, Parser.accept, hs.current.kind.sort_eq]
  split
  · exact ⟨.ok (.some hs.current), hs.advance⟩
  · exact ⟨.ok .none, hs⟩

theorem acceptKeyword (keyword : String) :
    Respects l Eq (Parser.acceptKeyword keyword) (Parser.acceptKeyword keyword) := fun _ _ hs ↦ by
  rw [Parser.acceptKeyword, Parser.acceptKeyword, hs.current.isKeyword_eq]
  split
  · exact ⟨.ok rfl, hs.advance⟩
  · exact ⟨.ok rfl, hs⟩

/-- An unexpected token is reported alike. -/
theorem unexpected (expected : List String) :
    Respects l R (Parser.unexpected expected) (Parser.unexpected expected) :=
  next.bind fun _ _ ht ↦ .fail (misfit_alike ht expected)

theorem require (sorts : List TokenSort) (expected : String) :
    Respects l (Token.Alike l) (Parser.require sorts expected) (Parser.require sorts expected) := by
  refine (accept sorts).bind fun found found' hfound ↦ ?_
  cases hfound with
  | some ht => exact .pure ht
  | none => exact .unexpected _

theorem requireMark (p : Punctuator) :
    Respects l (Token.Alike l) (Parser.requireMark p) (Parser.requireMark p) :=
  require _ _

theorem requireKeyword (keyword : String) :
    Respects l (Token.Alike l) (Parser.requireKeyword keyword) (Parser.requireKeyword keyword) := fun s s' hs ↦ by
  rw [Parser.requireKeyword, Parser.requireKeyword, hs.current.isKeyword_eq]
  split
  · exact ⟨.ok hs.current, hs.advance⟩
  · exact unexpected _ s s' hs

theorem requireName (expected : String) :
    Respects l (fun r r' ↦ r.1 = r'.1 ∧ r.2.Alike l r'.2) (Parser.requireName expected)
      (Parser.requireName expected) := by
  refine next.bind fun t u htu ↦ ?_
  have hmisfit := misfit_alike htu [expected]
  obtain ⟨kind, span⟩ := t
  obtain ⟨kind', span'⟩ := u
  obtain ⟨hkind, hspan⟩ := htu
  cases hkind with
  | name => exact .pure ⟨rfl, hspan⟩
  | _ => exact .fail hmisfit

theorem name (expected : String) : Respects l Eq (Parser.name expected) (Parser.name expected) :=
  (requireName expected).bind fun _ _ h ↦ .pure h.1

theorem value (expected : String) : Respects l l.lexeme (Parser.value expected) (Parser.value expected) := by
  refine next.bind fun t u htu ↦ ?_
  have hmisfit := misfit_alike htu [expected]
  obtain ⟨kind, span⟩ := t
  obtain ⟨kind', span'⟩ := u
  obtain ⟨hkind, hspan⟩ := htu
  cases hkind with
  | name h | int h | float h | string h | blockString h => exact .pure h
  | _ => exact .fail hmisfit

theorem description? : Respects l (Option.Rel l.lexeme) Parser.description? Parser.description? := by
  refine (accept _).bind fun found found' hfound ↦ ?_
  cases hfound with
  | some ht => exact .pure ht.kind.rawText?
  | none => exact .pure .none

theorem acceptMark (p : Punctuator) : Respects l Eq (Parser.acceptMark p) (Parser.acceptMark p) :=
  (accept _).bind fun _ _ hfound ↦ .pure (by cases hfound <;> rfl)

/-- A span is from one place to another, and both are alike. -/
theorem spanFrom (source : Option String) {start start' : Position} (h : l.place start start') :
    Respects l (Span.Alike l) (Parser.spanFrom source start) (Parser.spanFrom source start') :=
  lastEnd.bind fun _ _ hend ↦ .pure ⟨h, hend, rfl⟩

/-! ### Loops and brackets -/

/-- A loop goes as many rounds on both sides. The induction is on what is left, which is the same number. -/
theorem iterate {T : σ → σ' → Prop} {step : σ → Parser (Option σ)} {step' : σ' → Parser (Option σ')}
    (hstep : ∀ a a', T a a' → Respects l (Option.Rel T) (step a) (step' a')) {a : σ} {a' : σ'} (h : T a a') :
    Respects l T (Parser.iterate step a) (Parser.iterate step' a') := by
  intro s s' hs
  -- induction on what is left, of which there is as much on both sides
  induction hleft : s.left using Nat.strongRecOn generalizing a a' s s' with
  | ind n ih =>
    have hround := hstep a a' h s s' hs
    rw [Parser.iterate, Parser.iterate]
    generalize step a s = r at hround ⊢
    generalize step' a' s' = r' at hround ⊢
    obtain ⟨x, s₁⟩ := r
    obtain ⟨y, s₁'⟩ := r'
    obtain ⟨hresult, hstream⟩ := hround
    cases hresult with
    | error he => exact ⟨.error he, hstream⟩
    | ok hfound =>
      cases hfound with
      | none => exact ⟨.ok h, hstream⟩
      | some h₁ =>
        dsimp only
        rw [← hstream.left_eq, ← hs.left_eq]
        split
        · next hlt => exact ih s₁.left (hleft ▸ hlt) h₁ s₁ s₁' hstream rfl
        · exact ⟨.ok h₁, hstream⟩

/-- What a loop lists is alike item by item. -/
theorem many {item : Parser (Option α)} {item' : Parser (Option α')} (h : Respects l (Option.Rel R) item item') :
    Respects l (List.Forall₂ R) (Parser.many item) (Parser.many item') := by
  refine (iterate (T := List.Forall₂ R) (fun found found' hfound ↦ ?_) .nil).bind fun _ _ hreversed ↦
    .pure (List.rel_reverse hreversed)
  refine h.bind fun r r' hr ↦ .pure ?_
  cases hr with
  | some ha => exact .some (.cons ha hfound)
  | none => exact .none

theorem unlessMark {close : Punctuator} {item : Parser α} {item' : Parser α'} (h : Respects l R item item') :
    Respects l (Option.Rel R) (Parser.unlessMark close item) (Parser.unlessMark close item') :=
  (acceptMark close).andThen fun _ ↦ .ite (.pure .none) (h.bind fun _ _ ha ↦ .pure (.some ha))

theorem afterMark {mark : Punctuator} {item : Parser α} {item' : Parser α'} (h : Respects l R item item') :
    Respects l (Option.Rel R) (Parser.afterMark mark item) (Parser.afterMark mark item') :=
  (acceptMark mark).andThen fun _ ↦ .ite (h.bind fun _ _ ha ↦ .pure (.some ha)) (.pure .none)

theorem separated {mark : Punctuator} {item : Parser α} {item' : Parser α'} (h : Respects l R item item') :
    Respects l (List.Forall₂ R) (Parser.separated mark item) (Parser.separated mark item') :=
  (acceptMark mark).andThen fun _ ↦ h.bind fun _ _ hfirst ↦
    (many (afterMark h)).bind fun _ _ hothers ↦ .pure (.cons hfirst hothers)

/-- Items that have to be equal make lists that are. -/
theorem separatedEq {mark : Punctuator} {item : Parser α} (h : Respects l Eq item item) :
    Respects l Eq (Parser.separated mark item) (Parser.separated mark item) := by
  have hlist : Respects l (List.Forall₂ Eq) (Parser.separated mark item) (Parser.separated mark item) :=
    separated h
  rwa [List.forall₂_eq_eq_eq] at hlist

theorem enclosed {brackets : Brackets} {construct : String} {inside : Parser α} {inside' : Parser α'}
    (h : Respects l R inside inside') :
    Respects l R (Parser.enclosed brackets construct inside) (Parser.enclosed brackets construct inside') := by
  refine (requireMark _).bind fun _ _ _ ↦ .andThen ?_ fun _ ↦ h
  exact (peekIs _).andThen fun _ ↦ .ite (next.bind fun _ _ ht ↦ .fail (.same _ _ ht.span .nil)) (.pure rfl)

theorem block {brackets : Brackets} {construct : String} {item : Parser α} {item' : Parser α'}
    (h : Respects l R item item') :
    Respects l (List.Forall₂ R) (Parser.block brackets construct item) (Parser.block brackets construct item') :=
  enclosed (many (unlessMark h))

theorem optionalBlock {brackets : Brackets} {construct : String} {item : Parser α} {item' : Parser α'}
    (h : Respects l R item item') :
    Respects l (List.Forall₂ R) (Parser.optionalBlock brackets construct item)
      (Parser.optionalBlock brackets construct item') :=
  (peekIs _).andThen fun _ ↦ .ite (block h) (.pure .nil)

theorem members {mayLack : Bool} {construct : String} {item : Parser α} {item' : Parser α'}
    (h : Respects l R item item') :
    Respects l (List.Forall₂ R) (Parser.members mayLack construct item)
      (Parser.members mayLack construct item') :=
  .ite (optionalBlock h) (block h)

end Respects

end Parser

/-! ### The grammar -/

section Grammar

open TypeSystem.Parser (Respects)

/-- Lists that are alike are both empty, or neither is. -/
theorem isEmpty_eq_of_forall₂ {α β : Type} {R : α → β → Prop} {as : List α} {bs : List β}
    (h : List.Forall₂ R as bs) : as.isEmpty = bs.isEmpty := by
  cases h <;> rfl

theorem respects_nullability : Respects l Eq Parser.nullability Parser.nullability :=
  (Respects.acceptMark .bang).andThen fun _ ↦ .pure rfl

/-- Type references hold no positions, so they are the same on both sides. -/
theorem respects_typeReferenceWithin (levels : ℕ) :
    Respects l Eq (Parser.typeReferenceWithin levels) (Parser.typeReferenceWithin levels) := by
  induction levels with
  | zero => exact .bind .peek fun _ _ ht ↦ .fail (.same _ _ ht.span .nil)
  | succ levels ih =>
    refine .andThen (.acceptMark .bracketOpen) fun _ ↦ .ite ?_ ?_
    · exact .andThen ih fun element ↦ .bind (.requireMark _) fun _ _ _ ↦
        .andThen respects_nullability fun _ ↦ .pure rfl
    · exact .andThen (.name _) fun name ↦ .andThen respects_nullability fun _ ↦ .pure rfl

theorem respects_typeReference : Respects l Eq Parser.typeReference Parser.typeReference :=
  respects_typeReferenceWithin Parser.maxLevels

theorem respects_argument : Respects l (Argument.Alike l) Parser.argument Parser.argument :=
  .andThen (.name _) fun _ ↦ .bind (.requireMark _) fun _ _ _ ↦ .bind (.value _) fun _ _ hvalue ↦
    .pure ⟨rfl, hvalue⟩

/-- A note that points nowhere is like itself. -/
theorem note_alike (kind : NoteKind) (message : String) : Note.Alike l ⟨kind, message, none⟩ ⟨kind, message, none⟩ :=
  ⟨rfl, rfl, .none⟩

/-- The suggestion goes by the name, which is the same. -/
theorem unknownLocation_alike (name : String) {span span' : Span} (h : span.Alike l span') :
    (Parser.unknownLocation name span).Alike l (Parser.unknownLocation name span') := by
  unfold Parser.unknownLocation
  cases DirectiveLocation.suggestion? name with
  | none => exact .same _ _ h (.cons (note_alike _ _) .nil)
  | some location => exact .same _ _ h (.cons (note_alike _ _) (.cons (note_alike _ _) .nil))

theorem unknownKeyword_alike (keyword : String) {span span' : Span} (h : span.Alike l span') :
    (Parser.unknownKeyword keyword span).Alike l (Parser.unknownKeyword keyword span') := by
  unfold Parser.unknownKeyword
  dsimp only
  split <;> exact .same _ _ h (.cons (note_alike _ _) .nil)

theorem describedExtension_alike {t u : Token} (h : t.Alike l u) :
    (Parser.describedExtension t).Alike l (Parser.describedExtension u) := by
  have hmisfit := Parser.misfit_alike h ["a type-system definition"]
  unfold Parser.describedExtension
  generalize Parser.misfit t _ = e at hmisfit ⊢
  generalize Parser.misfit u _ = e' at hmisfit ⊢
  have hnotes {notes notes' : List Note} (hnotes : List.Forall₂ (Note.Alike l) notes notes') :=
    List.rel_append hnotes (.cons (note_alike .note "extensions cannot have a description") .nil)
  cases hmisfit with
  | same message fault hspan h => exact .same _ _ hspan (hnotes h)
  | blockString wanted expected hlexeme hspan h => exact .blockString _ _ hlexeme hspan (hnotes h)

theorem respects_directiveLocation :
    Respects l Eq Parser.directiveLocation Parser.directiveLocation := by
  refine .bind (.requireName _) fun found found' hfound ↦ ?_
  obtain ⟨name, span⟩ := found
  obtain ⟨name', span'⟩ := found'
  obtain ⟨rfl, hspan⟩ := hfound
  dsimp only
  cases DirectiveLocation.ofName? name with
  | some location => exact .pure rfl
  | none => exact .fail (unknownLocation_alike name hspan)

theorem respects_rootType (roots : RootTypes) :
    Respects l (Option.Rel Eq) (Parser.rootType roots) (Parser.rootType roots) := by
  refine .unlessMark (.bind (.requireName _) fun found found' hfound ↦ ?_)
  obtain ⟨keyword, span⟩ := found
  obtain ⟨keyword', span'⟩ := found'
  obtain ⟨rfl, hspan⟩ := hfound
  dsimp only
  cases Operation.ofKeyword? keyword with
  | none => exact .fail (.same _ _ hspan .nil)
  | some operation =>
    exact .ite (.fail (.same _ _ hspan .nil)) <| .bind (.requireMark _) fun _ _ _ ↦
      .andThen (.name _) fun name ↦ .pure rfl

theorem respects_rootTypes : Respects l Eq Parser.rootTypes Parser.rootTypes :=
  .enclosed (.iterate (fun roots _ heq ↦ heq ▸ respects_rootType roots) rfl)

section Nodes

variable (source : Option String)

theorem respects_appliedDirective : Respects l (AppliedDirective.Alike l) (Parser.appliedDirective source)
    (Parser.appliedDirective source) := by
  refine .bind .here fun _ _ hstart ↦ .bind (.requireMark _) fun _ _ _ ↦ .andThen (.name _) fun name ↦ ?_
  exact .bind (.optionalBlock respects_argument) fun _ _ harguments ↦
    .bind (.spanFrom source hstart) fun _ _ hspan ↦ .pure ⟨rfl, harguments, hspan⟩

theorem respects_appliedDirectives : Respects l (List.Forall₂ (AppliedDirective.Alike l))
    (Parser.appliedDirectives source) (Parser.appliedDirectives source) :=
  .many <| .andThen (.peekIs _) fun _ ↦
    .ite (.bind (respects_appliedDirective source) fun _ _ h ↦ .pure (.some h)) (.pure .none)

theorem respects_inputValue : Respects l (InputValueDefinition.Alike l) (Parser.inputValue source)
    (Parser.inputValue source) := by
  refine .bind .here fun _ _ hstart ↦ .bind .description? fun _ _ hdescription ↦
    .andThen (.name _) fun name ↦ ?_
  refine .bind (.requireMark _) fun _ _ _ ↦ .andThen respects_typeReference fun type ↦ ?_
  refine .bind (.afterMark (.value _)) fun _ _ hvalue ↦ ?_
  exact .bind (respects_appliedDirectives source) fun _ _ hdirectives ↦
    .bind (.spanFrom source hstart) fun _ _ hspan ↦
      .pure ⟨hdescription, rfl, rfl, hvalue, hdirectives, hspan⟩

theorem respects_arguments : Respects l (List.Forall₂ (InputValueDefinition.Alike l)) (Parser.arguments source)
    (Parser.arguments source) :=
  .optionalBlock (respects_inputValue source)

theorem respects_field : Respects l (FieldDefinition.Alike l) (Parser.field source) (Parser.field source) := by
  refine .bind .here fun _ _ hstart ↦ .bind .description? fun _ _ hdescription ↦
    .andThen (.name _) fun name ↦ ?_
  refine .bind (respects_arguments source) fun _ _ harguments ↦ .bind (.requireMark _) fun _ _ _ ↦ ?_
  exact .andThen respects_typeReference fun type ↦
    .bind (respects_appliedDirectives source) fun _ _ hdirectives ↦
      .bind (.spanFrom source hstart) fun _ _ hspan ↦
        .pure ⟨hdescription, rfl, harguments, rfl, hdirectives, hspan⟩

theorem respects_enumValue : Respects l (EnumValueDefinition.Alike l) (Parser.enumValue source)
    (Parser.enumValue source) := by
  refine .bind .here fun _ _ hstart ↦ .bind .description? fun _ _ hdescription ↦
    .bind (.requireName _) fun found found' hfound ↦ ?_
  obtain ⟨name, span⟩ := found
  obtain ⟨name', span'⟩ := found'
  obtain ⟨rfl, hname⟩ := hfound
  exact .ite (.fail (.same _ _ hname .nil)) <| .bind (respects_appliedDirectives source) fun _ _ hdirectives ↦
    .bind (.spanFrom source hstart) fun _ _ hspan ↦ .pure ⟨hdescription, rfl, hdirectives, hspan⟩

theorem respects_implemented : Respects l Eq Parser.implemented Parser.implemented :=
  .andThen (.acceptKeyword _) fun _ ↦ .ite (.separatedEq (.name _)) (.pure rfl)

theorem respects_unionMembers : Respects l Eq Parser.unionMembers Parser.unionMembers :=
  .separatedEq (.name _)

/-- The two parts of a type, what is applied to it and its members, are alike. -/
theorem respects_typeBody (mayLack : Bool) (kind : TypeKind) :
    Respects l (fun r r' ↦ List.Forall₂ (AppliedDirective.Alike l) r.1 r'.1 ∧ r.2.Alike l r'.2)
      (Parser.typeBody source mayLack kind) (Parser.typeBody source mayLack kind) := by
  have hdirectives := respects_appliedDirectives (l := l) source
  cases kind with
  | scalar => exact hdirectives.bind fun _ _ hds ↦ .pure ⟨hds, .scalar⟩
  | object =>
    exact .andThen respects_implemented fun interfaces ↦ hdirectives.bind fun _ _ hds ↦
      .bind (.members (respects_field source)) fun _ _ hfields ↦ .pure ⟨hds, .object interfaces hfields⟩
  | interface =>
    exact .andThen respects_implemented fun interfaces ↦ hdirectives.bind fun _ _ hds ↦
      .bind (.members (respects_field source)) fun _ _ hfields ↦ .pure ⟨hds, .interface interfaces hfields⟩
  | union =>
    refine hdirectives.bind fun _ _ hds ↦ .ite ?_ ?_
    · refine .bind (.afterMark respects_unionMembers) fun members members' hmembers ↦ .pure ⟨hds, ?_⟩
      obtain rfl : members = members' := by cases hmembers <;> simp_all
      exact .union _
    · exact .bind (.requireMark _) fun _ _ _ ↦ .andThen respects_unionMembers fun members ↦
        .pure ⟨hds, .union members⟩
  | enum =>
    exact hdirectives.bind fun _ _ hds ↦
      .bind (.members (respects_enumValue source)) fun _ _ hvalues ↦ .pure ⟨hds, .enum hvalues⟩
  | inputObject =>
    exact hdirectives.bind fun _ _ hds ↦
      .bind (.members (respects_inputValue source)) fun _ _ hfields ↦ .pure ⟨hds, .inputObject hfields⟩

variable {start start' : Position} (hstart : l.place start start') {description description' : Option String}
  (hdescription : Option.Rel l.lexeme description description')

include hstart

theorem respects_emptyExtension {α α' : Type} {R : α → α' → Prop} (kind requirement : String) :
    Respects l R (Parser.emptyExtension source start kind requirement)
      (Parser.emptyExtension source start' kind requirement) :=
  .bind (.spanFrom source hstart) fun _ _ hspan ↦ .fail (.same _ _ hspan .nil)

theorem respects_typeExtension (kind : TypeKind) : Respects l (TypeExtension.Alike l)
    (Parser.typeExtension source kind start) (Parser.typeExtension source kind start') := by
  refine .bind (.requireKeyword _) fun _ _ _ ↦ .andThen (.name _) fun name ↦ ?_
  refine .bind (respects_typeBody source true kind) fun r r' hr ↦ ?_
  obtain ⟨directives, body⟩ := r
  obtain ⟨directives', body'⟩ := r'
  obtain ⟨hdirectives, hbody⟩ := hr
  dsimp only
  rw [isEmpty_eq_of_forall₂ hdirectives, hbody.isEmpty_eq]
  exact .ite (respects_emptyExtension source hstart _ _) <|
    .bind (.spanFrom source hstart) fun _ _ hspan ↦ .pure ⟨rfl, hdirectives, hbody, hspan⟩

theorem respects_schemaExtension : Respects l (SchemaExtension.Alike l) (Parser.schemaExtension source start)
    (Parser.schemaExtension source start') := by
  refine .bind (.requireKeyword _) fun _ _ _ ↦
    .bind (respects_appliedDirectives source) fun directives directives' hdirectives ↦ ?_
  rw [isEmpty_eq_of_forall₂ hdirectives]
  refine .andThen (.peekIs _) fun _ ↦ .ite ?_ (.ite (respects_emptyExtension source hstart _ _) ?_)
  · exact .andThen respects_rootTypes fun roots ↦ .bind (.spanFrom source hstart) fun _ _ hspan ↦
      .pure ⟨hdirectives, rfl, hspan⟩
  · exact .bind (.spanFrom source hstart) fun _ _ hspan ↦ .pure ⟨hdirectives, rfl, hspan⟩

omit hstart in
theorem respects_peekName : Respects l Eq Parser.peekName Parser.peekName := by
  refine .bind .peek fun t u htu ↦ ?_
  obtain ⟨kind, span⟩ := t
  obtain ⟨kind', span'⟩ := u
  obtain ⟨hkind, -⟩ := htu
  cases hkind <;> exact .pure rfl

theorem respects_extension : Respects l (Definition.Alike l) (Parser.extension source start)
    (Parser.extension source start') := by
  refine .bind (.requireKeyword _) fun _ _ _ ↦ .andThen respects_peekName fun keyword ↦ ?_
  cases TypeKind.ofKeyword? keyword with
  | some kind => exact .bind (respects_typeExtension source hstart kind) fun _ _ h ↦ .pure (.typeExtension h)
  | none =>
    exact .ite (.bind (respects_schemaExtension source hstart) fun _ _ h ↦ .pure (.schemaExtension h))
      (.unexpected _)

include hdescription

theorem respects_typeDefinition (kind : TypeKind) : Respects l (TypeDefinition.Alike l)
    (Parser.typeDefinition source kind description start)
    (Parser.typeDefinition source kind description' start') := by
  refine .bind (.requireKeyword _) fun _ _ _ ↦ .andThen (.name _) fun name ↦ ?_
  exact .bind (respects_typeBody source false kind) fun _ _ hr ↦
    .bind (.spanFrom source hstart) fun _ _ hspan ↦ .pure ⟨hdescription, rfl, hr.1, hr.2, hspan⟩

theorem respects_directiveDefinition : Respects l (DirectiveDefinition.Alike l)
    (Parser.directiveDefinition source description start)
    (Parser.directiveDefinition source description' start') := by
  refine .bind (.requireKeyword _) fun _ _ _ ↦ .bind (.requireMark _) fun _ _ _ ↦
    .andThen (.name _) fun name ↦ ?_
  refine .bind (respects_arguments source) fun _ _ harguments ↦ .andThen (.acceptKeyword _) fun repeatable ↦ ?_
  refine .bind (.requireKeyword _) fun _ _ _ ↦
    .andThen (.separatedEq respects_directiveLocation) fun locations ↦ ?_
  exact .bind (.spanFrom source hstart) fun _ _ hspan ↦
    .pure ⟨hdescription, rfl, harguments, rfl, rfl, hspan⟩

theorem respects_schemaDefinition : Respects l (SchemaDefinition.Alike l)
    (Parser.schemaDefinition source description start)
    (Parser.schemaDefinition source description' start') :=
  .bind (.requireKeyword _) fun _ _ _ ↦ .bind (respects_appliedDirectives source) fun _ _ hdirectives ↦
    .andThen respects_rootTypes fun _ ↦ .bind (.spanFrom source hstart) fun _ _ hspan ↦
      .pure ⟨hdescription, hdirectives, rfl, hspan⟩

/-- The keyword is the same, so the same production is taken. -/
theorem respects_definitionOf (keyword : String) : Respects l (Definition.Alike l)
    (Parser.definitionOf source keyword description start)
    (Parser.definitionOf source keyword description' start') := by
  unfold Parser.definitionOf
  cases TypeKind.ofKeyword? keyword with
  | some kind =>
    exact .bind (respects_typeDefinition source hstart hdescription kind) fun _ _ h ↦ .pure (.type h)
  | none =>
    have hnone : description.isNone = description'.isNone := by cases hdescription <;> rfl
    rw [hnone]
    refine .ite (.bind (respects_directiveDefinition source hstart hdescription) fun _ _ h ↦
        .pure (.directive h)) <|
      .ite (.bind (respects_schemaDefinition source hstart hdescription) fun _ _ h ↦ .pure (.schema h)) <|
      .ite (.ite (respects_extension source hstart) ?_) ?_
    · exact .bind .next fun _ _ ht ↦ .fail (describedExtension_alike ht)
    · exact .bind .next fun _ _ ht ↦ .fail (unknownKeyword_alike keyword ht.span)

omit hstart hdescription in
/-- An item ends the list on both sides, or is alike. -/
theorem respects_definition : Respects l (Option.Rel (Definition.Alike l)) (Parser.definition source)
    (Parser.definition source) := by
  refine .bind .here fun _ _ hstart ↦ .bind .description? fun _ _ hdescription ↦ .bind .peek fun t u htu ↦ ?_
  obtain ⟨kind, span⟩ := t
  obtain ⟨kind', span'⟩ := u
  obtain ⟨hkind, -⟩ := htu
  cases hkind with
  | name =>
    exact .bind (respects_definitionOf source hstart hdescription _) fun _ _ h ↦ .pure (.some h)
  | endOfInput =>
    cases hdescription with
    | none => exact .pure .none
    | some _ => exact .unexpected _
  | _ => exact .unexpected _

omit hstart hdescription in
/-- From streams that are alike, documents that are alike are read, or there are errors that are. -/
theorem respects_document : Respects l (Document.Alike l) (Parser.document source) (Parser.document source) :=
  .bind (.many (respects_definition source)) fun _ _ h ↦ .pure (.ofDefinitions h)

end Nodes

end Grammar

end TypeSystem
