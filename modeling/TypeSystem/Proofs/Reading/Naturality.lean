import TypeSystem.Proofs.Reading.Extents
import TypeSystem.Proofs.Reading.Likeness
import TypeSystem.Proofs.Reading.Outcome
import TypeSystem.Proofs.Syntax.Positions

/-!
# Positions that decide nothing

Whether tokens are read as a document, and as which, does not depend on where they stand. With any other
positions in them they make the same document or the same error, with these positions in it. For values are
alike up to such a change (`Likeness.moved`) exactly if one is the other with its positions changed, and what is
read from tokens that are alike is alike (`respects_document`). Nor does it matter where the first token could
have been preceded by another (`ofTokens_eq_document_after`), or which comments stand between the tokens.
-/

namespace TypeSystem

open HasPositions

/-- Each position stands for what `f` makes of it, and each lexeme for itself. -/
def Likeness.moved (f : Position → Position) : Likeness := ⟨fun p q ↦ q = f p, Eq⟩

variable {f : Position → Position}

/-! ### Values that are moved -/

section Parts

variable {α β : Type} {R : α → β → Prop}

/-- Lists that are alike item by item are one list moved. -/
theorem eq_map_of_forall₂ (g : α → β) (hR : ∀ a b, R a b → b = g a) {as : List α} {bs : List β}
    (h : List.Forall₂ R as bs) : bs = as.map g := by
  induction h with
  | nil => rfl
  | cons hab _ ih => rw [List.map_cons, ← hR _ _ hab, ← ih]

/-- Options that are alike are one option moved. -/
theorem eq_map_of_rel (g : α → β) (hR : ∀ a b, R a b → b = g a) {a : Option α} {b : Option β}
    (h : Option.Rel R a b) : b = a.map g := by
  cases h with
  | none => rfl
  | some h => exact congrArg some (hR _ _ h)

theorem eq_of_rel {a b : Option α} (h : Option.Rel Eq a b) : b = a :=
  (eq_map_of_rel id (fun _ _ ↦ Eq.symm) h).trans Option.map_id'

theorem eq_reposition_of_forall₂ [HasPositions α] {R : α → α → Prop} (hR : ∀ a b, R a b → b = reposition f a)
    {as bs : List α} (h : List.Forall₂ R as bs) : bs = reposition f as :=
  eq_map_of_forall₂ (reposition f) hR h

end Parts

theorem Span.Alike.eq {a b : Span} (h : a.Alike (.moved f) b) : b = reposition f a := by
  show Span.mk b.start b.stop b.source = .mk (f a.start) (f a.stop) a.source
  rw [← h.source, show b.start = _ from h.start, show b.stop = _ from h.stop]

theorem Note.Alike.eq (a b : Note) (h : a.Alike (.moved f) b) : b = reposition f a := by
  show Note.mk b.kind b.message b.span = .mk a.kind a.message (a.span.map (reposition f))
  rw [h.kind, h.message, eq_map_of_rel (reposition f) (fun _ _ h ↦ h.eq) h.span]

theorem TokenKind.Alike.eq {a b : TokenKind} (h : a.Alike (.moved f) b) : b = reposition f a := by
  cases h with
  | blockString hlexeme =>
    obtain rfl := hlexeme
    rfl
  | invalid message hnotes =>
    rw [eq_reposition_of_forall₂ Note.Alike.eq hnotes]
    rfl
  | _ => rfl

theorem Token.Alike.eq (a b : Token) (h : a.Alike (.moved f) b) : b = reposition f a := by
  show Token.mk b.kind b.span = .mk (reposition f a.kind) (reposition f a.span)
  rw [h.kind.eq, h.span.eq]

/-- Streams that are alike are one stream moved. -/
theorem TokenStream.Alike.eq {s s' : TokenStream} (h : s.Alike (.moved f) s') : s' = reposition f s := by
  rw [s'.eq_after, eq_reposition_of_forall₂ Token.Alike.eq h.pending, show s'.lastEnd = _ from h.lastEnd]
  rfl

/-! ### Nodes that are moved -/

theorem Argument.Alike.eq (a b : Argument) (h : a.Alike (.moved f) b) : b = id a := by
  show Argument.mk b.name b.value = .mk a.name a.value
  rw [h.name, show a.value = b.value from h.value]

theorem AppliedDirective.Alike.eq (a b : AppliedDirective) (h : a.Alike (.moved f) b) : b = reposition f a := by
  show AppliedDirective.mk b.name b.arguments b.span = .mk a.name a.arguments (reposition f a.span)
  rw [h.name, eq_map_of_forall₂ id Argument.Alike.eq h.arguments, List.map_id, h.span.eq]

theorem InputValueDefinition.Alike.eq (a b : InputValueDefinition) (h : a.Alike (.moved f) b) :
    b = reposition f a := by
  show InputValueDefinition.mk b.description b.name b.type b.defaultValue b.directives b.span =
    .mk a.description a.name a.type a.defaultValue (reposition f a.directives) (reposition f a.span)
  rw [eq_of_rel h.description, h.name, h.type, eq_of_rel h.defaultValue,
    eq_reposition_of_forall₂ AppliedDirective.Alike.eq h.directives, h.span.eq]

theorem FieldDefinition.Alike.eq (a b : FieldDefinition) (h : a.Alike (.moved f) b) : b = reposition f a := by
  show FieldDefinition.mk b.description b.name b.arguments b.type b.directives b.span =
    .mk a.description a.name (reposition f a.arguments) a.type (reposition f a.directives) (reposition f a.span)
  rw [eq_of_rel h.description, h.name, eq_reposition_of_forall₂ InputValueDefinition.Alike.eq h.arguments, h.type,
    eq_reposition_of_forall₂ AppliedDirective.Alike.eq h.directives, h.span.eq]

theorem EnumValueDefinition.Alike.eq (a b : EnumValueDefinition) (h : a.Alike (.moved f) b) :
    b = reposition f a := by
  show EnumValueDefinition.mk b.description b.name b.directives b.span =
    .mk a.description a.name (reposition f a.directives) (reposition f a.span)
  rw [eq_of_rel h.description, h.name, eq_reposition_of_forall₂ AppliedDirective.Alike.eq h.directives, h.span.eq]

theorem TypeBody.Alike.eq {a b : TypeBody} (h : a.Alike (.moved f) b) : b = reposition f a := by
  cases h with
  | scalar | union => rfl
  | object interfaces hfields | interface interfaces hfields =>
    rw [eq_reposition_of_forall₂ FieldDefinition.Alike.eq hfields]
    rfl
  | enum hvalues =>
    rw [eq_reposition_of_forall₂ EnumValueDefinition.Alike.eq hvalues]
    rfl
  | inputObject hfields =>
    rw [eq_reposition_of_forall₂ InputValueDefinition.Alike.eq hfields]
    rfl

theorem TypeDefinition.Alike.eq (a b : TypeDefinition) (h : a.Alike (.moved f) b) : b = reposition f a := by
  show TypeDefinition.mk b.description b.name b.directives b.body b.span =
    .mk a.description a.name (reposition f a.directives) (reposition f a.body) (reposition f a.span)
  rw [eq_of_rel h.description, h.name, eq_reposition_of_forall₂ AppliedDirective.Alike.eq h.directives, h.body.eq,
    h.span.eq]

theorem TypeExtension.Alike.eq (a b : TypeExtension) (h : a.Alike (.moved f) b) : b = reposition f a := by
  show TypeExtension.mk b.name b.directives b.body b.span =
    .mk a.name (reposition f a.directives) (reposition f a.body) (reposition f a.span)
  rw [h.name, eq_reposition_of_forall₂ AppliedDirective.Alike.eq h.directives, h.body.eq, h.span.eq]

theorem SchemaDefinition.Alike.eq (a b : SchemaDefinition) (h : a.Alike (.moved f) b) : b = reposition f a := by
  show SchemaDefinition.mk b.description b.directives b.roots b.span =
    .mk a.description (reposition f a.directives) a.roots (reposition f a.span)
  rw [eq_of_rel h.description, eq_reposition_of_forall₂ AppliedDirective.Alike.eq h.directives, h.roots, h.span.eq]

theorem SchemaExtension.Alike.eq (a b : SchemaExtension) (h : a.Alike (.moved f) b) : b = reposition f a := by
  show SchemaExtension.mk b.directives b.roots b.span = .mk (reposition f a.directives) a.roots (reposition f a.span)
  rw [eq_reposition_of_forall₂ AppliedDirective.Alike.eq h.directives, h.roots, h.span.eq]

theorem DirectiveDefinition.Alike.eq (a b : DirectiveDefinition) (h : a.Alike (.moved f) b) :
    b = reposition f a := by
  show DirectiveDefinition.mk b.description b.name b.arguments b.repeatable b.locations b.span =
    .mk a.description a.name (reposition f a.arguments) a.repeatable a.locations (reposition f a.span)
  rw [eq_of_rel h.description, h.name, eq_reposition_of_forall₂ InputValueDefinition.Alike.eq h.arguments,
    h.repeatable, h.locations, h.span.eq]

/-- Documents that are alike are one document moved. -/
theorem Document.Alike.eq {a b : Document} (h : a.Alike (.moved f) b) : b = reposition f a := by
  show Document.mk b.types b.schemas b.directives b.typeExtensions b.schemaExtensions =
    .mk (reposition f a.types) (reposition f a.schemas) (reposition f a.directives)
      (reposition f a.typeExtensions) (reposition f a.schemaExtensions)
  rw [eq_reposition_of_forall₂ TypeDefinition.Alike.eq h.types,
    eq_reposition_of_forall₂ SchemaDefinition.Alike.eq h.schemas,
    eq_reposition_of_forall₂ DirectiveDefinition.Alike.eq h.directives,
    eq_reposition_of_forall₂ TypeExtension.Alike.eq h.typeExtensions,
    eq_reposition_of_forall₂ SchemaExtension.Alike.eq h.schemaExtensions]

/-- Errors that are alike are one error moved. -/
theorem ParseError.Alike.eq {e e' : ParseError} (h : e.Alike (.moved f) e') : e' = reposition f e := by
  cases h with
  | same message fault hspan hnotes =>
    rw [hspan.eq, eq_reposition_of_forall₂ Note.Alike.eq hnotes]
    rfl
  | blockString wanted expected hlexeme hspan hnotes =>
    obtain rfl := hlexeme
    rw [hspan.eq, eq_reposition_of_forall₂ Note.Alike.eq hnotes]
    rfl

/-! ### Tokens that are moved -/

theorem Span.alike_reposition (span : Span) : span.Alike (.moved f) (reposition f span) := ⟨rfl, rfl, rfl⟩

theorem Note.alike_reposition (note : Note) : note.Alike (.moved f) (reposition f note) := by
  obtain ⟨kind, message, span⟩ := note
  refine ⟨rfl, rfl, ?_⟩
  cases span with
  | none => exact .none
  | some span => exact .some span.alike_reposition

theorem TokenKind.alike_reposition (kind : TokenKind) : kind.Alike (.moved f) (reposition f kind) := by
  cases kind with
  | punctuator p => exact .punctuator p
  | name => exact .name rfl
  | int => exact .int rfl
  | float => exact .float rfl
  | string => exact .string rfl
  | blockString => exact .blockString rfl
  | comment => exact .comment rfl
  | endOfInput => exact .endOfInput
  | invalid message notes =>
    exact .invalid message (List.forall₂_map_right_iff.2 (List.forall₂_same.2 fun note _ ↦ note.alike_reposition))

/-- A token is alike to itself moved. -/
theorem Token.alike_reposition (t : Token) : t.Alike (.moved f) (reposition f t) :=
  ⟨t.kind.alike_reposition, t.span.alike_reposition⟩

/-- A stream is alike to itself moved. -/
theorem TokenStream.alike_reposition (s : TokenStream) : s.Alike (.moved f) (reposition f s) :=
  ⟨List.forall₂_map_right_iff.2 (List.forall₂_same.2 fun t _ ↦ t.alike_reposition), rfl⟩

/-- Reading a document and changing positions can change places. -/
theorem commutes_document (source : Option String) (s : TokenStream) :
    Parser.document source (reposition f s) = reposition f (Parser.document source s) := by
  obtain ⟨hresult, hstream⟩ := respects_document source s _ (TokenStream.alike_reposition (f := f) s)
  refine Prod.ext ?_ hstream.eq
  show _ = reposition f (Parser.document source s).1
  generalize (Parser.document source s).1 = x at hresult ⊢
  generalize (Parser.document source (reposition f s)).1 = y at hresult ⊢
  cases hresult with
  | ok h => exact congrArg Except.ok h.eq
  | error h => exact congrArg Except.error h.eq

/-! ### The beginning of a document -/

namespace Parser

variable {σ : Type} {step : σ → Parser (Option σ)} {state : σ} {s s' : TokenStream}

/-- A loop goes the same way from two streams on which its first round does. -/
theorem iterate_congr (h : step state s = step state s') (hleft : s.left = s'.left) :
    iterate step state s = iterate step state s' := by
  rw [iterate, iterate, h, hleft]

/-- A loop ends where a round gives nothing. -/
theorem iterate_of_none (h : step state s = (.ok none, s')) : iterate step state s = (.ok state, s') := by
  rw [iterate, h]

theorem fst_map {α β : Type} (g : α → β) (p : Parser α) (s : TokenStream) :
    ((do return g (← p) : Parser β) s).1 = (p s).1.map g := by
  show (Parser.bind p _ s).1 = _
  rw [Parser.bind]
  cases p s with
  | mk r s' => cases r <;> rfl

/-- No item is read where the input ends. -/
theorem definition_of_end (source : Option String) (h : s.current.kind = .endOfInput) :
    definition source s = (.ok none, s) := by
  have hdescription : description? s = (.ok none, s) :=
    description?_of_notMem (h ▸ endOfInput_notMem_strings)
  exact (definition_eq_none_iff source).2 ⟨hdescription, h⟩

/-- A document is the same wherever a token before it would have ended. -/
theorem document_after (source : Option String) (pending : List Token) (e e' : Position) :
    (document source (.after e pending)).1 = (document source (.after e' pending)).1 := by
  rw [document, many, fst_map, fst_map, fst_map, fst_map]
  congr 2
  by_cases h : ∃ t ts, pending = t :: ts ∧ t.kind ≠ .endOfInput
  · -- the first item takes the first token
    obtain ⟨t, ts, rfl, ht⟩ := h
    have hfirst := (forgets_definition source).first (k := fun r ↦ Pure.pure (r.map (· :: [])))
    exact congrArg Prod.fst (iterate_congr (hfirst t ts e e' ht) rfl)
  · -- there is no item, since the input ends
    have hend (e : Position) : (TokenStream.after e pending).current.kind = .endOfInput := by
      cases pending with
      | nil => rfl
      | cons t ts => exact not_not.1 fun ht ↦ h ⟨t, ts, rfl, ht⟩
    have hnone (e : Position) : (do return (← definition source).map (· :: [])) (.after e pending) =
        ((.ok none, .after e pending) : Except ParseError (Option (List Definition)) × TokenStream) :=
      bind_eq_ok_iff.2 ⟨none, _, definition_of_end source (hend e), rfl⟩
    rw [iterate_of_none (hnone e), iterate_of_none (hnone e')]

end Parser

/-! ### Comments -/

/-- The tokens are the same, but for comments put in or left out. -/
inductive Token.SameButComments : List Token → List Token → Prop
  | nil : SameButComments [] []
  | both (t : Token) {ts us : List Token} (others : SameButComments ts us) :
    SameButComments (t :: ts) (t :: us)
  | putIn {comment : Token} (h : comment.isComment) {ts us : List Token} (others : SameButComments ts us) :
    SameButComments ts (comment :: us)
  | leftOut {comment : Token} (h : comment.isComment) {ts us : List Token} (others : SameButComments ts us) :
    SameButComments (comment :: ts) us

/-- Without comments the two lists are the same. -/
theorem Token.SameButComments.filter_eq {ts us : List Token} (h : SameButComments ts us) :
    (us.filter fun t ↦ !t.isComment) = ts.filter fun t ↦ !t.isComment := by
  induction h with
  | nil => rfl
  | both t _ ih => rw [List.filter_cons, List.filter_cons, ih]
  | putIn h _ ih => rw [List.filter_cons_of_neg (by simp [h]), ih]
  | leftOut h _ ih => rw [List.filter_cons_of_neg (by simp [h]), ih]

/-- Where the reading of a document starts does not matter, since an item begins at its first token. -/
theorem ofTokens_eq_document_after (source : Option String) (tokens : List Token) (e : Position) :
    Document.ofTokens source tokens =
      (Parser.document source (.after e (tokens.filter fun t ↦ !t.isComment))).1 :=
  Parser.document_after source _ .origin e

/-- **Positions and comments mean nothing.** Where tokens are given other positions, in their spans and in
the notes that they carry, they are read as the same document with these positions, or refused for the same
reason, in the same words, at these positions. Where comments are put between them or left out, the document
or the error is the same altogether. -/
theorem ofTokens_reposition (source : Option String) (tokens : List Token) :
    (∀ f : Position → Position, Document.ofTokens source (tokens.map (reposition f)) =
      reposition f (Document.ofTokens source tokens)) ∧
    ∀ tokens', Token.SameButComments tokens tokens' →
      Document.ofTokens source tokens' = Document.ofTokens source tokens := by
  refine ⟨fun f ↦ ?_, fun tokens' h ↦ ?_⟩
  · have hfilter : ((tokens.map (reposition f)).filter fun t ↦ !t.isComment) =
        (tokens.filter fun t ↦ !t.isComment).map (reposition f) := by
      rw [List.filter_map]
      congr 2
      funext t
      simp
    rw [ofTokens_eq_document_after source _ (f .origin), hfilter]
    exact congrArg Prod.fst (commutes_document source (.ofTokens tokens))
  · rw [Document.ofTokens, Document.ofTokens, TokenStream.ofTokens, TokenStream.ofTokens, h.filter_eq]

/-- An invalid token with a note that points elsewhere, behind a comment and with everything in one place. -/
theorem ofTokens_reposition_at_origin :
    let at_ (n : ℕ) : Position := ⟨0, n, n, n⟩
    let scalar : Token := ⟨.name "scalar", ⟨at_ 0, at_ 6, none⟩⟩
    let comment : Token := ⟨.comment "", ⟨at_ 7, at_ 8, none⟩⟩
    let bad (open_ start stop : Position) : Token :=
      ⟨.invalid "bad" [⟨.note, "opened", some (.emptyAt open_)⟩], ⟨start, stop, some "a"⟩⟩
    let error (open_ start stop : Position) : ParseError :=
      ⟨"bad", ⟨start, stop, some "a"⟩, .invalidToken, [⟨.note, "opened", some (.emptyAt open_)⟩]⟩
    Document.ofTokens (some "b") [scalar, comment, bad (at_ 2) (at_ 9) (at_ 10)] =
        .error (error (at_ 2) (at_ 9) (at_ 10)) ∧
      Document.ofTokens (some "b")
          ([scalar, comment, bad (at_ 2) (at_ 9) (at_ 10)].map (reposition fun _ ↦ Position.origin)) =
        .error (error .origin .origin .origin) ∧
      Token.SameButComments [scalar, comment, bad (at_ 2) (at_ 9) (at_ 10)]
        [comment, scalar, bad (at_ 2) (at_ 9) (at_ 10)] ∧
      Document.ofTokens (some "b") [comment, scalar, bad (at_ 2) (at_ 9) (at_ 10)] =
        .error (error (at_ 2) (at_ 9) (at_ 10)) := by
  intro at_ scalar comment bad error
  have hread : Document.ofTokens (some "b") [scalar, comment, bad (at_ 2) (at_ 9) (at_ 10)] =
      .error (error (at_ 2) (at_ 9) (at_ 10)) := by
    decide +kernel
  have hsame : Token.SameButComments [scalar, comment, bad (at_ 2) (at_ 9) (at_ 10)]
      [comment, scalar, bad (at_ 2) (at_ 9) (at_ 10)] :=
    .putIn rfl (.both _ (.leftOut rfl (.both _ .nil)))
  obtain ⟨hpositions, hcomments⟩ :=
    ofTokens_reposition (some "b") [scalar, comment, bad (at_ 2) (at_ 9) (at_ 10)]
  refine ⟨hread, ?_, hsame, ?_⟩
  · rw [hpositions, hread]
    rfl
  · rw [hcomments _ hsame, hread]

end TypeSystem
