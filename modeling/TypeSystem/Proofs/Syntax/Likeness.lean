import Mathlib.Data.List.Forall2
import Mathlib.Data.Option.Defs
import TypeSystem.Diagnostic.ParseError
import TypeSystem.Syntax.Document
import TypeSystem.Token.Stream

/-!
# Values that are alike

Two tokens, or two nodes of a document, are alike if they are the same up to two things: where they stand, and
how their lexemes are written. Which positions may stand for one another, and which lexemes, is what a
`Likeness` says; all else has to be equal. Of the lexemes of tokens only block strings may be written in another
way: any other has to be like itself, and stays as it is.

Errors are alike in the same way. A message may describe a token, so the errors of two tokens that do not fit
differ by the description of a block string if that is what was found.
-/

namespace TypeSystem

/-- Which positions and which lexemes may stand for one another. -/
structure Likeness where
  /-- Whether one position may stand for another. -/
  place : Position → Position → Prop
  /-- Whether one lexeme may stand for another. -/
  lexeme : String → String → Prop

variable (l : Likeness)

/-! ### Tokens -/

structure Span.Alike (a b : Span) : Prop where
  start : l.place a.start b.start
  stop : l.place a.stop b.stop
  source : a.source = b.source

structure Note.Alike (a b : Note) : Prop where
  kind : a.kind = b.kind
  message : a.message = b.message
  span : Option.Rel (Span.Alike l) a.span b.span

inductive TokenKind.Alike : TokenKind → TokenKind → Prop
  | punctuator (p : Punctuator) : Alike (.punctuator p) (.punctuator p)
  | name {text : String} (self : l.lexeme text text) : Alike (.name text) (.name text)
  | int {text : String} (self : l.lexeme text text) : Alike (.int text) (.int text)
  | float {text : String} (self : l.lexeme text text) : Alike (.float text) (.float text)
  | string {text : String} (self : l.lexeme text text) : Alike (.string text) (.string text)
  | blockString {text text' : String} (lexeme : l.lexeme text text') : Alike (.blockString text) (.blockString text')
  | comment {text : String} (self : l.lexeme text text) : Alike (.comment text) (.comment text)
  | endOfInput : Alike .endOfInput .endOfInput
  | invalid (message : String) {notes notes' : List Note} (notes_alike : List.Forall₂ (Note.Alike l) notes notes') :
      Alike (.invalid message notes) (.invalid message notes')

structure Token.Alike (t u : Token) : Prop where
  kind : t.kind.Alike l u.kind
  span : t.span.Alike l u.span

structure TokenStream.Alike (s s' : TokenStream) : Prop where
  pending : List.Forall₂ (Token.Alike l) s.pending s'.pending
  lastEnd : l.place s.lastEnd s'.lastEnd

/-! ### Nodes -/

structure Argument.Alike (a b : Argument) : Prop where
  name : a.name = b.name
  value : l.lexeme a.value b.value

structure AppliedDirective.Alike (a b : AppliedDirective) : Prop where
  name : a.name = b.name
  arguments : List.Forall₂ (Argument.Alike l) a.arguments b.arguments
  span : a.span.Alike l b.span

structure InputValueDefinition.Alike (a b : InputValueDefinition) : Prop where
  description : Option.Rel l.lexeme a.description b.description
  name : a.name = b.name
  type : a.type = b.type
  defaultValue : Option.Rel l.lexeme a.defaultValue b.defaultValue
  directives : List.Forall₂ (AppliedDirective.Alike l) a.directives b.directives
  span : a.span.Alike l b.span

structure FieldDefinition.Alike (a b : FieldDefinition) : Prop where
  description : Option.Rel l.lexeme a.description b.description
  name : a.name = b.name
  arguments : List.Forall₂ (InputValueDefinition.Alike l) a.arguments b.arguments
  type : a.type = b.type
  directives : List.Forall₂ (AppliedDirective.Alike l) a.directives b.directives
  span : a.span.Alike l b.span

structure EnumValueDefinition.Alike (a b : EnumValueDefinition) : Prop where
  description : Option.Rel l.lexeme a.description b.description
  name : a.name = b.name
  directives : List.Forall₂ (AppliedDirective.Alike l) a.directives b.directives
  span : a.span.Alike l b.span

inductive TypeBody.Alike : TypeBody → TypeBody → Prop
  | scalar : Alike .scalar .scalar
  | object (interfaces : List String) {fields fields' : List FieldDefinition}
      (fields_alike : List.Forall₂ (FieldDefinition.Alike l) fields fields') :
      Alike (.object interfaces fields) (.object interfaces fields')
  | interface (interfaces : List String) {fields fields' : List FieldDefinition}
      (fields_alike : List.Forall₂ (FieldDefinition.Alike l) fields fields') :
      Alike (.interface interfaces fields) (.interface interfaces fields')
  | union (members : List String) : Alike (.union members) (.union members)
  | enum {values values' : List EnumValueDefinition}
      (values_alike : List.Forall₂ (EnumValueDefinition.Alike l) values values') :
      Alike (.enum values) (.enum values')
  | inputObject {fields fields' : List InputValueDefinition}
      (fields_alike : List.Forall₂ (InputValueDefinition.Alike l) fields fields') :
      Alike (.inputObject fields) (.inputObject fields')

structure TypeDefinition.Alike (a b : TypeDefinition) : Prop where
  description : Option.Rel l.lexeme a.description b.description
  name : a.name = b.name
  directives : List.Forall₂ (AppliedDirective.Alike l) a.directives b.directives
  body : a.body.Alike l b.body
  span : a.span.Alike l b.span

structure TypeExtension.Alike (a b : TypeExtension) : Prop where
  name : a.name = b.name
  directives : List.Forall₂ (AppliedDirective.Alike l) a.directives b.directives
  body : a.body.Alike l b.body
  span : a.span.Alike l b.span

structure SchemaDefinition.Alike (a b : SchemaDefinition) : Prop where
  description : Option.Rel l.lexeme a.description b.description
  directives : List.Forall₂ (AppliedDirective.Alike l) a.directives b.directives
  roots : a.roots = b.roots
  span : a.span.Alike l b.span

structure SchemaExtension.Alike (a b : SchemaExtension) : Prop where
  directives : List.Forall₂ (AppliedDirective.Alike l) a.directives b.directives
  roots : a.roots = b.roots
  span : a.span.Alike l b.span

structure DirectiveDefinition.Alike (a b : DirectiveDefinition) : Prop where
  description : Option.Rel l.lexeme a.description b.description
  name : a.name = b.name
  arguments : List.Forall₂ (InputValueDefinition.Alike l) a.arguments b.arguments
  repeatable : a.repeatable = b.repeatable
  locations : a.locations = b.locations
  span : a.span.Alike l b.span

inductive Definition.Alike : Definition → Definition → Prop
  | type {a b : TypeDefinition} (alike : a.Alike l b) : Alike (.type a) (.type b)
  | schema {a b : SchemaDefinition} (alike : a.Alike l b) : Alike (.schema a) (.schema b)
  | directive {a b : DirectiveDefinition} (alike : a.Alike l b) : Alike (.directive a) (.directive b)
  | typeExtension {a b : TypeExtension} (alike : a.Alike l b) : Alike (.typeExtension a) (.typeExtension b)
  | schemaExtension {a b : SchemaExtension} (alike : a.Alike l b) :
      Alike (.schemaExtension a) (.schemaExtension b)

structure Document.Alike (a b : Document) : Prop where
  types : List.Forall₂ (TypeDefinition.Alike l) a.types b.types
  schemas : List.Forall₂ (SchemaDefinition.Alike l) a.schemas b.schemas
  directives : List.Forall₂ (DirectiveDefinition.Alike l) a.directives b.directives
  typeExtensions : List.Forall₂ (TypeExtension.Alike l) a.typeExtensions b.typeExtensions
  schemaExtensions : List.Forall₂ (SchemaExtension.Alike l) a.schemaExtensions b.schemaExtensions

/-! ### Errors -/

/-- The same errors, or such as say the same of block strings that are alike. -/
inductive ParseError.Alike : ParseError → ParseError → Prop
  | same (message : String) (fault : SyntaxFault) {span span' : Span} {notes notes' : List Note}
      (span_alike : span.Alike l span') (notes_alike : List.Forall₂ (Note.Alike l) notes notes') :
      Alike ⟨message, span, fault, notes⟩ ⟨message, span', fault, notes'⟩
  | blockString (wanted : String) (expected : List String) {text text' : String} {span span' : Span}
      {notes notes' : List Note} (lexeme : l.lexeme text text') (span_alike : span.Alike l span')
      (notes_alike : List.Forall₂ (Note.Alike l) notes notes') :
      Alike
        ⟨wanted ++ (TokenKind.blockString text).describe, span,
          .unexpectedToken expected (TokenKind.blockString text).describe, notes⟩
        ⟨wanted ++ (TokenKind.blockString text').describe, span',
          .unexpectedToken expected (TokenKind.blockString text').describe, notes'⟩

/-! ### What values that are alike share -/

variable {l}

/-- Tokens that are alike are of one sort, so the reader goes the same way at either. -/
theorem TokenKind.Alike.sort_eq {a b : TokenKind} (h : a.Alike l b) : a.sort = b.sort := by
  cases h <;> rfl

/-- What stands in a value is alike, if it is a value at all. -/
theorem TokenKind.Alike.rawText? {a b : TokenKind} (h : a.Alike l b) :
    Option.Rel l.lexeme a.rawText? b.rawText? := by
  cases h with
  | name h | int h | float h | string h | blockString h | comment h => exact .some h
  | punctuator | endOfInput | invalid => exact .none

/-- Names are the same, since only block strings may differ in their letters. -/
theorem TokenKind.Alike.eq_name_iff {a b : TokenKind} (h : a.Alike l b) (text : String) :
    a = .name text ↔ b = .name text := by
  cases h <;> simp

theorem Token.Alike.isKeyword_eq {t u : Token} (h : t.Alike l u) (keyword : String) :
    t.isKeyword keyword = u.isKeyword keyword :=
  decide_eq_decide.2 (h.kind.eq_name_iff keyword)

theorem Token.Alike.isComment_eq {t u : Token} (h : t.Alike l u) : t.isComment = u.isComment :=
  congrArg (fun sort : TokenSort ↦ decide (sort = .comment)) h.kind.sort_eq

/-- Bodies that are alike have no members, or both have some. -/
theorem TypeBody.Alike.isEmpty_eq {a b : TypeBody} (h : a.Alike l b) : a.isEmpty = b.isEmpty := by
  cases h with
  | scalar | union => rfl
  | object _ hfields | interface _ hfields => cases hfields <;> rfl
  | enum hvalues => cases hvalues <;> rfl
  | inputObject hfields => cases hfields <;> rfl

/-- Documents of items that are alike are alike. -/
theorem Document.Alike.ofDefinitions {xs ys : List Definition} (h : List.Forall₂ (Definition.Alike l) xs ys) :
    (Document.ofDefinitions xs).Alike l (Document.ofDefinitions ys) := by
  induction h with
  | nil => exact ⟨.nil, .nil, .nil, .nil, .nil⟩
  | cons hitem _ ih =>
    obtain ⟨types, schemas, directives, typeExtensions, schemaExtensions⟩ := ih
    cases hitem with
    | type h => exact ⟨.cons h types, schemas, directives, typeExtensions, schemaExtensions⟩
    | schema h => exact ⟨types, .cons h schemas, directives, typeExtensions, schemaExtensions⟩
    | directive h => exact ⟨types, schemas, .cons h directives, typeExtensions, schemaExtensions⟩
    | typeExtension h => exact ⟨types, schemas, directives, .cons h typeExtensions, schemaExtensions⟩
    | schemaExtension h => exact ⟨types, schemas, directives, typeExtensions, .cons h schemaExtensions⟩

namespace TokenStream.Alike

variable {s s' : TokenStream}

/-- Streams that are alike have as many tokens left. -/
theorem left_eq (h : s.Alike l s') : s.left = s'.left := by
  rw [s.left_eq, s'.left_eq, h.pending.length_eq]

/-- Streams that are alike show tokens that are alike. -/
theorem current (h : s.Alike l s') : s.current.Alike l s'.current := by
  obtain ⟨pending, e, left, rfl⟩ := s
  obtain ⟨pending', e', left', rfl⟩ := s'
  obtain ⟨hpending, hend⟩ := h
  cases hpending with
  | nil => exact ⟨.endOfInput, ⟨hend, hend, rfl⟩⟩
  | cons ht _ => exact ht

/-- And they are alike behind those. -/
theorem advance (h : s.Alike l s') : s.advance.Alike l s'.advance := by
  have hcurrent := h.current
  obtain ⟨pending, e, left, rfl⟩ := s
  obtain ⟨pending', e', left', rfl⟩ := s'
  obtain ⟨hpending, hend⟩ := h
  cases hpending with
  | nil => exact ⟨.nil, hcurrent.span.stop⟩
  | cons ht hothers => exact ⟨hothers, ht.span.stop⟩

end TokenStream.Alike

end TypeSystem
