import TypeSystem.Diagnostic.ParseError
import TypeSystem.Proofs.Syntax.Spans
import TypeSystem.Token.Stream

/-!
# Positions, changed

`reposition f` puts another position in the place of every position in a value. Nothing else changes: not
the names of texts in spans, nor the text of a token or a message. In a token this reaches the notes that an
invalid one carries, in an error the notes that come with it, and in what a reader gives either the result
or the error.
-/

namespace TypeSystem

/-- Types of values with positions in them. -/
class HasPositions (α : Type) where
  /-- The value with all its positions changed. -/
  reposition : (Position → Position) → α → α

open HasPositions (reposition)

namespace HasPositions

variable {α β ε : Type}

instance : HasPositions Position := ⟨fun f pos ↦ f pos⟩

instance : HasPositions Span := ⟨fun f span ↦ ⟨f span.start, f span.stop, span.source⟩⟩

/-- In the nodes of a document, positions are the ends of spans. -/
instance (priority := low) [HasSpans α] : HasPositions α := ⟨fun f ↦ HasSpans.mapSpans (reposition f)⟩

instance [HasPositions α] : HasPositions (Option α) := ⟨fun f a ↦ a.map (reposition f)⟩

instance [HasPositions α] : HasPositions (List α) := ⟨fun f as ↦ as.map (reposition f)⟩

instance [HasPositions α] [HasPositions β] : HasPositions (α × β) :=
  ⟨fun f a ↦ (reposition f a.1, reposition f a.2)⟩

instance [HasPositions ε] [HasPositions α] : HasPositions (Except ε α) where
  reposition f
    | .ok a => .ok (reposition f a)
    | .error e => .error (reposition f e)

instance : HasPositions Note := ⟨fun f note ↦ { note with span := reposition f note.span }⟩

instance : HasPositions TokenKind where
  reposition f
    | .invalid message notes => .invalid message (reposition f notes)
    | kind => kind

instance : HasPositions Token := ⟨fun f t ↦ ⟨reposition f t.kind, reposition f t.span⟩⟩

instance : HasPositions ParseError :=
  ⟨fun f e ↦ { e with span := reposition f e.span, notes := reposition f e.notes }⟩

instance : HasPositions TokenStream :=
  ⟨fun f s ↦ .after (f s.lastEnd) (reposition f s.pending)⟩

end HasPositions

/-! ### Tokens -/

/-- A token keeps its sort wherever it stands. -/
@[simp] theorem TokenKind.sort_reposition (f : Position → Position) (kind : TokenKind) :
    (reposition f kind).sort = kind.sort := by
  cases kind <;> rfl

@[simp] theorem Token.isComment_reposition (f : Position → Position) (t : Token) :
    (reposition f t).isComment = t.isComment :=
  congrArg (fun sort : TokenSort ↦ decide (sort = .comment)) (TokenKind.sort_reposition f t.kind)

end TypeSystem
