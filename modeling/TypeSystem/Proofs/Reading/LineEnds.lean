import TypeSystem.Proofs.Reading.Likeness
import TypeSystem.Proofs.Token.LineEnds
import TypeSystem.Reading.Source

/-!
# Documents and line ends

Which line ends a text has makes no difference to what is read from it, byte offsets and the insides of block
strings aside (`Document.reads_unified`). The tokens are alike with line ends of one kind, and a reader that is
given tokens that are alike reads documents that are, or comes to errors that are.
-/

namespace TypeSystem

variable {l : Likeness}

namespace Likeness.Result

/-- Errors that are changed alike are alike. -/
theorem mapError {α β : Type} {R : α → β → Prop} {x : Except ParseError α} {y : Except ParseError β}
    {f : ParseError → ParseError} (h : l.Result R x y) (hf : ∀ e e', e.Alike l e' → (f e).Alike l (f e')) :
    l.Result R (x.mapError f) (y.mapError f) := by
  cases h with
  | ok h => exact .ok h
  | error h => exact .error (hf _ _ h)

end Likeness.Result

/-- Naming the source leaves errors alike. -/
theorem ParseError.Alike.inSource {e e' : ParseError} (h : e.Alike l e') (name : String) :
    (e.inSource name).Alike l (e'.inSource name) := by
  cases h with
  | same message fault hspan hnotes => exact .same message fault ⟨hspan.start, hspan.stop, rfl⟩ hnotes
  | blockString wanted expected hlexeme hspan hnotes =>
    exact .blockString wanted expected hlexeme ⟨hspan.start, hspan.stop, rfl⟩ hnotes

/-- Streams of tokens that are alike are alike, if they begin at places that are. -/
theorem TokenStream.alike_ofTokens {ts us : List Token} (h : List.Forall₂ (Token.Alike l) ts us)
    (horigin : l.place .origin .origin) :
    (TokenStream.ofTokens ts).Alike l (TokenStream.ofTokens us) := by
  refine ⟨?_, horigin⟩
  show List.Forall₂ _ (ts.filter _) (us.filter _)
  induction h with
  | nil => exact .nil
  | cons ht _ ih =>
    rw [List.filter_cons, List.filter_cons, ht.isComment_eq]
    split
    · exact .cons ht ih
    · exact ih

namespace Document

/-- Tokens that are alike make documents that are alike, or errors that are. -/
theorem ofTokens_alike (source : Option String) {ts us : List Token}
    (h : List.Forall₂ (Token.Alike l) ts us) (horigin : l.place .origin .origin) :
    l.Result (Document.Alike l) (ofTokens source ts) (ofTokens source us) :=
  (respects_document _ _ _ (TokenStream.alike_ofTokens h horigin)).1

/-- A text with a line feed in the place of every line end is cut into the same tokens and makes the same
document, or the same error, but for byte offsets and for the line ends in block strings; and so it does as a
source of any name. -/
theorem reads_unified (text : String) :
    let other := String.ofList (Text.unified text.toList)
    List.Forall₂ (Token.Alike .lineEnds) (Token.lex text) (Token.lex other) ∧
      Likeness.lineEnds.Result (Document.Alike .lineEnds) (ofText text) (ofText other) ∧
      ∀ name, Likeness.lineEnds.Result (Document.Alike .lineEnds) (ofSource ⟨name, text⟩)
        (ofSource ⟨name, other⟩) := by
  intro other
  have htokens : List.Forall₂ (Token.Alike .lineEnds) (Token.lex text) (Token.lex other) :=
    Token.lex_unified text
  have hread (source : Option String) := ofTokens_alike source htokens ⟨rfl, rfl, rfl⟩
  exact ⟨htokens, hread none, fun name ↦ (hread (some name)).mapError fun _ _ h ↦ h.inSource name⟩

end Document

end TypeSystem
