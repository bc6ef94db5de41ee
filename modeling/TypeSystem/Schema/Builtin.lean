import TypeSystem.Reading.Source

/-!
# Built-in definitions

The scalars and directives that every schema has. They are written as a source like any other, and come
before everything that a user defines; a definition that takes one of their names is a second one.
-/

namespace TypeSystem.Builtin

/-- The name of the built-in source. -/
def sourceName : String := "<builtins>"

/-- The text of the built-in source. -/
def text : String := "
scalar Int
scalar Float
scalar String
scalar Boolean
scalar ID

directive @include(if: Boolean!) on FIELD | FRAGMENT_SPREAD | INLINE_FRAGMENT

directive @skip(if: Boolean!) on FIELD | FRAGMENT_SPREAD | INLINE_FRAGMENT

directive @deprecated(
  reason: String = \"No longer supported\"
) on FIELD_DEFINITION | ARGUMENT_DEFINITION | INPUT_FIELD_DEFINITION | ENUM_VALUE

directive @specifiedBy(url: String!) on SCALAR
"

/-- The built-in source. -/
def source : Source := ⟨sourceName, text⟩

/-- The document that a source makes, or the empty one if it makes none. -/
def documentOf (source : Source) : Document :=
  match Document.ofSource source with
  | .ok d => d
  | .error _ => .empty

/-- The built-in document. -/
def document : Document := documentOf source

theorem documentOf_ofList (name : String) (cs : List Char) :
    documentOf ⟨name, String.ofList cs⟩ =
      (Document.ofTokens (some name) (Token.lexFrom .origin cs)).toOption.getD .empty := by
  unfold documentOf Document.ofSource Token.lex
  rw [String.toList_ofList]
  cases Document.ofTokens (some name) (Token.lexFrom .origin cs) <;> rfl

/-- The built-in document, from the characters of its text. To evaluate it this way is far cheaper: the
kernel takes a literal apart by the bytes of its UTF-8 form, but equates it with a list of characters at
once, so that `h` holds by `rfl`. -/
theorem document_of_text_eq {cs : List Char} (h : text = String.ofList cs) :
    document =
      (Document.ofTokens (some sourceName) (Token.lexFrom .origin cs)).toOption.getD .empty := by
  rw [document, source, h, documentOf_ofList]

end TypeSystem.Builtin
