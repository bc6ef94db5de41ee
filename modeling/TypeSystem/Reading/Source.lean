import TypeSystem.Reading.Grammar
import TypeSystem.Token.Lexer

/-!
# Sources

A source is a text with a name, which stands in every span and every error that comes from it.
-/

namespace TypeSystem

/-- A named text. -/
structure Source where
  name : String
  body : String
deriving DecidableEq, Repr

namespace Document

/-- The document that a text without a name makes. -/
def ofText (text : String) : Except ParseError Document :=
  ofTokens none (Token.lex text)

/-- The document that a source makes. -/
def ofSource (source : Source) : Except ParseError Document :=
  (ofTokens (some source.name) (Token.lex source.body)).mapError fun error ↦
    error.inSource source.name

end Document

namespace Source

/-- The body of the first source of a given name. -/
def body? (sources : List Source) (name : String) : Option String :=
  (sources.find? fun source ↦ source.name = name).map Source.body

end Source

end TypeSystem
