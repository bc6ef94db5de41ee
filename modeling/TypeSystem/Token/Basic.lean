import TypeSystem.Diagnostic.Note

/-!
# Tokens

A token is a classified piece of text with its span. Names and literals keep their text exactly as
written, quotes included: nothing is unescaped or converted. Keywords are names; what they mean is
decided where they stand. A piece of text that fits no token is a token of its own, `invalid`, which
carries its error.
-/

namespace TypeSystem

/-- The characters that are tokens by themselves. -/
inductive Punctuator where
  | ampersand
  | atSign
  | bang
  | colon
  | braceClose
  | braceOpen
  | equals
  | parenClose
  | parenOpen
  | pipe
  | bracketClose
  | bracketOpen
deriving DecidableEq, Repr

namespace Punctuator

/-- Every punctuator. -/
def all : List Punctuator :=
  [ampersand, atSign, bang, colon, braceClose, braceOpen, equals, parenClose, parenOpen, pipe,
    bracketClose, bracketOpen]

/-- The character of a punctuator. -/
def char : Punctuator → Char
  | ampersand => '&'
  | atSign => '@'
  | bang => '!'
  | colon => ':'
  | braceClose => '}'
  | braceOpen => '{'
  | equals => '='
  | parenClose => ')'
  | parenOpen => '('
  | pipe => '|'
  | bracketClose => ']'
  | bracketOpen => '['

/-- The text of a punctuator. -/
def text (p : Punctuator) : String := p.char.toString

/-- The punctuator that a character is, if any. -/
def ofChar? (c : Char) : Option Punctuator :=
  all.find? fun p ↦ p.char = c

theorem mem_all (p : Punctuator) : p ∈ all := by
  cases p <;> decide

theorem char_of_ofChar? {c : Char} {p : Punctuator} (h : ofChar? c = some p) : p.char = c := by
  simpa using List.find?_some h

theorem ofChar?_char (p : Punctuator) : ofChar? p.char = some p := by
  cases p <;> decide

end Punctuator

/-- What a token is, with its text where it has one of its own. -/
inductive TokenKind where
  | punctuator (p : Punctuator)
  /-- A name or keyword. -/
  | name (text : String)
  /-- A whole number, sign included. -/
  | int (text : String)
  /-- A number with a fraction or an exponent, sign included. -/
  | float (text : String)
  /-- A string on one line, quotes included. -/
  | string (text : String)
  /-- A string between triple quotes, quotes included. -/
  | blockString (text : String)
  /-- A comment, without its number sign. -/
  | comment (text : String)
  /-- The end of the input. -/
  | endOfInput
  /-- A piece of text that is no token, with its error. -/
  | invalid (message : String) (notes : List Note)
deriving DecidableEq, Repr

/-- What a token is, its text aside. -/
inductive TokenSort where
  | punctuator (p : Punctuator)
  | name
  | int
  | float
  | string
  | blockString
  | comment
  | endOfInput
  | invalid
deriving DecidableEq, Repr

namespace TokenKind

/-- The sort of a token of this kind. -/
def sort : TokenKind → TokenSort
  | punctuator p => .punctuator p
  | name _ => .name
  | int _ => .int
  | float _ => .float
  | string _ => .string
  | blockString _ => .blockString
  | comment _ => .comment
  | endOfInput => .endOfInput
  | invalid _ _ => .invalid

/-- The text of a name, a literal or a comment. -/
def rawText? : TokenKind → Option String
  | name text | int text | float text | string text | blockString text | comment text => some text
  | punctuator _ | endOfInput | invalid _ _ => none

/-- The text of a literal value: a number, a string, or a name. -/
def value? : TokenKind → Option String
  | name text | int text | float text | string text | blockString text => some text
  | punctuator _ | comment _ | endOfInput | invalid _ _ => none

/-- The word for tokens of this kind in a message. -/
def category : TokenKind → String
  | punctuator _ => "punctuator"
  | name _ => "name"
  | int _ => "int"
  | float _ => "float"
  | string _ => "string"
  | blockString _ => "block string"
  | comment _ => "comment"
  | endOfInput => "end of input"
  | invalid _ _ => "invalid token"

/-- The token as a message shows it: its category, and its text between backticks. -/
def describe : TokenKind → String
  | punctuator p => Text.quoted p.text
  | kind =>
    match kind.rawText? with
    | some text => kind.category ++ " " ++ Text.quoted text
    | none => kind.category

end TokenKind

/-- A token and the part of the text it covers. -/
structure Token where
  /-- What the token is. -/
  kind : TokenKind
  /-- Where it stands. -/
  span : Span
deriving DecidableEq, Repr

namespace Token

/-- Whether the token is a comment, which means nothing to a reader of tokens. -/
def isComment (token : Token) : Bool :=
  token.kind.sort = .comment

/-- Whether the token is the name `keyword`. -/
def isKeyword (token : Token) (keyword : String) : Bool :=
  token.kind = .name keyword

/-- The end of the input, found at a position. -/
def endAt (pos : Position) : Token :=
  ⟨.endOfInput, .emptyAt pos⟩

end Token

end TypeSystem
