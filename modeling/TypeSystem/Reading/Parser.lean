import TypeSystem.Diagnostic.ParseError
import TypeSystem.Token.Stream

/-!
# Parsers

A parser takes tokens from a stream and gives a result or an error, together with the stream it has
come to; that is known after an error too. Parsers are built from a few steps that look at the next
token, pass it if it fits, or insist that it fits, and from one loop, `iterate`.

The loop goes on as long as each round takes something from the stream, so it always ends. A round that
takes nothing is the last one.
-/

namespace TypeSystem

/-- A computation that reads tokens and may fail. -/
def Parser (α : Type) : Type :=
  TokenStream → Except ParseError α × TokenStream

namespace Parser

variable {α β σ : Type}

/-- The parser that reads nothing. -/
protected def pure (a : α) : Parser α := fun s ↦ (.ok a, s)

/-- One parser, then another that may depend on its result. -/
protected def bind (p : Parser α) (f : α → Parser β) : Parser β := fun s ↦
  match p s with
  | (.ok a, s') => f a s'
  | (.error e, s') => (.error e, s')

instance : Monad Parser where
  pure := Parser.pure
  bind := Parser.bind

/-- The parser that fails where it stands. -/
def fail (error : ParseError) : Parser α := fun s ↦ (.error error, s)

/-! ### Single tokens -/

/-- Shows the next token. -/
def peek : Parser Token := fun s ↦ (.ok s.current, s)

/-- Takes the next token. -/
def next : Parser Token := fun s ↦ (.ok s.current, s.advance)

/-- Where the next token begins. -/
def here : Parser Position := fun s ↦ (.ok s.current.span.start, s)

/-- Where the last token taken ended. -/
def lastEnd : Parser Position := fun s ↦ (.ok s.lastEnd, s)

/-- The error of a token that does not fit. An invalid token keeps its own message and notes. -/
def misfit (found : Token) (expected : List String) : ParseError :=
  let wanted := "expected " ++ String.intercalate " or " expected ++ ", found "
  match found.kind with
  | .invalid message notes => ⟨message, found.span, .invalidToken, notes⟩
  | .endOfInput => .plain (wanted ++ "end of input") found.span (.unexpectedEnd expected)
  | kind => .plain (wanted ++ kind.describe) found.span (.unexpectedToken expected kind.describe)

/-- Takes the next token and fails because of it. -/
def unexpected (expected : List String) : Parser α := do
  let found ← next
  fail (misfit found expected)

/-- Whether the next token is of a sort. -/
def peekIs (sort : TokenSort) : Parser Bool := fun s ↦ (.ok (s.current.kind.sort = sort), s)

/-- Whether the next token is a given name. -/
def peekIsKeyword (keyword : String) : Parser Bool := fun s ↦ (.ok (s.current.isKeyword keyword), s)

/-- Whether only the end of the input is left. -/
def atEnd : Parser Bool := peekIs .endOfInput

/-- Takes the next token if it is of one of the sorts. -/
def accept (sorts : List TokenSort) : Parser (Option Token) := fun s ↦
  if sorts.contains s.current.kind.sort then (.ok (some s.current), s.advance) else (.ok none, s)

/-- Takes the next token, which must be of one of the sorts. -/
def require (sorts : List TokenSort) (expected : String) : Parser Token := do
  match ← accept sorts with
  | some token => return token
  | none => unexpected [expected]

/-- Takes the next token if it is a given name. -/
def acceptKeyword (keyword : String) : Parser Bool := fun s ↦
  if s.current.isKeyword keyword then (.ok true, s.advance) else (.ok false, s)

/-- Takes the next token, which must be a given name. -/
def requireKeyword (keyword : String) : Parser Token := fun s ↦
  if s.current.isKeyword keyword then (.ok s.current, s.advance)
  else unexpected [Text.quoted keyword] s

/-- Takes the next token, which must be a name, and gives its text and span. -/
def requireName (expected : String) : Parser (String × Span) := do
  let token ← next
  match token.kind with
  | .name text => return (text, token.span)
  | _ => fail (misfit token [expected])

/-- Takes a string that stands before a definition to describe it. -/
def description? : Parser (Option String) := do
  match ← accept [.string, .blockString] with
  | some token => return token.kind.rawText?
  | none => return none

/-! ### Loops -/

/-- Goes on from state to state until a round gives none. -/
def iterate (step : σ → Parser (Option σ)) (state : σ) : Parser σ := fun s ↦
  match step state s with
  | (.error e, s') => (.error e, s')
  | (.ok none, s') => (.ok state, s')
  | (.ok (some state'), s') =>
    if s'.left < s.left then iterate step state' s' else (.ok state', s')
termination_by s => s.left

/-- The results of an item parser, as long as it gives any. -/
def many (item : Parser (Option α)) : Parser (List α) := do
  let reversed ← iterate (fun found ↦ do return (← item).map (· :: found)) []
  return reversed.reverse

/-! ### Punctuation -/

/-- Takes the next token if it is a punctuator. -/
def acceptMark (p : Punctuator) : Parser Bool := do
  return (← accept [.punctuator p]).isSome

/-- Takes the next token, which must be a punctuator. -/
def requireMark (p : Punctuator) : Parser Token :=
  require [.punctuator p] (Text.quoted p.text)

/-- Takes a name and gives its text. -/
def name (expected : String) : Parser String := do
  return (← requireName expected).1

/-- An item unless the mark stands there, which is then taken. -/
def unlessMark (close : Punctuator) (item : Parser α) : Parser (Option α) := do
  if ← acceptMark close then return none else return some (← item)

/-- An item after the mark, if the mark stands there. -/
def afterMark (mark : Punctuator) (item : Parser α) : Parser (Option α) := do
  if ← acceptMark mark then return some (← item) else return none

/-- Items with a mark between them, and perhaps one in front. -/
def separated (mark : Punctuator) (item : Parser α) : Parser (List α) := do
  let _ ← acceptMark mark
  let first ← item
  let others ← many (afterMark mark item)
  return first :: others

end Parser

/-- A pair of brackets. -/
inductive Brackets where
  | braces
  | parens
deriving DecidableEq, Repr

namespace Brackets

/-- The bracket that opens. -/
def opening : Brackets → Punctuator
  | braces => .braceOpen
  | parens => .parenOpen

/-- The bracket that closes. -/
def closing : Brackets → Punctuator
  | braces => .braceClose
  | parens => .parenClose

end Brackets

namespace Parser

variable {α : Type}

/-- Fails, taking the next token, if that token is the mark which closes a block just opened. -/
def refuseEmpty (close : Punctuator) (construct : String) : Parser Unit := do
  if ← peekIs (.punctuator close) then
    let found ← next
    fail (.plain (construct ++ " must not be empty") found.span (.emptyConstruct construct))

/-- What stands between brackets; there must be something. -/
def enclosed (brackets : Brackets) (construct : String) (inside : Parser α) : Parser α := do
  let _ ← requireMark brackets.opening
  refuseEmpty brackets.closing construct
  inside

/-- Items between brackets, at least one. -/
def block (brackets : Brackets) (construct : String) (item : Parser α) : Parser (List α) :=
  enclosed brackets construct (many (unlessMark brackets.closing item))

/-- Items between brackets, at least one, or no brackets. -/
def optionalBlock (brackets : Brackets) (construct : String) (item : Parser α) :
    Parser (List α) := do
  if ← peekIs (.punctuator brackets.opening) then block brackets construct item else return []

end Parser

end TypeSystem
