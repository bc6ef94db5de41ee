import TypeSystem.Reading.Parser

/-!
# Tokens drawn on demand

A buffer stands between a list of tokens and whoever reads it. It draws a token only when it is asked about
one, drops the comments that come before it, and holds back a token that has been looked at until it is
taken. When the list has run out, it makes up an end of the input where the last token taken ended.

The steps are those from which parsers are built, and a `Question` names one of them.
-/

namespace TypeSystem

/-- Tokens that are drawn one by one, and room for one of them. -/
structure TokenBuffer where
  /-- The tokens not drawn yet, comments among them. -/
  undrawn : List Token
  /-- The token that has been looked at and not taken, if there is one. -/
  slot : Option Token
  /-- Where the last token taken ended. -/
  lastEnd : Position
deriving Repr

namespace TokenBuffer

/-- The buffer of a list of tokens. -/
def ofTokens (tokens : List Token) : TokenBuffer := ⟨tokens, none, .origin⟩

/-- A step that asks a buffer for tokens, and may refuse what it gets. -/
abbrev Step (α : Type) : Type := ExceptT ParseError (StateM TokenBuffer) α

/-- The first token that is no comment and those behind it, or else the end of the input at `lastEnd`. -/
def draw (lastEnd : Position) : List Token → Token × List Token
  | [] => (.endAt lastEnd, [])
  | t :: ts => if t.isComment then draw lastEnd ts else (t, ts)

/-- Takes the next token: the one held back, or a new one. -/
def next : Step Token := fun b ↦
  match b.slot with
  | some t => (.ok t, ⟨b.undrawn, none, t.span.stop⟩)
  | none =>
    let (t, undrawn) := draw b.lastEnd b.undrawn
    (.ok t, ⟨undrawn, none, t.span.stop⟩)

/-- Shows the next token and holds it back. -/
def peek : Step Token := fun b ↦
  match b.slot with
  | some t => (.ok t, b)
  | none =>
    let (t, undrawn) := draw b.lastEnd b.undrawn
    (.ok t, ⟨undrawn, some t, b.lastEnd⟩)

/-- Takes the next token and fails because of it. -/
def unexpected {α : Type} (expected : List String) : Step α := do
  throw (Parser.misfit (← next) expected)

/-- Whether the next token is of a sort. -/
def peekIs (sort : TokenSort) : Step Bool := do
  return (← peek).kind.sort = sort

/-- Whether the next token is a given name. -/
def peekIsKeyword (keyword : String) : Step Bool := do
  return (← peek).isKeyword keyword

/-- Whether only the end of the input is left. -/
def atEnd : Step Bool := peekIs .endOfInput

/-- Takes the next token if it is of one of the sorts. -/
def accept (sorts : List TokenSort) : Step (Option Token) := do
  if sorts.contains (← peek).kind.sort then return some (← next) else return none

/-- Takes the next token, which must be of one of the sorts. -/
def require (sorts : List TokenSort) (expected : String) : Step Token := do
  match ← accept sorts with
  | some token => return token
  | none => unexpected [expected]

/-- Takes the next token if it is a given name. -/
def acceptKeyword (keyword : String) : Step Bool := do
  if ← peekIsKeyword keyword then
    let _ ← next
    return true
  else return false

/-- Takes the next token, which must be a given name. -/
def requireKeyword (keyword : String) : Step Token := do
  if ← peekIsKeyword keyword then next else unexpected [Text.quoted keyword]

/-- Takes the next token, which must be a name, and gives its text and span. -/
def requireName (expected : String) : Step (String × Span) := do
  let token ← next
  match token.kind with
  | .name text => return (text, token.span)
  | _ => throw (Parser.misfit token [expected])

/-- Takes a string that stands before a definition to describe it. -/
def description? : Step (Option String) := do
  match ← accept [.string, .blockString] with
  | some token => return token.kind.rawText?
  | none => return none

end TokenBuffer

/-! ### Questions -/

/-- A step that may be asked for. -/
inductive Question where
  | next
  | peek
  | peekIs (sort : TokenSort)
  | peekIsKeyword (keyword : String)
  | atEnd
  | accept (sorts : List TokenSort)
  | require (sorts : List TokenSort) (expected : String)
  | acceptKeyword (keyword : String)
  | requireKeyword (keyword : String)
  | requireName (expected : String)
  | description?
deriving DecidableEq, Repr

/-- What comes of a step that does not fail. -/
inductive Answer where
  | token (token : Token)
  | token? (token : Option Token)
  | truth (truth : Bool)
  | name (text : String) (span : Span)
  | text? (text : Option String)
deriving DecidableEq, Repr

namespace TokenBuffer

/-- The step that a question names. -/
def ask : Question → Step Answer
  | .next => do return .token (← next)
  | .peek => do return .token (← peek)
  | .peekIs sort => do return .truth (← peekIs sort)
  | .peekIsKeyword keyword => do return .truth (← peekIsKeyword keyword)
  | .atEnd => do return .truth (← atEnd)
  | .accept sorts => do return .token? (← accept sorts)
  | .require sorts expected => do return .token (← require sorts expected)
  | .acceptKeyword keyword => do return .truth (← acceptKeyword keyword)
  | .requireKeyword keyword => do return .token (← requireKeyword keyword)
  | .requireName expected => do
    let (text, span) ← requireName expected
    return .name text span
  | .description? => do return .text? (← description?)

/-- What questions are answered, one after another, and where the last token taken ended then. -/
def answers (b : TokenBuffer) : List Question → List (Except ParseError Answer × Position)
  | [] => []
  | question :: questions =>
    let (answer, b') := ask question b
    (answer, b'.lastEnd) :: b'.answers questions

end TokenBuffer

end TypeSystem
