import TypeSystem.Token.Lexeme

/-!
# From text to tokens

A text is cut into lexemes with separators between them. Each becomes a token: its span runs from the
place before its characters to the place after them, and an invalid lexeme becomes a token that says
what is wrong. The end of the input is a token too, the last one.

The recursion is on the text that remains: every lexeme leaves less of it (`Lexeme.scan_rest_length`).
-/

namespace TypeSystem

open Text

namespace LexicalFault

/-- A complaint about a number, with the text it is about. -/
def aboutNumber (complaint : String) (text : List Char) : String :=
  "Invalid number: " ++ complaint ++ ": " ++ quoted (String.ofList text)

/-- What is wrong with a piece of text. -/
def message (fault : LexicalFault) (text : List Char) : String :=
  match fault with
  | loneMinus => "Unexpected `-`"
  | leadingZero => aboutNumber "leading zeros are not allowed" text
  | emptyExponent => aboutNumber "exponent must have at least one digit" text
  | numberTail => aboutNumber "unexpected character after numeric literal" text
  | openString | brokenString => "Unterminated string literal"
  | openBlockString => "Unterminated block string"
  | strayCharacter => "Unexpected character " ++ String.join (text.map shown)

/-- Where the rule on whole numbers is written. -/
def intRule : Note :=
  ⟨.spec, "https://spec.graphql.org/September2025/#sec-Int-Value", none⟩

/-- Where the rule on numbers with an exponent is written. -/
def floatRule : Note :=
  ⟨.spec, "https://spec.graphql.org/September2025/#sec-Float-Value", none⟩

/-- Remarks on a string that is still open at the end of the input. -/
def openNotes (start : Position) (closer : String) : List Note :=
  [⟨.note, "String started here", some (.emptyAt start)⟩,
    ⟨.help, "Add closing " ++ quoted closer, none⟩]

/-- Remarks on a piece of text that begins at `start`. -/
def notes (fault : LexicalFault) (start : Position) : List Note :=
  match fault with
  | loneMinus | strayCharacter => []
  | leadingZero | numberTail => [intRule]
  | emptyExponent => [floatRule]
  | openString => openNotes start "\""
  | openBlockString => openNotes start "\"\"\""
  | brokenString =>
    [⟨.note, "Single-line strings cannot contain unescaped newlines", none⟩,
      ⟨.help, "Use a block string (triple quotes) for multi-line text", none⟩]

end LexicalFault

namespace Lexeme

/-- The kind of the token that a lexeme makes when it begins at `start`. -/
def tokenKind (l : Lexeme) (start : Position) : TokenKind :=
  match l.cls with
  | .punctuator p => .punctuator p
  | .name => .name (String.ofList l.text)
  | .int => .int (String.ofList l.text)
  | .float => .float (String.ofList l.text)
  | .string => .string (String.ofList l.text)
  | .blockString => .blockString (String.ofList l.text)
  | .comment => .comment (String.ofList l.text.tail)
  | .invalid fault => .invalid (fault.message l.text) (fault.notes start)

end Lexeme

namespace Token

/-- Whatever is left after separators and a lexeme is shorter than the text. -/
theorem scan_rest_length_lt {cs : List Char} {c : Char} {rest : List Char}
    (h : cs.dropWhile isIgnored = c :: rest) : (Lexeme.scan c rest).rest.length < cs.length := by
  have h1 := (List.dropWhile_sublist (l := cs) isIgnored).length_le
  rw [h] at h1
  exact Nat.lt_of_lt_of_le (Lexeme.scan_rest_length c rest) h1

/-- The tokens of the text `cs`, which begins at `place`, the end of the input last. -/
def lexFrom (place : Place) (cs : List Char) : List Token :=
  let start := place.past (cs.takeWhile isIgnored)
  match h : cs.dropWhile isIgnored with
  | [] => [endAt start.pos]
  | c :: rest =>
    let l := Lexeme.scan c rest
    let stop := start.past l.text
    have : l.rest.length < cs.length := scan_rest_length_lt h
    ⟨l.tokenKind start.pos, ⟨start.pos, stop.pos, none⟩⟩ :: lexFrom stop l.rest
termination_by cs.length

/-- The tokens of a text, the end of the input last. -/
def lex (text : String) : List Token :=
  lexFrom .origin text.toList

end Token

/-- A text on its way to tokens, which are cut off one by one as they are asked for. -/
structure TokenSource where
  /-- The place reached. -/
  place : Place
  /-- The text still to be cut. -/
  rest : List Char
  /-- Whether the end of the input has been given. -/
  finished : Bool

namespace TokenSource

/-- The source of the tokens of a text. -/
def ofText (text : String) : TokenSource :=
  ⟨.origin, text.toList, false⟩

/-- The next token, or nothing after the end of the input, and what remains. -/
def next (source : TokenSource) : Option Token × TokenSource :=
  if source.finished then (none, source)
  else
    let start := source.place.past (source.rest.takeWhile isIgnored)
    match source.rest.dropWhile isIgnored with
    | [] => (some (.endAt start.pos), ⟨start, [], true⟩)
    | c :: rest =>
      let l := Lexeme.scan c rest
      let stop := start.past l.text
      (some ⟨l.tokenKind start.pos, ⟨start.pos, stop.pos, none⟩⟩, ⟨stop, l.rest, false⟩)

/-- What the source gives when it is asked for the `n`-th time, counted from zero. -/
def ask (source : TokenSource) : Nat → Option Token
  | 0 => source.next.1
  | n + 1 => source.next.2.ask n

end TokenSource

end TypeSystem
