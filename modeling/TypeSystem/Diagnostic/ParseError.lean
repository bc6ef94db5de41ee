import TypeSystem.Diagnostic.Note
import TypeSystem.Diagnostic.Report

/-!
# Errors of reading

A text that is not a document is answered by one error: what went wrong (`SyntaxFault`), said in a
message, at a span, with notes. The fault is for a program to branch on; message and notes are for the
reader.
-/

namespace TypeSystem

/-- What is wrong with a text that is not a document. -/
inductive SyntaxFault where
  /-- A token that does not fit, described, and what would have fitted. -/
  | unexpectedToken (expected : List String) (found : String)
  /-- The end of the input where something was still to come. -/
  | unexpectedEnd (expected : List String)
  /-- A piece of text that is no token. -/
  | invalidToken
  /-- A name at the start of a definition that begins none. -/
  | unknownKeyword (keyword : String)
  /-- A directive location that does not exist. -/
  | unknownLocation (name : String)
  /-- A root operation that does not exist. -/
  | unknownOperation (operation : String)
  /-- A root operation named twice in one block. -/
  | repeatedOperation (operation : String)
  /-- A pair of brackets with nothing between them. -/
  | emptyConstruct (construct : String)
  /-- An extension that adds nothing. -/
  | emptyExtension (kind requirement : String)
  /-- A type reference with too many list wrappers. -/
  | tooDeep (limit : Nat)
deriving DecidableEq, Repr

namespace SyntaxFault

/-- The fault in a few words. -/
def summary : SyntaxFault → String
  | unexpectedToken _ found => "unexpected token: " ++ found
  | unexpectedEnd _ => "unexpected end of input"
  | invalidToken => "lexer error"
  | unknownKeyword keyword => "unknown definition keyword: `" ++ keyword ++ "`"
  | unknownLocation name => "unknown directive location: `" ++ name ++ "`"
  | unknownOperation operation => "unknown root operation: `" ++ operation ++ "`"
  | repeatedOperation operation => "duplicate root operation: `" ++ operation ++ "`"
  | emptyConstruct construct => "invalid empty " ++ construct
  | emptyExtension kind requirement =>
    "`extend " ++ kind ++ "` must add at least one " ++ requirement
  | tooDeep limit => "nesting exceeds the maximum depth of " ++ toString limit

end SyntaxFault

/-- Why a text is not a document, and where. -/
structure ParseError where
  /-- The error in one sentence. -/
  message : String
  /-- The part of the text it is about. -/
  span : Span
  /-- What is wrong. -/
  fault : SyntaxFault
  /-- Remarks, in the order they are shown. -/
  notes : List Note
deriving DecidableEq, Repr

namespace ParseError

/-- An error without notes. -/
def plain (message : String) (span : Span) (fault : SyntaxFault) : ParseError :=
  ⟨message, span, fault, []⟩

/-- The error found in a text of a given name. -/
def inSource (error : ParseError) (name : String) : ParseError :=
  { error with span := { error.span with source := some name } }

/-- The error with one more remark at the end. -/
def addNote (error : ParseError) (kind : NoteKind) (message : String) : ParseError :=
  { error with notes := error.notes ++ [⟨kind, message, none⟩] }

/-- The error in one line. -/
def oneLine (error : ParseError) : String :=
  error.span.label ++ ": error: " ++ error.message

/-- The error in full, with a snippet if the text is given. -/
def render (error : ParseError) (text : Option String) : Except Crash String :=
  (error.span.shownIn text).map fun shown ↦
    heading error.message error.span ++ shown ++ String.join (error.notes.map Note.line)

end ParseError

end TypeSystem
