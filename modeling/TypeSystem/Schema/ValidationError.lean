import TypeSystem.Diagnostic.Report
import TypeSystem.Reading.Source

/-!
# Errors of a schema

What a document may break although its text is right. Only the first rule broken is reported. An error
names what it is about and where that stands; for something defined twice, also where it stood first.
-/

namespace TypeSystem

/-- The rule that a document breaks. -/
inductive ValidationError where
  /-- Two types of one name. -/
  | duplicateType (name : String) (first second : Span)
  /-- Two directives of one name. -/
  | duplicateDirective (name : String) (first second : Span)
  /-- A directive with a reserved name. -/
  | reservedDirective (directive : String) (span : Span)
  /-- An argument of a directive with a reserved name. -/
  | reservedArgument (directive argument : String) (span : Span)
  /-- An argument of a directive whose type is not defined. -/
  | undefinedArgumentType (directive argument type : String) (span : Span)
  /-- An argument of a directive whose type cannot be given as an argument. -/
  | outputArgumentType (directive argument type : String) (kind : TypeKind) (span : Span)
  /-- A directive that is used in its own definition; `path` leads from the argument to that use. -/
  | selfReference (directive argument : String) (path : List String) (span : Span)
  /-- Two schema blocks. -/
  | duplicateSchema (first second : Span)
  /-- A root type that is not a defined object type. -/
  | undefinedRoot (operation : Operation) (type : String) (span : Span)
  /-- A root type declared twice. -/
  | duplicateRoot (operation : Operation) (span : Span)
  /-- An extension of a type that is not defined. -/
  | undefinedExtension (type : String) (span : Span)
  /-- An extension of a type of another kind. -/
  | mismatchedExtension (type : String) (base ext : TypeKind) (span : Span)
deriving DecidableEq, Repr

namespace ValidationError

/-- The error in one sentence. -/
def message : ValidationError → String
  | duplicateType name _ _ => "type `" ++ name ++ "` is defined more than once"
  | duplicateDirective name _ _ => "directive `@" ++ name ++ "` is defined more than once"
  | reservedDirective directive _ => "directive name must not begin with \"__\": " ++ directive
  | reservedArgument _ argument _ => "argument name must not begin with \"__\": " ++ argument
  | undefinedArgumentType directive argument type _ =>
    "argument `" ++ argument ++ "` of directive `@" ++ directive ++ "` has undefined type `" ++ type ++
      "`"
  | outputArgumentType directive argument type kind _ =>
    "argument `" ++ argument ++ "` of directive `@" ++ directive ++ "` must be an input type, but `" ++
      type ++ "` is of kind " ++ kind.display
  | selfReference directive _ _ _ =>
    "directive " ++ directive ++ " must not contain the use of a directive which references itself"
  | duplicateSchema _ _ => "schema must not be defined more than once"
  | undefinedRoot operation type _ =>
    "root " ++ operation.keyword ++ " type `" ++ type ++ "` must be a defined object type"
  | duplicateRoot operation _ =>
    "root " ++ operation.keyword ++ " type is declared more than once"
  | undefinedExtension type _ => "cannot extend undefined type `" ++ type ++ "`"
  | mismatchedExtension type base ext _ =>
    "cannot extend " ++ base.display ++ " type `" ++ type ++ "` with an `extend " ++ ext.keyword ++ "`"

/-- Where the error is reported: of two definitions, at the second. -/
def span : ValidationError → Span
  | duplicateType _ _ s | duplicateDirective _ _ s | duplicateSchema _ s => s
  | reservedDirective _ s | reservedArgument _ _ s | undefinedArgumentType _ _ _ s
  | outputArgumentType _ _ _ _ s | selfReference _ _ _ s | undefinedRoot _ _ s | duplicateRoot _ s
  | undefinedExtension _ s | mismatchedExtension _ _ _ s => s

/-- Where the first of two definitions stands. -/
def previousSpan? : ValidationError → Option Span
  | duplicateType _ s _ | duplicateDirective _ s _ | duplicateSchema s _ => some s
  | _ => none

/-- The line that points at the first of two definitions. -/
def previousLine (previous : Span) : String :=
  "   = note: previously defined at " ++ previous.label ++ "\n"

/-- The text that a span comes from, if it is among the sources. -/
def body? (sources : List Source) (span : Span) : Option String :=
  span.source.bind (Source.body? sources)

/-- The error in full, with this in the place of the snippet. -/
def renderWith (error : ValidationError) (shown : String) : String :=
  heading error.message error.span ++ shown ++ (error.previousSpan?.map previousLine).getD ""

/-- The error in full, with a snippet if its source is given. -/
def render (error : ValidationError) (sources : List Source) : Except Crash String :=
  (error.span.shownIn (body? sources error.span)).map error.renderWith

end ValidationError

end TypeSystem
