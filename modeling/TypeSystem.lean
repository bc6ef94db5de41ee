import TypeSystem.Binary.Codec
import TypeSystem.Binary.Number
import TypeSystem.Binary.Schema
import TypeSystem.Binary.Syntax
import TypeSystem.Command.Arguments
import TypeSystem.Command.Scan
import TypeSystem.Command.Validate
import TypeSystem.Diagnostic.Note
import TypeSystem.Diagnostic.ParseError
import TypeSystem.Diagnostic.Report
import TypeSystem.Files.Path
import TypeSystem.Files.Tree
import TypeSystem.Files.Walk
import TypeSystem.Main
import TypeSystem.Reading.Buffer
import TypeSystem.Reading.Grammar
import TypeSystem.Reading.Parser
import TypeSystem.Reading.Source
import TypeSystem.Reading.Suggestion
import TypeSystem.Schema.Build
import TypeSystem.Schema.Builtin
import TypeSystem.Schema.Definitions
import TypeSystem.Schema.DirectiveRules
import TypeSystem.Schema.Reference
import TypeSystem.Schema.Roots
import TypeSystem.Table
import TypeSystem.Schema.ValidationError
import TypeSystem.Syntax.Definition
import TypeSystem.Syntax.DirectiveLocation
import TypeSystem.Syntax.Document
import TypeSystem.Syntax.Operation
import TypeSystem.Syntax.TypeReference
import TypeSystem.Text.Character
import TypeSystem.Text.EditDistance
import TypeSystem.Text.Position
import TypeSystem.Text.Printable
import TypeSystem.Text.Quoted
import TypeSystem.Text.Snippet
import TypeSystem.Text.Span
import TypeSystem.Text.Split
import TypeSystem.Text.UpperCase
import TypeSystem.Token.Basic
import TypeSystem.Token.Lexeme
import TypeSystem.Token.Lexer
import TypeSystem.Token.Stream
import TypeSystem.Proofs.Schema.ReferenceGraph
import TypeSystem.Proofs.Schema.Walk
import TypeSystem.Proofs.Schema.Search
import TypeSystem.Proofs.Schema.EdgeOrder
import TypeSystem.Proofs.Schema.FirstPath
import TypeSystem.Proofs.Schema.DirectiveRules
import TypeSystem.Proofs.Schema.Tables
import TypeSystem.Proofs.Schema.SelfReference
import TypeSystem.Proofs.Syntax.Spans
import TypeSystem.Proofs.Reading.Phrase
import TypeSystem.Proofs.Reading.Reads
import TypeSystem.Proofs.Reading.Loops
import TypeSystem.Proofs.Reading.Productions
import TypeSystem.Proofs.Reading.Documents
import TypeSystem.Proofs.Text.Width
import TypeSystem.Proofs.Token.Lexicon
import TypeSystem.Proofs.Token.Tiling
import TypeSystem.Proofs.Token.Parts
import TypeSystem.Proofs.Token.Spelling
import TypeSystem.Proofs.Reading.Legible
import TypeSystem.Proofs.Reading.Joining
import TypeSystem.Proofs.Reading.Completion
import TypeSystem.Proofs.Reading.Lookahead
import TypeSystem.Proofs.Reading.Stopping
import TypeSystem.Proofs.Reading.FirstError
import TypeSystem.Proofs.Reading.Relocation
import TypeSystem.Proofs.Reading.Extents
import TypeSystem.Proofs.Reading.TypePlaces
import TypeSystem.Proofs.Binary.Keeping
import TypeSystem.Proofs.Binary.Storing
import TypeSystem.Proofs.Schema.Folding
import TypeSystem.Proofs.Schema.Gathering
import TypeSystem.Proofs.Schema.Reordering
import TypeSystem.Proofs.Text.Lines
import TypeSystem.Proofs.Syntax.Outline
import TypeSystem.Proofs.Token.Places
import TypeSystem.Proofs.Token.Reckoning
import TypeSystem.Proofs.Reading.Layout
import TypeSystem.Proofs.Reading.Citing
import TypeSystem.Proofs.Reading.Snippets
import TypeSystem.Proofs.Schema.Runs
import TypeSystem.Proofs.Reading.Cursor
import TypeSystem.Proofs.Reading.Covering
import TypeSystem.Proofs.Reading.Naturality
import TypeSystem.Proofs.Syntax.Positions
import TypeSystem.Proofs.Syntax.Nesting
import TypeSystem.Proofs.Reading.WrittenTypes
import TypeSystem.Proofs.Reading.TypesInPlace
import TypeSystem.Proofs.Reading.TypeStarts
import TypeSystem.Proofs.Schema.Extending
import TypeSystem.Proofs.Schema.Repeats
import TypeSystem.Proofs.Schema.RootTypes
import TypeSystem.Proofs.Binary.Brevity
import TypeSystem.Proofs.Binary.Shortest
import TypeSystem.Proofs.Text.EditDistance
import TypeSystem.Proofs.Text.LineEnds
import TypeSystem.Proofs.Syntax.Likeness
import TypeSystem.Proofs.Token.Numerals
import TypeSystem.Proofs.Token.LineEnds
import TypeSystem.Proofs.Reading.Likeness
import TypeSystem.Proofs.Reading.LineEnds
import TypeSystem.Proofs.Schema.ErrorPlaces
import TypeSystem.Proofs.Files.Writing
import TypeSystem.Proofs.Syntax.Weight
import TypeSystem.Proofs.Reading.Weight
import TypeSystem.Proofs.Schema.Sizes
import TypeSystem.Proofs.Command.Emission
import TypeSystem.Proofs.Files.Paths
import TypeSystem.Proofs.Reading.Suggestions
import TypeSystem.Proofs.Files.Naming
import TypeSystem.Proofs.Files.Rearranging
import TypeSystem.Proofs.Command.Scanning
