import ArgSchema.CommandLine
import ArgSchema.Compilation
import ArgSchema.Diagnostic.Basic
import ArgSchema.Diagnostic.Problem
import ArgSchema.Diagnostic.Render
import ArgSchema.Diagnostics
import ArgSchema.Disk.Basic
import ArgSchema.Disk.Path
import ArgSchema.Layout
import ArgSchema.Lexer.Basic
import ArgSchema.Lexer.Cursor
import ArgSchema.Lexer.Lexeme
import ArgSchema.Lexer.Weight
import ArgSchema.Library
import ArgSchema.Main
import ArgSchema.Parser.Analysis
import ArgSchema.Parser.Basic
import ArgSchema.Parser.Header
import ArgSchema.Parser.Reduction
import ArgSchema.Parser.Stack
import ArgSchema.Preprocessor.Basic
import ArgSchema.Preprocessor.Directive
import ArgSchema.Preprocessor.Frame
import ArgSchema.Preprocessor.Progress
import ArgSchema.Preprocessor.Stream
import ArgSchema.Proofs.Compilation.Counts
import ArgSchema.Proofs.Compilation.Frame
import ArgSchema.Proofs.Compilation.Idempotent
import ArgSchema.Proofs.Compilation.Passes
import ArgSchema.Proofs.Compilation.Record
import ArgSchema.Proofs.Compilation.Sound
import ArgSchema.Proofs.Compilation.Suppression
import ArgSchema.Proofs.Compilation.Terminates
import ArgSchema.Proofs.Diagnostic.Markers
import ArgSchema.Proofs.Grammar.Derivation
import ArgSchema.Proofs.Grammar.Leaves
import ArgSchema.Proofs.Grammar.Spelled
import ArgSchema.Proofs.Grammar.Syntax
import ArgSchema.Proofs.Layout.Items
import ArgSchema.Proofs.Layout.Prints
import ArgSchema.Proofs.Layout.RoundTrip
import ArgSchema.Proofs.Layout.SameSyntax
import ArgSchema.Proofs.Layout.Texts
import ArgSchema.Proofs.Lexer.Contained
import ArgSchema.Proofs.Lexer.Excerpts
import ArgSchema.Proofs.Lexer.Gaps
import ArgSchema.Proofs.Lexer.Integers
import ArgSchema.Proofs.Lexer.Kinds
import ArgSchema.Proofs.Lexer.Lines
import ArgSchema.Proofs.Lexer.Literals
import ArgSchema.Proofs.Lexer.Local
import ArgSchema.Proofs.Lexer.Lossless
import ArgSchema.Proofs.Lexer.Names
import ArgSchema.Proofs.Lexer.Order
import ArgSchema.Proofs.Lexer.Placed
import ArgSchema.Proofs.Lexer.Places
import ArgSchema.Proofs.Lexer.Quotations
import ArgSchema.Proofs.Lexer.Quoted
import ArgSchema.Proofs.Lexer.Reads
import ArgSchema.Proofs.Lexer.Recognized
import ArgSchema.Proofs.Lexer.Saturated
import ArgSchema.Proofs.Lexer.Scans
import ArgSchema.Proofs.Lexer.Sealed
import ArgSchema.Proofs.Lexer.Shifted
import ArgSchema.Proofs.Lexer.Snippets
import ArgSchema.Proofs.Lexer.Spelling
import ArgSchema.Proofs.Lexer.Undamaged
import ArgSchema.Proofs.Lexer.Unescaped
import ArgSchema.Proofs.Lexer.WholeLines
import ArgSchema.Proofs.Lexer.Written
import ArgSchema.Proofs.Parser.Acceptance
import ArgSchema.Proofs.Parser.Allotment
import ArgSchema.Proofs.Parser.Attachment
import ArgSchema.Proofs.Parser.Attempts
import ArgSchema.Proofs.Parser.Brackets
import ArgSchema.Proofs.Parser.Closing
import ArgSchema.Proofs.Parser.Collecting
import ArgSchema.Proofs.Parser.Completeness
import ArgSchema.Proofs.Parser.Covering
import ArgSchema.Proofs.Parser.ExactSpans
import ArgSchema.Proofs.Parser.Expansion
import ArgSchema.Proofs.Parser.Heading
import ArgSchema.Proofs.Parser.Intact
import ArgSchema.Proofs.Parser.Loop
import ArgSchema.Proofs.Parser.Marks
import ArgSchema.Proofs.Parser.Meaning
import ArgSchema.Proofs.Parser.Phrase
import ArgSchema.Proofs.Parser.Reached
import ArgSchema.Proofs.Parser.Refinement
import ArgSchema.Proofs.Parser.Rejections
import ArgSchema.Proofs.Parser.Silent
import ArgSchema.Proofs.Parser.Single
import ArgSchema.Proofs.Parser.Soundness
import ArgSchema.Proofs.Parser.Spans
import ArgSchema.Proofs.Parser.Stacked
import ArgSchema.Proofs.Parser.Stages
import ArgSchema.Proofs.Parser.Still
import ArgSchema.Proofs.Parser.Suppressions
import ArgSchema.Proofs.Parser.Unmatched
import ArgSchema.Proofs.Parser.Warnings
import ArgSchema.Proofs.Preprocessor.Frames
import ArgSchema.Proofs.Preprocessor.History
import ArgSchema.Proofs.Preprocessor.Inclusion
import ArgSchema.Proofs.Preprocessor.Order
import ArgSchema.Proofs.Preprocessor.Origin
import ArgSchema.Proofs.Preprocessor.Outcome
import ArgSchema.Proofs.Preprocessor.Plain
import ArgSchema.Proofs.Preprocessor.PushBack
import ArgSchema.Proofs.Preprocessor.Raw
import ArgSchema.Proofs.Preprocessor.Reports
import ArgSchema.Proofs.Preprocessor.Requests
import ArgSchema.Proofs.Preprocessor.Skips
import ArgSchema.Proofs.Preprocessor.Slices
import ArgSchema.Proofs.Preprocessor.Splices
import ArgSchema.Proofs.Preprocessor.Steps
import ArgSchema.Proofs.Preprocessor.Streams
import ArgSchema.Proofs.Preprocessor.Turns
import ArgSchema.Proofs.Registration.Alike
import ArgSchema.Proofs.Registration.Anew
import ArgSchema.Proofs.Registration.Clashes
import ArgSchema.Proofs.Registration.Complete
import ArgSchema.Proofs.Registration.Distinct
import ArgSchema.Proofs.Registration.Exact
import ArgSchema.Proofs.Registration.Keys
import ArgSchema.Proofs.Registration.Merged
import ArgSchema.Proofs.Registration.Result
import ArgSchema.Proofs.Registration.Silent
import ArgSchema.Proofs.Registration.Visits
import ArgSchema.Proofs.Resolution.Alike
import ArgSchema.Proofs.Resolution.Complete
import ArgSchema.Proofs.Resolution.Develops
import ArgSchema.Proofs.Resolution.Exact
import ArgSchema.Proofs.Resolution.Linked
import ArgSchema.Proofs.Resolution.Links
import ArgSchema.Proofs.Resolution.Lookups
import ArgSchema.Proofs.Resolution.Referrers
import ArgSchema.Proofs.Resolution.Reordered
import ArgSchema.Proofs.Resolution.Repeated
import ArgSchema.Proofs.Resolution.Result
import ArgSchema.Proofs.Resolution.Unordered
import ArgSchema.Proofs.Resolution.Uses
import ArgSchema.Proofs.Resolution.Visits
import ArgSchema.Proofs.SymbolTable.Alike
import ArgSchema.Proofs.SymbolTable.Entries
import ArgSchema.Proofs.SymbolTable.Occurrences
import ArgSchema.Proofs.SymbolTable.RawIds
import ArgSchema.Proofs.SymbolTable.References
import ArgSchema.Proofs.Text.Binary64
import ArgSchema.Proofs.Text.Blurred
import ArgSchema.Proofs.Text.Boundaries
import ArgSchema.Proofs.Text.Digits
import ArgSchema.Proofs.Text.Encoding
import ArgSchema.Proofs.Text.Shortest
import ArgSchema.Proofs.Tree.Definitions
import ArgSchema.Proofs.Tree.Described
import ArgSchema.Proofs.Tree.Develops
import ArgSchema.Proofs.Tree.Editing
import ArgSchema.Proofs.Tree.Edits
import ArgSchema.Proofs.Tree.Extents
import ArgSchema.Proofs.Tree.Forest
import ArgSchema.Proofs.Tree.Growth
import ArgSchema.Proofs.Tree.Lookup
import ArgSchema.Proofs.Tree.Moves
import ArgSchema.Proofs.Tree.NodeTypes
import ArgSchema.Proofs.Tree.Outline
import ArgSchema.Proofs.Tree.Puts
import ArgSchema.Proofs.Tree.Release
import ArgSchema.Proofs.Tree.Reordered
import ArgSchema.Proofs.Tree.SameSyntax
import ArgSchema.Proofs.Tree.SameTables
import ArgSchema.Proofs.Tree.Spares
import ArgSchema.Proofs.Tree.Superseded
import ArgSchema.Proofs.Tree.Tables
import ArgSchema.Proofs.Tree.Twins
import ArgSchema.Proofs.Walk.Courses
import ArgSchema.Proofs.Walk.Develops
import ArgSchema.Proofs.Walk.Fold
import ArgSchema.Proofs.Walk.Operations
import ArgSchema.Proofs.Walk.Orderly
import ArgSchema.Proofs.Walk.Outermost
import ArgSchema.Proofs.Walk.Replies
import ArgSchema.Proofs.Walk.Runs
import ArgSchema.Proofs.Walk.Tops
import ArgSchema.Proofs.Walk.Visited
import ArgSchema.Reading
import ArgSchema.Resolution.References
import ArgSchema.Resolution.Registration
import ArgSchema.Source
import ArgSchema.SymbolTable.Basic
import ArgSchema.SymbolTable.Render
import ArgSchema.Text.Binary64
import ArgSchema.Text.Utf8
import ArgSchema.Token
import ArgSchema.Tree.Basic
import ArgSchema.Tree.Edit
import ArgSchema.Tree.Error
import ArgSchema.Tree.Node
import ArgSchema.Tree.NodeType
import ArgSchema.Tree.Traversal
