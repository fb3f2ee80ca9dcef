import ArgSchema.Parser.Analysis
import ArgSchema.Preprocessor.Stream

/-! Parsing: the tokens of a stream become the tree of a file, or errors that explain why not. -/

namespace ArgSchema

/-- What parsing leaves behind. -/
structure Parsed where
  /-- What happens to the record, in order. -/
  events : List Event
  /-- The tree, which has a root unless there were errors, or the failure that ended parsing. -/
  result : Except Failure Tree

namespace Parser

/-- The parser with one more token on its stack. -/
def shift (parser : Parser) (token : Token) : Parser :=
  { parser with stack := parser.stack.push (.token token) }

/-- Reads a token, once what is in front of it has been made what it completes.

Reports made on the way to the token come first, since the token is known before the reduction. -/
def read (parser : Parser) (reports : List Diagnostic) (token : Token) : Except TreeError Parser :=
  do return (← (parser.record (reports.map .report)).reduce).shift token

/-- Warns of a suppression that ends a file. -/
def warnTrailing (parser : Parser) (file : NodeId) : Parser :=
  match (parser.tree.children file).getLast?.bind parser.tree.get? with
  | some last =>
    -- A suppression masks what follows it, so a last one masks nothing.
    if last.type = .suppress then parser.record [.report (.warning .straySuppress last.span)]
    else parser
  | none => parser

/-- Makes the file that the stack holds the root, or reports what keeps it from being one. -/
def finish (parser : Parser) (ending : Span) : Except TreeError Parser :=
  let rooted := fun (parser : Parser) (tree : Tree) (file : NodeId) => do
    return { parser with tree := ← tree.setRoot file }
  let refused := parser.record ((parser.tree.syntaxErrors parser.stack.toList ending).map
    fun (problem, span) => .report (.located (.parse problem) span))
  match parser.stack.symbols with
  -- Without symbols the file is empty, and it spans the end of the input.
  | [] => rooted parser (parser.tree.alloc .file ending) parser.tree.nextId
  | [.node file] =>
    if parser.tree.isOfType (.only .file) file then
      rooted (parser.warnTrailing file) parser.tree file
    else .ok refused
  | _ => .ok refused

/-- Reads the end of a stream, or fails with it. -/
def conclude (parser : Parser) (ending : Reading Preprocessor Token) : Parsed :=
  let parser := parser.record (ending.reports.map .report)
  match ending.result with
  | .error failure => ⟨parser.events, .error failure⟩
  | .ok token =>
    -- What the last token completes is reduced before the stack is looked at.
    match parser.reduce.bind (·.finish token.span) with
    | .error error => ⟨parser.events, .error (.tree error)⟩
    | .ok finished => ⟨finished.events, .ok finished.tree⟩

/-- Reads the tokens of a stream and its end. -/
def run (parser : Parser) (ending : Reading Preprocessor Token) :
    List (List Diagnostic × Token) → Parsed
  | [] => parser.conclude ending
  | (reports, token) :: rest =>
    match parser.read reports token with
    -- Reports made on the way to the token are kept, in front of the failure.
    | .error error => ⟨(parser.record (reports.map .report)).events, .error (.tree error)⟩
    | .ok next => next.run ending rest

end Parser

/-- Parses the tokens of a stream. -/
def TokenStream.parse (stream : TokenStream) : Parsed :=
  Parser.start.run stream.ending stream.tokens

/-- Parses everything that a preprocessed stream brings. -/
def Preprocessor.parse (disk : Disk) (stream : Preprocessor) : Parsed := (stream.drain disk).parse

end ArgSchema
