import ArgSchema.Diagnostic.Problem
import ArgSchema.Source

/-! Diagnostics: problems with their places, notes, and failures that end a phase. -/

namespace ArgSchema

/-- How bad a reported problem is. -/
inductive Severity where
  /-- The compilation stops at the end of the phase. -/
  | error
  /-- The compilation goes on. -/
  | warning
  /-- More about the problem above it. -/
  | note
deriving DecidableEq, Repr

/-- The word for a severity. -/
def Severity.name : Severity → String
  | .error => "error"
  | .warning => "warning"
  | .note => "note"

/-- A second place that explains a problem. -/
structure Note where
  /-- What the place has to do with the problem. -/
  message : String
  /-- The place. -/
  span : Span
deriving DecidableEq, Repr

/-- One reported problem. -/
structure Diagnostic where
  /-- What is wrong. -/
  problem : Problem
  /-- Where, unless the problem concerns a whole file. -/
  span? : Option Span
  /-- The file concerned and the files that include it. -/
  breadcrumb : Breadcrumb
  /-- Further places. -/
  notes : List Note
deriving DecidableEq, Repr

namespace Diagnostic

/-- A problem at a place. -/
def located (problem : Problem) (span : Span) : Diagnostic :=
  ⟨problem, some span, span.breadcrumb, []⟩

/-- A problem with a whole file. -/
def inFile (problem : Problem) (breadcrumb : Breadcrumb) : Diagnostic :=
  ⟨problem, none, breadcrumb, []⟩

/-- A warning at a place. -/
def warning (warning : Warning) (span : Span) : Diagnostic := .located (.warning warning) span

/-- The diagnostic with one more note. -/
def withNote (diagnostic : Diagnostic) (note : Note) : Diagnostic :=
  { diagnostic with notes := diagnostic.notes ++ [note] }

/-- The class of a warning, and nothing for an error. -/
def warningClass? (diagnostic : Diagnostic) : Option WarningClass :=
  diagnostic.problem.warningClass?

/-- Warnings let a compilation go on, and everything else stops it. -/
def severity (diagnostic : Diagnostic) : Severity :=
  if diagnostic.warningClass?.isSome then .warning else .error

end Diagnostic

/-- A problem that leaves nothing to go on with and ends its phase at once. -/
inductive Failure where
  /-- A file cannot be read; the span is the name in the directive that includes it. -/
  | unreadable (path message : String) (span? : Option Span)
  /-- A construct runs into the end of its file. -/
  | lexical (problem : LexicalProblem) (span : Span) (note? : Option Note)
  /-- A tree operation was refused. -/
  | tree (error : TreeError)
deriving DecidableEq, Repr

namespace Failure

/-- A failure in one line. -/
def message : Failure → String
  | .unreadable path message _ => (Problem.unreadable path message).message
  | .lexical problem span _ =>
    problem.message ++ " at line " ++ toString span.line ++ ", column " ++ toString span.column
  | .tree error => (Problem.tree error).message

/-- The diagnostic of a failure; the breadcrumb serves where the failure has no place. -/
def diagnostic (failure : Failure) (breadcrumb : Breadcrumb) : Diagnostic :=
  match failure with
  -- The file that was asked for first has no place that includes it.
  | .unreadable path message span? =>
    match span? with
    | some span => .located (.unreadable path message) span
    | none => .inFile (.unreadable path message) breadcrumb
  | .lexical problem span note? =>
    { Diagnostic.located (.lexical problem) span with notes := note?.toList }
  | .tree error => .inFile (.tree error) breadcrumb

end Failure

end ArgSchema
