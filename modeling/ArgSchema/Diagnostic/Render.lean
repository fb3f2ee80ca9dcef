import ArgSchema.Diagnostic.Basic

/-! The text of diagnostics: location, message, source excerpt and marker, optionally in color. -/

namespace ArgSchema

/-- Codes that switch a terminal between colors, all empty for plain text. -/
structure Palette where
  /-- Starts bold text. -/
  bold : String
  /-- Starts an error. -/
  red : String
  /-- Starts a warning. -/
  magenta : String
  /-- Starts a note. -/
  cyan : String
  /-- Returns to plain text. -/
  reset : String

namespace Palette

/-- No colors. -/
def plain : Palette := ⟨"", "", "", "", ""⟩

/-- Colors by escape codes. -/
def ansi : Palette := ⟨"\x1b[1m", "\x1b[31m", "\x1b[35m", "\x1b[36m", "\x1b[0m"⟩

/-- The color of a severity. -/
def color (palette : Palette) : Severity → String
  | .error => palette.red
  | .warning => palette.magenta
  | .note => palette.cyan

end Palette

/-- A text repeated. -/
def repeated (count : Nat) (text : String) : String :=
  String.join (List.replicate count text)

/-- One line of source text behind its number. -/
def numberedLine (number : Nat) (line : String) : String :=
  let digits := toString number
  -- Numbers are aligned on the right of five columns.
  repeated (5 - digits.length) " " ++ digits ++ " | " ++ line ++ "\n"

namespace Span

/-- Number of blanks in front of the marker below the first line of an excerpt. -/
def markerIndent (span : Span) (first : String) : Nat :=
  min (span.column - span.excerpt.firstColumn) first.utf8ByteSize

/-- Width of the marker, which reaches the end of the line when the span goes on below it. -/
def markerWidth (span : Span) (first : String) : Nat :=
  let stop :=
    if span.stop.line = span.start.line then span.stop.column - span.excerpt.firstColumn
    else first.utf8ByteSize - 1
  stop - span.markerIndent first + 1

/-- The source lines of a span, with a marker below the first. -/
def excerptText (span : Span) (color reset : String) : String :=
  match span.excerpt.lines with
  | [] => ""
  | first :: rest =>
    -- The gutter under the first line has the width that a number of five digits takes.
    numberedLine span.line first ++ "      | " ++ repeated (span.markerIndent first) " " ++
      color ++ repeated (span.markerWidth first) "^" ++ reset ++ "\n" ++
      String.join (rest.mapIdx fun offset line => numberedLine (span.line + offset + 1) line)

end Span

/-- The lines that name the files above the one a breadcrumb ends in, and that file. -/
def breadcrumbText (palette : Palette) (breadcrumb : Breadcrumb) : String × String :=
  let parent := fun name => palette.bold ++ name ++ ":" ++ palette.reset ++ "\n--> "
  match breadcrumb.getLast? with
  | none => ("", "<input>")
  | some file => (String.join (breadcrumb.dropLast.map parent), file)

/-- One message with its location in front and its source lines below. -/
def messageBlock (palette : Palette) (severity : Severity) (message : String)
    (span? : Option Span) (breadcrumb : Breadcrumb) : String :=
  let (parents, file) := breadcrumbText palette breadcrumb
  let place := match span? with
    | some span => ":" ++ toString span.line ++ ":" ++ toString span.column
    | none => ""
  let color := palette.color severity
  parents ++ palette.bold ++ file ++ place ++ ":" ++ palette.reset ++ " " ++
    color ++ severity.name ++ ":" ++ palette.reset ++ " " ++ message ++ "\n" ++
    match span? with
    | some span => span.excerptText color palette.reset
    | none => ""

/-- The text of a diagnostic and its notes. -/
def Diagnostic.render (palette : Palette) (diagnostic : Diagnostic) : String :=
  -- A warning ends in the name that suppresses its class.
  let mark := match diagnostic.warningClass? with
    | some found => " [-W" ++ found.name ++ "]"
    | none => ""
  messageBlock palette diagnostic.severity (diagnostic.problem.message ++ mark) diagnostic.span?
      diagnostic.breadcrumb ++
    String.join (diagnostic.notes.map fun note =>
      messageBlock palette .note note.message (some note.span) note.span.breadcrumb)

end ArgSchema
