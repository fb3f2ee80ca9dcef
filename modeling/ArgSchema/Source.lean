import ArgSchema.Text.Utf8

/-! Positions in source files, excerpts of source lines and the spans that carry both. -/

namespace ArgSchema

/-- A line and a column, both counted from one, columns in bytes. -/
structure Position where
  /-- Line in its file. -/
  line : Nat
  /-- Byte in its line. -/
  column : Nat
deriving DecidableEq, Repr, Inhabited

namespace Position

/-- Positions are ordered by line, then by column. -/
def before (a b : Position) : Prop := a.line < b.line ∨ (a.line = b.line ∧ a.column < b.column)

instance (a b : Position) : Decidable (a.before b) :=
  inferInstanceAs (Decidable (_ ∨ _))

/-- The later of two positions. -/
def latest (a b : Position) : Position := if a.before b then b else a

end Position

/-- File names from the root file down to the file a text came from. -/
abbrev Breadcrumb := List String

/-- The source lines a span covers, cut to a width that fits a terminal. -/
structure Excerpt where
  /-- Column of the first byte that was kept of the first line. -/
  firstColumn : Nat
  /-- Lines from the first one that the span covers. -/
  lines : List String
deriving DecidableEq, Repr, Inhabited

namespace Excerpt

/-- Most bytes that are kept of one line. -/
def width : Nat := 50

/-- An excerpt without lines. -/
def none : Excerpt := ⟨0, []⟩

/-- The start of the window on a line of some length that shows a column near its middle. -/
def windowStart (length column : Nat) : Nat :=
  -- The window never reaches past the end of the line.
  min (column - 1 - width / 2) (length - width)

/-- One line cut to a window around a column. -/
def ofLine (line : Bytes) (column : Nat) : Excerpt :=
  let start := if line.length ≤ width then 0 else windowStart line.length column
  ⟨start + 1, [Utf8.decodeLossy ((line.drop start).take width)]⟩

end Excerpt

/-- A stretch of source text, its last column included. -/
structure Span where
  /-- File of the text and the files that include it. -/
  breadcrumb : Breadcrumb
  /-- Position of the first byte. -/
  start : Position
  /-- Position of the last byte. -/
  stop : Position
  /-- Source lines for messages about the text. -/
  excerpt : Excerpt
deriving DecidableEq, Repr, Inhabited

namespace Span

/-- The file a span points into, if it names one. -/
def file? (span : Span) : Option String := span.breadcrumb.getLast?

/-- The line a span starts on. -/
def line (span : Span) : Nat := span.start.line

/-- The column a span starts at. -/
def column (span : Span) : Nat := span.start.column

/-- The span from the start of one to the end of another, which are swapped if written reversed. -/
def through (first last : Span) : Span :=
  -- A span that ends before the other begins comes first in the text.
  if last.stop.before first.start then { last with stop := first.stop }
  else { first with stop := last.stop }

end Span

end ArgSchema
