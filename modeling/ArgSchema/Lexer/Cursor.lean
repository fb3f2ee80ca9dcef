import ArgSchema.Source
import ArgSchema.Lexer.Lexeme

/-! Reading positions in a source, and the spans and excerpts of what was read. -/

namespace ArgSchema

/-- A reading position in a source. -/
structure Cursor where
  /-- Bytes that were not read. -/
  rest : Bytes
  /-- Line of the next byte. -/
  line : Nat
  /-- Column of the next byte. -/
  column : Nat
  /-- The source from the start of the current line. -/
  lineText : Bytes
deriving DecidableEq, Repr

namespace Cursor

/-- The first line of some bytes, without its line end. -/
def firstLine (bytes : Bytes) : Bytes :=
  let line := bytes.takeWhile (· ≠ byte '\n')
  -- A carriage return in front of the line feed belongs to the line end.
  if line.getLast? = some (byte '\r') then line.dropLast else line

/-- What follows the first line end of some bytes, if they have one. -/
def nextLine? (bytes : Bytes) : Option Bytes :=
  match bytes.dropWhile (· ≠ byte '\n') with
  | [] => none
  | _ :: next => some next

/-- The mark that some editors put in front of a text. -/
def byteOrderMark : Bytes := [0xEF, 0xBB, 0xBF]

/-- The start of a source, behind a byte order mark. -/
def ofSource (source : Bytes) : Cursor :=
  let text := if byteOrderMark.isPrefixOf source then source.drop 3 else source
  ⟨text, 1, 1, text⟩

/-- The cursor one byte further on. -/
def step (cursor : Cursor) : Cursor :=
  match cursor.rest with
  | [] => cursor
  | b :: rest =>
    -- The rest behind a line end is the text of the next line.
    if b = byte '\n' then ⟨rest, cursor.line + 1, 1, rest⟩
    else { cursor with rest := rest, column := cursor.column + 1 }

/-- The cursor some bytes further on, but not past the end. -/
def advance (cursor : Cursor) : Nat → Cursor
  | 0 => cursor
  | count + 1 => cursor.step.advance count

/-- One step drops one byte. -/
theorem rest_step (cursor : Cursor) : cursor.step.rest = cursor.rest.drop 1 := by
  -- At the end there is nothing to drop.
  unfold step
  split
  · next empty => simp [empty]
  · next found => split <;> simp [found]

/-- Advancing drops as many bytes as it counts. -/
theorem rest_advance (cursor : Cursor) (count : Nat) :
    (cursor.advance count).rest = cursor.rest.drop count := by
  -- By induction on the count: each byte is one more that is dropped.
  induction count generalizing cursor with
  | zero => rfl
  | succ count ih => rw [advance, ih, rest_step, List.drop_drop, Nat.add_comm]

/-- The cursor behind the blanks in front of it. -/
def skipBlanks (cursor : Cursor) : Cursor :=
  cursor.advance (cursor.rest.takeWhile isBlank).length

/-- Skipping blanks never adds bytes. -/
theorem rest_skipBlanks_length (cursor : Cursor) :
    cursor.skipBlanks.rest.length ≤ cursor.rest.length := by
  simp [skipBlanks, rest_advance]

/-- Reading a lexeme leaves fewer bytes than a source that is not used up. -/
theorem rest_advance_lexeme {cursor : Cursor} {first : UInt8} {rest : Bytes}
    (found : cursor.rest = first :: rest) (lexeme : Lexeme) :
    (cursor.advance lexeme.length).rest.length < cursor.rest.length := by
  -- A lexeme holds at least its first byte.
  simp only [rest_advance, found, Lexeme.length, List.length_drop, List.length_cons]
  omega

/-- The position of the next byte. -/
def position (cursor : Cursor) : Position := ⟨cursor.line, cursor.column⟩

/-- Lines below the first of some bytes, at most `count` of them, each cut to the excerpt width. -/
def linesBelow : Nat → Bytes → List String
  | 0, _ => []
  | count + 1, bytes =>
    match nextLine? bytes with
    | none => []
    -- Only as many bytes as an excerpt can show are read as text.
    | some next => Utf8.decodeLossy ((firstLine next).take Excerpt.width) :: linesBelow count next

/-- The source lines from the cursor's own down to another line. -/
def excerptTo (cursor : Cursor) (line : Nat) : Excerpt :=
  let first := Excerpt.ofLine (firstLine cursor.lineText) cursor.column
  { first with lines := first.lines ++ linesBelow (line - cursor.line) cursor.lineText }

/-- The span from one cursor to the byte in front of another. -/
def spanTo (start stop : Cursor) (breadcrumb : Breadcrumb) : Span :=
  -- An empty stretch counts as the byte it stands at.
  let last := Position.latest ⟨stop.line, max (stop.column - 1) 1⟩ start.position
  ⟨breadcrumb, start.position, last, start.excerptTo last.line⟩

end Cursor

end ArgSchema
