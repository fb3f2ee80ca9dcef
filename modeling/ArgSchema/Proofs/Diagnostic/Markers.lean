import ArgSchema.Diagnostic.Render
import ArgSchema.Proofs.Lexer.Excerpts
import ArgSchema.Proofs.Preprocessor.Slices
import ArgSchema.Proofs.Text.Digits

/-! Markers: below the first source line of a diagnostic, carets stand under the bytes of the token. -/

namespace ArgSchema

/-- Repeated blanks are as many blanks. -/
theorem toList_blanks (count : Nat) : (repeated count " ").toList = List.replicate count ' ' := by
  -- The text is one character, as often as it is repeated.
  rw [repeated, String.toList_join, List.flatMap_replicate]
  induction count with
  | zero => rfl
  | succ count ih => rw [List.replicate_succ, List.flatten_cons, ih]; rfl

/-- What stands in front of a source line. -/
def gutter (number : Nat) : String :=
  repeated (5 - (toString number).length) " " ++ toString number ++ " | "

/-- Number of columns by which a line number is too long for its place. -/
def overrun (number : Nat) : Nat := (toString number).length - 5

/-- What stands in front of a source line takes eight columns, and more for a number that is too long. -/
theorem length_gutter (number : Nat) : (gutter number).length = 8 + overrun number := by
  -- A number of five digits or fewer is filled up to five, and a longer one is not cut.
  have blanks : (repeated (5 - (toString number).length) " ").length =
      5 - (toString number).length := by
    rw [← String.length_toList, toList_blanks, List.length_replicate]
  rw [gutter, String.length_append, String.length_append, blanks, overrun]
  show _ + 3 = _
  omega

/-- Only numbers from 100000 on are too long. -/
theorem overrun_eq_zero_iff (number : Nat) : overrun number = 0 ↔ number < 100000 := by
  -- The number has at most five digits exactly if it is below the first with six.
  have short := @Nat.length_toDigits_le_iff 10 number 5 (by decide) (by decide)
  have digits : (toString number).length = (Nat.toDigits 10 number).length := String.length_ofList
  rw [overrun, digits, Nat.sub_eq_zero_iff_le]
  exact short

/-- The size of a text is the number of its bytes. -/
theorem Utf8.utf8ByteSize_eq (text : String) : text.utf8ByteSize = (encode text).length := by
  -- The size of a string is that of its bytes, which are those of its characters.
  have bytes : text.toByteArray = text.toList.utf8Encode := by
    rw [← String.toByteArray_ofList, String.ofList_toList]
  rw [← String.size_toByteArray, bytes, List.utf8Encode, List.size_toByteArray]
  rfl

/-- A source line behind its number, and carets behind a marker on the row below. -/
structure MarkedLine where
  /-- What stands in front of the line. -/
  gutter : String
  /-- The line. -/
  line : String
  /-- What stands in front of the carets. -/
  marker : String
  /-- Number of carets. -/
  carets : Nat

/-- The two rows. -/
def MarkedLine.text (marked : MarkedLine) (color reset : String) : String :=
  marked.gutter ++ marked.line ++ "\n" ++ marked.marker ++ color ++ repeated marked.carets "^" ++
    reset ++ "\n"

namespace Span

/-- A span of some bytes, of which this is the first, prints what is shown of their line with carets
below it, and then the lines below. -/
structure Marks (span : Span) (slice : Bytes) (b : UInt8) (shown : Bytes) (below : List Bytes)
    (marked : MarkedLine) : Prop where
  /-- The line is printed behind its number. -/
  line : marked.gutter = gutter span.line ∧ marked.line = Utf8.ascii shown
  /-- The two rows are printed, and then the lines below behind their numbers. -/
  prints : ∀ color reset, span.excerptText color reset = marked.text color reset ++
    String.join ((below.map shownBelow).mapIdx fun offset line =>
      numberedLine (span.line + offset + 1) line)
  /-- The first caret is the first thing behind the marker. -/
  caret : '^' ∉ marked.marker.toList ∧ 0 < marked.carets
  /-- It stands in the column of the first byte, or to the left of it if the line number is too long. -/
  under : (marked.gutter ++ marked.line).toList[marked.marker.length + overrun span.line]? =
    some (Char.ofNat b.toNat)
  /-- There are as many carets as bytes on the one line. -/
  width : span.start.line = span.stop.line → marked.carets = slice.length

/-- Behind bytes without a line end the column counts these bytes. -/
theorem column_behind_append (before : Bytes) {front : Bytes} (inside : byte '\n' ∉ front) :
    (Position.behind (before ++ front)).column = (Position.behind before).column + front.length := by
  -- Byte by byte: none of them is a line end, so each moves the column by one.
  induction front generalizing before with
  | nil => rw [List.append_nil]; rfl
  | cons c front ih =>
    obtain ⟨other, inside⟩ := not_or.mp (List.mem_cons.not.mp inside)
    rw [← List.singleton_append, ← List.append_assoc, ih _ inside, Position.behind_concat,
      if_neg (Ne.symm other), List.length_append, ← Nat.add_assoc]
    rfl

/-- Bytes of one line take as many columns. -/
theorem Denotes.length_of_line {span : Span} {before slice : Bytes} (denotes : span.Denotes before slice)
    (line : span.start.line = span.stop.line) :
    span.start.column + slice.length = span.stop.column + 1 := by
  -- A line end in front of the last byte would make the span end on a later line.
  have inside : byte '\n' ∉ slice.dropLast := by
    intro member
    have counted : 0 < slice.dropLast.countP (· = byte '\n') :=
      List.countP_pos_iff.mpr ⟨_, member, by simp⟩
    rw [denotes.start, denotes.stop] at line
    simp only [Position.behind, List.countP_append] at line
    omega
  have size := List.length_pos_iff.mpr denotes.some
  rw [denotes.start, denotes.stop, column_behind_append before inside, List.length_dropLast]
  omega

variable {span : Span} {text before slice first : Bytes} {b : UInt8} {below : List Bytes}

/-- A token's span marks the token's bytes in what it prints of an ASCII line. -/
theorem Shows.marks (shows : span.Shows text b first below) (denotes : span.Denotes before slice)
    (ascii : ∀ c ∈ span.excerpt.window first, c < 0x80) :
    ∃ marked, span.Marks slice b (span.excerpt.window first) below marked := by
  have shown := Utf8.decodeLossy_eq_ascii ascii
  have size : (Utf8.ascii (span.excerpt.window first)).utf8ByteSize =
      (span.excerpt.window first).length := by
    rw [Utf8.utf8ByteSize_eq, Utf8.encode_ascii ascii]
  -- The byte is inside the window, so the blanks in front of the carets are not cut short.
  have inside := (List.getElem?_eq_some_iff.mp shows.starts).1
  have indent : span.markerIndent (Utf8.ascii (span.excerpt.window first)) =
      span.column - span.excerpt.firstColumn := by
    rw [markerIndent, size, Nat.min_eq_left (Nat.le_of_lt inside)]
  have marker : ("      | " ++ repeated (span.column - span.excerpt.firstColumn) " ").toList =
      "      | ".toList ++ List.replicate (span.column - span.excerpt.firstColumn) ' ' := by
    rw [String.toList_append, toList_blanks]
  -- The rows are the numbered line and the carets, with the column in front of them counted in
  -- characters.
  refine ⟨⟨gutter span.line, Utf8.ascii (span.excerpt.window first),
    "      | " ++ repeated (span.column - span.excerpt.firstColumn) " ",
    span.markerWidth (Utf8.ascii (span.excerpt.window first))⟩, ⟨rfl, rfl⟩, ?_, ?_, ?_, ?_⟩
  -- The text is a line with its number, the markers below it, and the lines that follow.
  · intro color reset
    rw [excerptText, shows.texts, shown]
    simp only [indent]
    simp only [MarkedLine.text, numberedLine, gutter, String.append_assoc]
  · refine ⟨?_, Nat.succ_pos _⟩
    rw [marker]
    simp [List.mem_replicate]
  · have column : ("      | " ++ repeated (span.column - span.excerpt.firstColumn) " ").length +
        overrun span.line =
          (gutter span.line).toList.length + (span.column - span.excerpt.firstColumn) := by
      rw [String.length_toList, length_gutter, ← String.length_toList, marker, List.length_append,
        List.length_replicate]
      show 8 + _ + _ = _
      omega
    rw [column, String.toList_append, List.getElem?_append_right (Nat.le_add_right ..),
      Nat.add_sub_cancel_left, Utf8.ascii, String.toList_ofList, List.getElem?_map, shows.starts]
    rfl
  -- In one line the markers are as many as the token's characters.
  · intro line
    have length := denotes.length_of_line line
    have some := List.length_pos_iff.mpr denotes.some
    have column : span.column = span.start.column := rfl
    have begins := shows.around.begins
    simp only [markerWidth, indent, if_pos line.symm]
    omega

end Span

/-- A diagnostic shows a span under a severity: its own span, or that of a note. -/
inductive Diagnostic.Carries (diagnostic : Diagnostic) : Severity → Span → Prop
  /-- Its own span is shown under its severity. -/
  | own {span : Span} : diagnostic.span? = some span → Carries diagnostic diagnostic.severity span
  /-- The span of a note is shown as a note. -/
  | note {note : Note} : note ∈ diagnostic.notes → Carries diagnostic .note note.span

/-- What a message prints of its span's source stands on rows of its own at its end. -/
theorem messageBlock_span (palette : Palette) (severity : Severity) (message : String) (span : Span)
    (breadcrumb : Breadcrumb) : ∃ front, messageBlock palette severity message (some span) breadcrumb =
      front ++ "\n" ++ span.excerptText (palette.color severity) palette.reset :=
  ⟨_, rfl⟩

/-- A text among others is found where they are joined. -/
theorem exists_of_mem_join {texts : List String} {text : String} (member : text ∈ texts) :
    ∃ front back, String.join texts = front ++ text ++ back := by
  obtain ⟨ahead, behind, rfl⟩ := List.append_of_mem member
  exact ⟨String.join ahead, String.join behind, by simp [String.append_assoc]⟩

/-- A diagnostic prints the source of the spans that it carries. -/
theorem Diagnostic.render_of_carries {diagnostic : Diagnostic} {severity : Severity} {span : Span}
    (carries : diagnostic.Carries severity span) (palette : Palette) :
    ∃ front back, diagnostic.render palette =
      front ++ "\n" ++ span.excerptText (palette.color severity) palette.reset ++ back := by
  cases carries with
  | own found =>
    rw [Diagnostic.render, found]
    obtain ⟨front, block⟩ := messageBlock_span palette diagnostic.severity _ span diagnostic.breadcrumb
    rw [block]
    exact ⟨front, _, rfl⟩
  | @note note member =>
    obtain ⟨front, block⟩ :=
      messageBlock_span palette .note note.message note.span note.span.breadcrumb
    -- The note's own text stands among those of all notes, and these stand at the end.
    obtain ⟨ahead, behind, notes⟩ := exists_of_mem_join (List.mem_map_of_mem (f := fun note : Note =>
      messageBlock palette .note note.message (some note.span) note.span.breadcrumb) member)
    rw [Diagnostic.render, notes, block]
    generalize messageBlock palette diagnostic.severity _ _ _ = own
    exact ⟨own ++ (ahead ++ front), behind, by simp only [String.append_assoc]⟩

/-- A source is read behind a byte order mark if it starts with one, and else from its first byte. -/
theorem Cursor.exists_rest_ofSource (source : Bytes) : ∃ mark, source = mark ++ (ofSource source).rest ∧
    (mark = byteOrderMark ∨ mark = [] ∧ ¬byteOrderMark <+: source) := by
  unfold ofSource
  -- The mark is dropped only where the source starts with it.
  split
  · next marked =>
    obtain ⟨text, rfl⟩ := List.isPrefixOf_iff_prefix.mp marked
    exact ⟨byteOrderMark, rfl, .inl rfl⟩
  · next unmarked =>
    exact ⟨[], rfl, .inr ⟨rfl, fun marked => unmarked (List.isPrefixOf_iff_prefix.mpr marked)⟩⟩

/-- Every token shows the source lines that it stands on, the first of them in a window around its first
byte. What is shown of an ASCII line is printed with as many carets below it as a token of one line has
bytes; the first caret stands under the first byte, or to its left by the columns by which the line number
is too long, and every diagnostic that carries the span prints this. -/
theorem token_shown {source : Bytes} {breadcrumb : Breadcrumb} {token : Token}
    (member : token ∈ ((Cursor.ofSource source).raw breadcrumb).tokens) :
    ∃ mark before slice after b first below,
      source = mark ++ (before ++ slice ++ after) ∧
      (mark = Cursor.byteOrderMark ∨ mark = [] ∧ ¬Cursor.byteOrderMark <+: source) ∧
      slice.head? = some b ∧ Sealed slice token.kind token.text ∧
      token.span.Denotes before slice ∧
      token.span.Shows (before ++ slice ++ after) b first below ∧
      ((∀ c ∈ token.span.excerpt.window first, c < 0x80) → ∃ marked,
        token.span.Marks slice b (token.span.excerpt.window first) below marked ∧
        (overrun token.span.line = 0 ↔ token.span.line < 100000)) ∧
      ∀ diagnostic severity, Diagnostic.Carries diagnostic severity token.span →
        ∀ palette, ∃ front back, diagnostic.render palette =
          front ++ "\n" ++ token.span.excerptText (palette.color severity) palette.reset ++ back := by
  -- Where the token stands, in what source, and what its span shows of that.
  obtain ⟨start, before, slice, after, fronts⟩ :=
    (Cursor.placed_ofSource source).tokens_raw.1 token member
  obtain ⟨mark, bytes, marked⟩ := Cursor.exists_rest_ofSource source
  obtain ⟨b, body, first, below, rfl, shows⟩ := fronts.shows
  rw [fronts.text_eq] at bytes shows
  refine ⟨mark, before, b :: body, after, b, first, below, bytes, marked, rfl, fronts.whole,
    fronts.denotes, shows, fun ascii => ?_, fun diagnostic severity carries =>
      Diagnostic.render_of_carries carries⟩
  obtain ⟨rows, marks⟩ := shows.marks fronts.denotes ascii
  exact ⟨rows, marks, overrun_eq_zero_iff _⟩

/-- Behind empty lines a line starts. -/
theorem lastLine_replicate (lines : Nat) : lastLine (List.replicate lines (byte '\n')) = [] := by
  -- The last of the empty lines ends with a line end, and nothing follows it.
  cases lines with
  | zero => rfl
  | succ lines => rw [List.replicate_succ', lastLine_concat, if_pos rfl]

/-- Behind empty lines a word is read, and its span shows the line that it stands on. -/
theorem exists_word_behind_lines (lines : Nat) : ∃ token,
    token ∈ ((Cursor.ofSource (List.replicate lines (byte '\n') ++ [byte 'b'])).raw []).tokens ∧
      token.span = ⟨[], ⟨lines + 1, 1⟩, ⟨lines + 1, 1⟩, ⟨1, ["b"]⟩⟩ := by
  -- The line ends are blanks, so the first token is the word behind them.
  have source : (Cursor.ofSource (List.replicate lines (byte '\n') ++ [byte 'b'])).rest =
      List.replicate lines (byte '\n') ++ [byte 'b'] := by
    cases lines <;> rfl
  have placed := (Cursor.placed_ofSource (List.replicate lines (byte '\n') ++ [byte 'b'])).behind source
  generalize Cursor.ofSource (List.replicate lines (byte '\n') ++ [byte 'b']) = cursor at *
  have blanks : Gap (List.replicate lines (byte '\n')) :=
    .of_blanks fun b member => (List.eq_of_mem_replicate member) ▸ rfl
  -- The word stands alone on its line.
  have last := lastLine_replicate lines
  have start : cursor.advance (List.replicate lines (byte '\n')).length =
      ⟨[byte 'b'], lines + 1, 1, [byte 'b']⟩ := by
    have rest := Cursor.rest_advance cursor (List.replicate lines (byte '\n')).length
    have line := placed.line
    have column := placed.column
    have lineText := placed.lineText
    rw [source, List.drop_left] at rest
    rw [List.nil_append, last, rest] at lineText
    rw [List.nil_append, last] at column
    rw [List.nil_append, List.countP_replicate, if_pos (by decide)] at line
    cases behind : cursor.advance (List.replicate lines (byte '\n')).length
    simp_all
  have read := @Cursor.nextToken_of_token ⟨[byte 'b'], lines + 1, 1, [byte 'b']⟩ _ _ rfl (by decide)
    .identifier "b" none (by decide +kernel) []
  -- It is one byte long, so it ends in its own column.
  have stop : (⟨[byte 'b'], lines + 1, 1, [byte 'b']⟩ : Cursor).advance
      (Lexeme.recognize (byte 'b') []).length = ⟨[], lines + 1, 2, [byte 'b']⟩ := by
    have length : (Lexeme.recognize (byte 'b') []).length = 1 := by decide +kernel
    rw [length]
    rfl
  have span : (⟨[byte 'b'], lines + 1, 1, [byte 'b']⟩ : Cursor).spanTo
      ⟨[], lines + 1, 2, [byte 'b']⟩ [] = ⟨[], ⟨lines + 1, 1⟩, ⟨lines + 1, 1⟩, ⟨1, ["b"]⟩⟩ := by
    have first : Excerpt.ofLine (Cursor.firstLine [byte 'b']) 1 = ⟨1, ["b"]⟩ := by decide +kernel
    simp [Cursor.spanTo, Cursor.position, Position.latest, Cursor.excerptTo, first,
      Cursor.linesBelow]
  simp only [stop, span] at read
  rw [← start, ← Cursor.nextToken_gap blanks source] at read
  refine ⟨⟨.identifier, "b", ⟨[], ⟨lines + 1, 1⟩, ⟨lines + 1, 1⟩, ⟨1, ["b"]⟩⟩⟩, ?_, rfl⟩
  rw [Cursor.tokens_raw_of_token (by rw [read]) rfl]
  exact .head _

/-- Below line 100000 the caret stands one column to the left of the word on that line. -/
theorem token_shown_far : ∃ token, token ∈ ((Cursor.ofSource
      (List.replicate 99999 (byte '\n') ++ [byte 'b'])).raw []).tokens ∧
    token.span.line = 100000 ∧ overrun token.span.line = 1 ∧
    ∃ slice below marked, token.span.Marks slice (byte 'b') [byte 'b'] below marked := by
  -- The law is used for any number of lines first, so nothing is computed over a long text.
  have marks : ∀ lines, ∃ token, token ∈ ((Cursor.ofSource
        (List.replicate lines (byte '\n') ++ [byte 'b'])).raw []).tokens ∧
      token.span.line = lines + 1 ∧
      ∃ slice below marked, token.span.Marks slice (byte 'b') [byte 'b'] below marked := by
    intro lines
    obtain ⟨token, member, span⟩ := exists_word_behind_lines lines
    obtain ⟨mark, before, slice, after, b, first, below, source, marked, -, -, -, shows, marks, -⟩ :=
      token_shown member
    have none : mark = [] := by
      rcases marked with rfl | ⟨none, -⟩
      · cases lines <;> cases congrArg List.head? source
      · exact none
    rw [none, List.nil_append] at source
    -- Behind the empty lines the word's own line is left, and it is shown whole.
    have own := drop_sourceLines (List.replicate lines (byte '\n')) [byte 'b']
    rw [List.countP_replicate, if_pos (by decide), lastLine_replicate, List.nil_append, source] at own
    have line := shows.lines
    have single : sourceLines [byte 'b'] = [[byte 'b']] := by decide +kernel
    simp only [span, Nat.add_sub_cancel, own, single, Nat.sub_self] at line
    obtain ⟨rfl, -⟩ := List.cons.inj line
    have window : token.span.excerpt.window [byte 'b'] = [byte 'b'] := by rw [span]; rfl
    have starts := shows.starts
    rw [window, span] at starts
    obtain rfl : byte 'b' = b := Option.some.inj starts
    rw [window] at marks
    obtain ⟨rows, marked, -⟩ := marks (by simp; decide)
    exact ⟨token, member, by rw [span]; rfl, slice, below, rows, marked⟩
  obtain ⟨token, member, line, shown⟩ := marks 99999
  exact ⟨token, member, line, by rw [line]; decide, shown⟩

end ArgSchema
