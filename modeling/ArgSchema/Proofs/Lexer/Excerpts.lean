import ArgSchema.Proofs.Lexer.Placed

/-! Excerpts: the span of a token shows the source lines that the token stands on. -/

namespace ArgSchema

/-- The beginning of a line that an excerpt shows below its first line. -/
def shownBelow (line : Bytes) : String := Utf8.decodeLossy (line.take Excerpt.width)

/-- Lines below the first are the next lines of the text, as many of them as there are. -/
theorem linesBelow_eq (count : Nat) (bytes : Bytes) :
    Cursor.linesBelow count bytes = ((sourceLines bytes).tail.take count).map shownBelow := by
  -- Each line below is found behind the next line end, until there is none.
  induction count generalizing bytes with
  | zero => rfl
  | succ count ih =>
    rw [Cursor.linesBelow, sourceLines_eq, List.tail_cons]
    cases Cursor.nextLine? bytes with
    | none => rfl
    | some next =>
      have own := sourceLines_eq next
      simp only [Option.elim_some, ih]
      rw [own]
      rfl

/-- A text has one line more than line ends. -/
theorem length_sourceLines (text : Bytes) :
    (sourceLines text).length = text.countP (· = byte '\n') + 1 := by
  have last := drop_sourceLines text []
  rw [List.append_nil, List.append_nil] at last
  -- Behind all line ends one line is left.
  have single : (sourceLines (lastLine text)).length = 1 := by
    rw [sourceLines, List.splitOn_eq_singleton (not_mem_lastLine text)]
    rfl
  rw [← last, List.length_drop] at single
  omega

/-- A byte that is no part of a line end is found on its line. -/
theorem getElem?_firstLine {line rest : Bytes} {b : UInt8} (inside : byte '\n' ∉ line)
    (plain : isBlank b = false) : (Cursor.firstLine (line ++ b :: rest))[line.length]? = some b := by
  have other : b ≠ byte '\n' ∧ b ≠ byte '\r' := by
    constructor <;> rintro rfl <;> cases plain
  have taken : (line ++ b :: rest).takeWhile (· ≠ byte '\n') =
      line ++ b :: rest.takeWhile (· ≠ byte '\n') := by
    rw [List.takeWhile_append_of_pos, List.takeWhile_cons_of_pos]
    · simpa using other.1
    · intro c member
      simpa using fun same : c = byte '\n' => inside (same ▸ member)
  show (withoutReturn ((line ++ b :: rest).takeWhile (· ≠ byte '\n')))[line.length]? = some b
  rw [taken, withoutReturn]
  split
  · next last =>
    -- A carriage return that is dropped stands behind the byte.
    generalize rest.takeWhile (· ≠ byte '\n') = more at last
    cases more with
    | nil =>
      rw [List.getLast?_concat] at last
      exact absurd (Option.some.inj last) other.2
    | cons c more =>
      rw [List.dropLast_append_cons]
      simp
  · simp

namespace Excerpt

/-- What an excerpt shows of its first line. -/
def window (excerpt : Excerpt) (line : Bytes) : Bytes :=
  (line.drop (excerpt.firstColumn - 1)).take width

/-- An excerpt shows a line around one of its bytes. -/
structure Around (excerpt : Excerpt) (line : Bytes) (column : Nat) : Prop where
  /-- The window begins at a column, and no later than the byte. -/
  begins : 1 ≤ excerpt.firstColumn ∧ excerpt.firstColumn ≤ column
  /-- The window ends behind the byte. -/
  ends : column < excerpt.firstColumn + width
  /-- The window lies within the line, and only a shorter line leaves room in it. -/
  within : excerpt.firstColumn - 1 + min width line.length ≤ line.length

/-- The excerpt of a line shows it around the byte at the column. -/
theorem around_ofLine {line : Bytes} {column : Nat} (start : 1 ≤ column) (stop : column ≤ line.length) :
    (ofLine line column).Around line column := by
  unfold ofLine windowStart
  -- A short line is shown whole, and the window on a long one is clamped at both ends.
  split
  · next short =>
    exact ⟨⟨Nat.le_refl _, start⟩, by simp only; omega, by simp only; omega⟩
  · next long =>
    have half : width / 2 < width := by decide
    refine ⟨⟨?_, ?_⟩, ?_, ?_⟩ <;> simp only [] <;> omega

/-- The byte at the column is found in the window. -/
theorem Around.getElem?_window {excerpt : Excerpt} {line : Bytes} {column : Nat}
    (around : excerpt.Around line column) :
    (excerpt.window line)[column - excerpt.firstColumn]? = (line)[column - 1]? := by
  -- The window starts at its first column and is longer than the rest of the way.
  obtain ⟨⟨first, begins⟩, ends, -⟩ := around
  rw [window, List.getElem?_take_of_lt (by omega), List.getElem?_drop]
  congr 1
  omega

end Excerpt

/-- A span shows the lines of a text that it goes over, the first of them around its first byte. -/
structure Span.Shows (span : Span) (text : Bytes) (b : UInt8) (first : Bytes)
    (below : List Bytes) : Prop where
  /-- These are the lines from the one that the span starts on to the one that it ends on. -/
  lines : ((sourceLines text).drop (span.start.line - 1)).take
    (span.stop.line - span.start.line + 1) = first :: below
  /-- The text has all of these lines, and each is shown. -/
  count : span.start.line + span.excerpt.lines.length = span.stop.line + 1
  /-- Of the first line the window is shown, and of each other one its beginning. -/
  texts : span.excerpt.lines =
    Utf8.decodeLossy (span.excerpt.window first) :: below.map shownBelow
  /-- The window stands around the byte that the span starts at. -/
  around : span.excerpt.Around first span.column
  /-- This is the byte. -/
  starts : (span.excerpt.window first)[span.column - span.excerpt.firstColumn]? = some b

namespace Cursor

/-- An excerpt shows the lines from the cursor's own on, as far as the text has them. -/
theorem lines_excerptTo (cursor : Cursor) (line : Nat) : (cursor.excerptTo line).lines =
    Utf8.decodeLossy ((cursor.excerptTo line).window (firstLine cursor.lineText)) ::
      ((sourceLines cursor.lineText).tail.take (line - cursor.line)).map shownBelow := by
  rw [← linesBelow_eq]
  rfl

/-- The span of a token shows the lines that the token stands on. -/
theorem Fronts.shows {start : Cursor} {text before slice after : Bytes} {breadcrumb : Breadcrumb}
    {token : Token} (fronts : start.Fronts text breadcrumb token before slice after) :
    ∃ b body first below, slice = b :: body ∧ token.span.Shows text b first below := by
  -- The token's slice has a first byte, which stands in the first line of the excerpt.
  obtain ⟨b, body, -, rfl, plain, -⟩ := fronts.whole.reads
  have denotes := fronts.denotes
  have placed := fronts.placed
  have line : token.span.start.line = start.line := by rw [fronts.span]; rfl
  have column : token.span.column = (lastLine before).length + 1 := by
    rw [← placed.column, fronts.span]
    rfl
  have excerpt : token.span.excerpt = start.excerptTo token.span.stop.line := by
    rw [fronts.span]
    rfl
  have lineText : start.lineText = lastLine before ++ b :: (body ++ after) := by
    rw [placed.lineText, fronts.found, List.cons_append]
  -- The line ends inside the token are line ends of the text, so the text has the lines below.
  have last : token.span.stop.line = start.line +
      ((b :: body).dropLast).countP (· = byte '\n') := by
    rw [denotes.stop, placed.line]
    simp only [Position.behind, List.countP_append]
    omega
  have enough : token.span.stop.line - start.line + 1 ≤ (sourceLines start.lineText).length := by
    have inside : ((b :: body).dropLast).countP (· = byte '\n') ≤
        (b :: body).countP (· = byte '\n') :=
      (List.dropLast_sublist _).countP_le
    rw [length_sourceLines, lineText, ← List.cons_append, List.countP_append, List.countP_append]
    omega
  -- The excerpt is cut to those lines, and the first is the one with the byte in it.
  have shown := start.lines_excerptTo token.span.stop.line
  have first := @getElem?_firstLine _ (body ++ after) _ (not_mem_lastLine before) plain
  rw [← lineText] at first
  refine ⟨b, body, firstLine start.lineText,
    (sourceLines start.lineText).tail.take (token.span.stop.line - start.line), rfl, ?_⟩
  -- The window is laid around the token's column.
  have around : token.span.excerpt.Around (firstLine start.lineText) token.span.column := by
    have inside := (List.getElem?_eq_some_iff.mp first).1
    have given := @Excerpt.around_ofLine (firstLine start.lineText) token.span.column
      (by omega) (by omega)
    rw [excerpt]
    rw [column, ← placed.column] at given ⊢
    exact ⟨given.begins, given.ends, given.within⟩
  -- Left to show: the line of the text, that it is long enough, and the byte in the window.
  refine ⟨?_, ?_, excerpt ▸ shown, around, ?_⟩
  · rw [line, placed.sourceLines_lineText]
    have own := sourceLines_eq start.lineText
    rw [own]
    rfl
  · rw [line, excerpt, shown, List.length_cons, List.length_map, List.length_take,
      List.length_tail]
    omega
  · rw [around.getElem?_window, column, Nat.add_sub_cancel, first]

end Cursor

end ArgSchema
