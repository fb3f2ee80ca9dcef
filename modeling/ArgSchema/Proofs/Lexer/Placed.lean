import ArgSchema.Proofs.Lexer.Lines
import ArgSchema.Proofs.Lexer.Sealed
import Mathlib.Data.List.Induction

/-! Placed cursors: at every point of a text a cursor knows its line, its column and the line's text. -/

namespace ArgSchema

/-- The bytes behind the last line end. -/
def lastLine (bytes : Bytes) : Bytes := (bytes.reverse.takeWhile (· ≠ byte '\n')).reverse

/-- A line end starts a new line, and any other byte goes on with the last one. -/
theorem lastLine_concat (bytes : Bytes) (b : UInt8) :
    lastLine (bytes ++ [b]) = if b = byte '\n' then [] else lastLine bytes ++ [b] := by
  -- The line is read backwards, from the byte that was added.
  unfold lastLine
  rw [List.reverse_append, List.reverse_singleton, List.singleton_append]
  split
  · next line => simp [line]
  · next other => simp [other]

/-- No line ends among the bytes behind the last line end. -/
theorem not_mem_lastLine (bytes : Bytes) : byte '\n' ∉ lastLine bytes := by
  -- The last line is what is taken, from the back, while no line end comes.
  intro member
  have fits := List.all_eq_true.mp List.all_takeWhile _ (List.mem_reverse.mp member)
  simp at fits

/-- A line without the carriage return in front of its line end. -/
def withoutReturn (line : Bytes) : Bytes :=
  if line.getLast? = some (byte '\r') then line.dropLast else line

/-- The lines of a text, without their line ends. -/
def sourceLines (text : Bytes) : List Bytes := (text.splitOn (byte '\n')).map withoutReturn

/-- The first line of a text ends at its first line end. -/
theorem sourceLines_line {line : Bytes} (inside : byte '\n' ∉ line) (rest : Bytes) :
    sourceLines (line ++ byte '\n' :: rest) = withoutReturn line :: sourceLines rest := by
  unfold sourceLines
  rw [List.splitOn_append_cons_self_of_not_mem inside, List.map_cons]

/-- A text has its first line, and the lines behind the first line end. -/
theorem sourceLines_eq (text : Bytes) : sourceLines text =
    Cursor.firstLine text :: (Cursor.nextLine? text).elim [] sourceLines := by
  obtain ⟨line, back, rfl, all, stop⟩ := Lexeme.exists_taken (· ≠ byte '\n') text
  have inside : byte '\n' ∉ line := fun member => by simpa using all _ member
  have first : Cursor.firstLine (line ++ back) = withoutReturn line := by
    unfold Cursor.firstLine
    simp only [takeWhile_append_stop all stop]
    rfl
  have next : Cursor.nextLine? (line ++ back) = back.tail? := by
    unfold Cursor.nextLine?
    rw [List.dropWhile_append_of_pos all]
    cases back with
    | nil => rfl
    | cons b rest => rw [List.dropWhile_cons_of_neg (by simp [stop b rfl])]; rfl
  rw [first, next]
  -- Behind the first line the text is over, or its line end follows.
  cases back with
  | nil => rw [List.append_nil, sourceLines, List.splitOn_eq_singleton inside]; rfl
  | cons b rest =>
    obtain rfl : b = byte '\n' := by simpa using stop b rfl
    exact sourceLines_line inside rest

/-- Behind as many lines as line ends stand in front of some bytes, the line goes on that these stand on. -/
theorem drop_sourceLines (before rest : Bytes) :
    (sourceLines (before ++ rest)).drop (before.countP (· = byte '\n')) =
      sourceLines (lastLine before ++ rest) := by
  -- Byte by byte from the end: a line end in front of the rest drops one more line.
  induction before using List.reverseRecOn generalizing rest with
  | nil => rfl
  | append_singleton before b ih =>
    rw [List.append_assoc, List.singleton_append, List.countP_append, ← List.drop_drop, ih,
      lastLine_concat]
    by_cases line : b = byte '\n'
    · subst line
      rw [sourceLines_line (not_mem_lastLine before)]
      simp
    · simp [line]

namespace Cursor

/-- A cursor stands behind some bytes of a text, and its line starts behind the last line end of these. -/
structure Placed (cursor : Cursor) (text before : Bytes) : Prop where
  /-- The text is what stands in front of the cursor and what follows. -/
  whole : before ++ cursor.rest = text
  /-- Line and column count what stands in front. -/
  stands : cursor.Stands before
  /-- The line starts with the bytes behind the last line end in front. -/
  lineText : cursor.lineText = lastLine before ++ cursor.rest

/-- At the start of a text nothing is in front of the cursor. -/
theorem placed_ofSource (source : Bytes) : (ofSource source).Placed (ofSource source).rest [] :=
  ⟨rfl, stands_ofSource source, rfl⟩

namespace Placed

variable {cursor : Cursor} {text before : Bytes} (placed : cursor.Placed text before)

include placed

/-- The line counts the line ends in front. -/
theorem line : cursor.line = before.countP (· = byte '\n') + 1 :=
  congrArg Position.line placed.stands

/-- The column counts the bytes of the line in front. -/
theorem column : cursor.column = (lastLine before).length + 1 := by
  have column := congrArg Position.column placed.stands
  simpa [position, Position.behind, lastLine] using column

/-- Behind the lines above, the cursor's own line is the next. -/
theorem sourceLines_lineText :
    (sourceLines text).drop (cursor.line - 1) = sourceLines cursor.lineText := by
  rw [placed.line, Nat.add_sub_cancel, ← placed.whole, placed.lineText]
  exact drop_sourceLines before cursor.rest

/-- One step goes over one byte. -/
theorem step {b : UInt8} {rest : Bytes} (found : cursor.rest = b :: rest) :
    cursor.step.Placed text (before ++ [b]) := by
  refine ⟨?_, placed.stands.step found, ?_⟩
  · rw [← placed.whole, rest_step, found, List.append_assoc]
    rfl
  · rw [lastLine_concat]
    simp only [Cursor.step, found]
    -- Behind a line end the line has no bytes in front.
    split
    · rfl
    · simp [placed.lineText, found]

/-- Going on goes over as many bytes as it counts, and never past the end of the text. -/
theorem advance (count : Nat) :
    (cursor.advance count).Placed text (before ++ cursor.rest.take count) := by
  induction count generalizing cursor before with
  | zero => simpa [Cursor.advance] using placed
  | succ count ih =>
    cases found : cursor.rest with
    | nil =>
      -- At the end of the text a step stays where it is.
      have here : cursor.step = cursor := by simp [Cursor.step, found]
      rw [Cursor.advance, here]
      simpa [found] using ih placed
    | cons b rest =>
      have next : cursor.step.rest = rest := by simp [rest_step, found]
      have given := ih (placed.step found)
      rwa [next, List.append_assoc, List.singleton_append, ← List.take_succ_cons] at given

/-- Behind bytes that follow, the cursor stands behind these too. -/
theorem behind {front back : Bytes} (found : cursor.rest = front ++ back) :
    (cursor.advance front.length).Placed text (before ++ front) := by
  have given := placed.advance front.length
  rwa [found, List.take_left] at given

end Placed

/-- A cursor in a text stands in front of the bytes of a token, and the token's span reaches over them. -/
structure Fronts (start : Cursor) (text : Bytes) (breadcrumb : Breadcrumb) (token : Token)
    (before slice after : Bytes) : Prop where
  /-- The cursor stands behind some bytes of the text. -/
  placed : start.Placed text before
  /-- The bytes of the token come next. -/
  found : start.rest = slice ++ after
  /-- They are the token wherever they stand. -/
  whole : Sealed slice token.kind token.text
  /-- The span goes from the cursor to the one behind them. -/
  span : token.span = start.spanTo (start.advance slice.length) breadcrumb

namespace Fronts

variable {start : Cursor} {text before slice after : Bytes} {breadcrumb : Breadcrumb} {token : Token}
  (fronts : start.Fronts text breadcrumb token before slice after)

include fronts

/-- The text is what stands in front of the token, its bytes, and what follows. -/
theorem text_eq : text = before ++ slice ++ after := by
  rw [← fronts.placed.whole, fronts.found, List.append_assoc]

/-- The span denotes the bytes. -/
theorem denotes : token.span.Denotes before slice := by
  rw [fronts.span]
  exact fronts.placed.stands.denotes fronts.found fronts.whole.ne_nil fronts.whole.solid breadcrumb

/-- Reading goes on behind the bytes. -/
theorem behind : (start.advance slice.length).Placed text (before ++ slice) :=
  fronts.placed.behind fronts.found

end Fronts

/-- A token in front of the end has its bytes behind the cursor, and reading goes on behind them. -/
theorem Placed.exists_fronts {cursor : Cursor} {text before : Bytes}
    (placed : cursor.Placed text before) {breadcrumb : Breadcrumb} {token : Token}
    (taken : (cursor.nextToken breadcrumb).result = .ok token) (inside : token.isEnd = false) :
    ∃ start more slice after, Fronts start text breadcrumb token (before ++ more) slice after ∧
      (cursor.nextToken breadcrumb).next = start.advance slice.length := by
  -- The cases are the reader's: it passes blanks, and then looks at one lexeme.
  have blanks := fun {cursor : Cursor} {before : Bytes} (placed : cursor.Placed text before) =>
    placed.advance (cursor.rest.takeWhile isBlank).length
  revert before
  fun_induction nextToken breadcrumb cursor with
  | case1 cursor start found =>
    intro _ placed
    cases taken
    simp [Token.isEnd] at inside
  | case2 cursor start first rest found lexeme stop span kind name warning =>
    rename_i content
    intro before placed
    cases taken
    have plain : isBlank first = false := cursor.head?_skipBlanks first (by simp [start, found])
    obtain ⟨body, after, rfl, length, whole⟩ := Sealed.of_recognize plain content
    refine ⟨start, _, first :: body, after, ⟨blanks placed, found, whole, ?_⟩, ?_⟩
    · rw [← length]
    · rw [← length]
  -- Comments and what is malformed stand in front of the token.
  | case3 cursor start first rest found lexeme stop content =>
    rename_i ih
    intro before placed
    obtain ⟨start, more, given⟩ := ih taken ((blanks placed).advance _)
    rw [List.append_assoc, List.append_assoc] at given
    exact ⟨start, _, given⟩
  | case4 cursor start first rest found lexeme stop problem marked content place =>
    rename_i ih
    intro before placed
    obtain ⟨start, more, given⟩ := ih taken ((blanks placed).advance _)
    rw [List.append_assoc, List.append_assoc] at given
    exact ⟨start, _, given⟩
  | case5 => cases taken
  | case6 => cases taken

end Cursor

end ArgSchema
