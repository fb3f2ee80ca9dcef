import ArgSchema.Proofs.Lexer.Lossless
import ArgSchema.Proofs.Lexer.Placed
import ArgSchema.Proofs.Lexer.Written

/-! Undamaged text: the lexer starts and stops between characters, and quotes what is there. -/

namespace ArgSchema

open Utf8 (encode IsText)

/-- Some bytes are whole lines, and behind them those of the last line. -/
theorem exists_ended (bytes : Bytes) : ∃ ended, bytes = ended ++ lastLine bytes ∧
    (ended = [] ∨ EndsLine ended) := by
  -- The last byte ends a line or belongs to the last one.
  induction bytes using List.reverseRecOn with
  | nil => exact ⟨[], rfl, .inl rfl⟩
  | append_singleton bytes b ih =>
    obtain ⟨ended, split, ends⟩ := ih
    rw [lastLine_concat]
    by_cases line : b = byte '\n'
    · exact ⟨bytes ++ [b], by simp [line], .inr (by simp [EndsLine, line])⟩
    · refine ⟨ended, ?_, ends⟩
      rw [if_neg line, ← List.append_assoc, ← split]

namespace Cursor

/-- A cursor is in a text: whole lines and the start of its own line were read, and line and column
count what was read. -/
structure Within (cursor : Cursor) (text ended line : Bytes) : Prop where
  /-- The text is what was read and what was not. -/
  whole : text = ended ++ line ++ cursor.rest
  /-- The line starts behind a line end, unless it is the first. -/
  starts : ended = [] ∨ EndsLine ended
  /-- No line ends on the line of the cursor. -/
  inside : byte '\n' ∉ line
  /-- The text of the line starts behind the last line end that was read. -/
  lineText : cursor.lineText = line ++ cursor.rest
  /-- The line is one more than the line ends that were read. -/
  lines : cursor.line = 1 + (ended ++ line).countP (· = byte '\n')
  /-- The column is one more than the bytes that were read behind the start of the line. -/
  columns : cursor.column = (ended ++ line).length - ended.length + 1

/-- A cursor that knows its place is in its text. -/
theorem Placed.within {cursor : Cursor} {text before : Bytes} (placed : cursor.Placed text before) :
    ∃ ended line, before = ended ++ line ∧ cursor.Within text ended line := by
  -- What is read is cut behind its last line end, and the cursor counts lines and columns from
  -- there.
  obtain ⟨ended, split, ends⟩ := exists_ended before
  refine ⟨ended, lastLine before, split, ?_, ends, not_mem_lastLine before, placed.lineText, ?_, ?_⟩
  · rw [← split, placed.whole]
  · rw [← split, placed.line, Nat.add_comm]
  · rw [List.length_append, Nat.add_sub_cancel_left, placed.column]

/-- Behind a mark and some text of a source a cursor stands in front of more text. -/
structure Between (cursor : Cursor) (source read back : String) : Prop where
  /-- The source is the mark, what was read and what was not. -/
  whole : ∃ mark, IsMark mark ∧ source = mark ++ (read ++ back)
  /-- Behind the mark the cursor knows its place. -/
  placed : cursor.Placed (encode (read ++ back)) (encode read)

/-- At the start of a source no character is cut. -/
theorem between_ofSource (source : String) :
    ∃ text, (ofSource (encode source)).Between source "" text := by
  -- At the start nothing is read but a mark.
  obtain ⟨mark, text, marked, whole, bytes⟩ := exists_mark source
  have placed := placed_ofSource (encode source)
  rw [bytes] at placed
  exact ⟨text, ⟨mark, marked, by rw [whole, String.empty_append]⟩, by rwa [String.empty_append]⟩

namespace Between

variable {cursor : Cursor} {source read slice back : String}

/-- The text in front of a cursor is what it reads next. -/
theorem rest (stands : cursor.Between source read back) : cursor.rest = encode back := by
  -- The text is what has been read and what has not; both ways to cut it have the same front.
  have whole := stands.placed.whole
  rw [Utf8.encode_append] at whole
  exact List.append_cancel_left whole

/-- Behind a text that follows, a cursor stands between the characters again. -/
theorem behind (stands : cursor.Between source read (slice ++ back)) :
    (cursor.advance (encode slice).length).Between source (read ++ slice) back := by
  -- The slice is whole characters, so reading it stops between two of them.
  obtain ⟨mark, marked, whole⟩ := stands.whole
  have found := stands.rest
  rw [Utf8.encode_append] at found
  have placed := stands.placed.behind found
  rw [← Utf8.encode_append, ← String.append_assoc] at placed
  exact ⟨⟨mark, marked, by rw [whole, String.append_assoc]⟩, placed⟩

/-- Behind a text that follows there is more text. -/
theorem exists_more (stands : cursor.Between source read back) {after : Bytes}
    (found : cursor.rest = encode slice ++ after) :
    ∃ more, after = encode more ∧ cursor.Between source read (slice ++ more) := by
  obtain ⟨more, rfl, rfl⟩ := Utf8.exists_of_encode_append (stands.rest.symm.trans found)
  exact ⟨more, rfl, stands⟩

/-- Blanks are characters of their own. -/
theorem skipBlanks (stands : cursor.Between source read back) :
    ∃ read back, cursor.skipBlanks.Between source read back := by
  -- Blanks are single bytes, so they are characters.
  have small : ∀ b ∈ cursor.rest.takeWhile isBlank, b < 0x80 := by
    intro b member
    refine UInt8.not_le.mp fun high => ?_
    have blank := List.all_eq_true.mp List.all_takeWhile b member
    simpa [blank] using Lexeme.isBlank_of_high high
  obtain ⟨blanks, same⟩ := IsText.of_small small
  have found : cursor.rest = encode blanks ++ cursor.rest.dropWhile isBlank := by
    rw [same, List.takeWhile_append_dropWhile]
  obtain ⟨more, -, given⟩ := stands.exists_more found
  rw [Cursor.skipBlanks, ← same]
  exact ⟨_, _, given.behind⟩

/-- A lexeme takes whole characters, and says what they are. -/
theorem recognize (stands : cursor.Between source read back) {first : UInt8} {rest : Bytes}
    (found : cursor.rest = first :: rest) : ∃ slice more,
      cursor.Between source read (slice ++ more) ∧
      (encode slice).length = (Lexeme.recognize first rest).length ∧
      (Lexeme.recognize first rest).content.Says slice := by
  -- The rest is text, so the lexeme says a slice of it.
  have text : IsText (first :: rest) := ⟨back, by rw [← found, stands.rest]⟩
  obtain ⟨slice, after, split, size, content⟩ := Lexeme.says_recognize text
  obtain ⟨more, -, given⟩ := stands.exists_more (found.trans split)
  exact ⟨slice, more, given, size, content⟩

/-- The text of a token is a slice that is the token wherever it stands. -/
theorem whole_slice (stands : cursor.Between source read (slice ++ back)) {first : UInt8}
    {rest : Bytes} {kind : TokenKind} {text : String} {warning? : Option Warning}
    (found : cursor.rest = first :: rest) (start : isBlank first = false)
    (size : (encode slice).length = (Lexeme.recognize first rest).length)
    (content : (Lexeme.recognize first rest).content = .token kind text warning?) :
    Sealed (encode slice) kind text := by
  obtain ⟨body, after, rfl, length, whole⟩ := Sealed.of_recognize start content
  -- Both are the first bytes that the cursor reads next, and as many.
  have split := stands.rest.symm.trans found
  rw [Utf8.encode_append, ← List.cons_append] at split
  rwa [(List.append_inj split (size.trans length)).1]

end Between

/-- From one cursor the lexer goes on to another: over blanks, and over one lexeme after the other. -/
inductive Turns (start : Cursor) : Cursor → Prop
  /-- The lexer is where it was. -/
  | here : Turns start start
  /-- The lexer goes over blanks. -/
  | blanks {cursor} : Turns start cursor → Turns start cursor.skipBlanks
  /-- The lexer goes over a lexeme. -/
  | lexeme {cursor first rest} : Turns start cursor → cursor.rest = first :: rest →
      isBlank first = false → Turns start (cursor.advance (Lexeme.recognize first rest).length)

/-- Wherever the lexer goes, it stands between characters. -/
theorem Between.turns {start cursor : Cursor} {source read back : String}
    (stands : start.Between source read back) (turns : start.Turns cursor) :
    ∃ read back, cursor.Between source read back := by
  -- Blanks and lexemes are whole characters, and nothing else is gone over.
  induction turns with
  | here => exact ⟨read, back, stands⟩
  | blanks _ ih =>
    obtain ⟨read, back, stands⟩ := ih
    exact stands.skipBlanks
  | lexeme _ found _ ih =>
    obtain ⟨read, back, stands⟩ := ih
    obtain ⟨slice, more, given, size, -⟩ := stands.recognize found
    rw [← size]
    exact ⟨_, _, given.behind⟩

end Cursor

/-- A report about text at a cursor covers bytes of it, and names what stands there. -/
inductive Diagnostic.Tells (breadcrumb : Breadcrumb) (start : Cursor) (slice : String) :
    Diagnostic → Prop
  /-- A problem quotes what is there. -/
  | problem {problem marked} : problem.Quotes slice → marked ≤ (encode slice).length →
      Tells breadcrumb start slice
        (.located (.lexical problem) (start.spanTo (start.advance marked) breadcrumb))
  /-- A warning names the text of the number that is there. -/
  | warning {kind text warning} : Writes kind text slice → Warning.Clamps warning text →
      Tells breadcrumb start slice
        (.warning warning (start.spanTo (start.advance (encode slice).length) breadcrumb))

/-- A failure at a cursor is about text that is there. -/
inductive Failure.Tells (breadcrumb : Breadcrumb) (start : Cursor) (slice : String) : Failure → Prop
  /-- What is not closed reaches over the text. -/
  | unclosed {problem} : problem.Quotes slice → Tells breadcrumb start slice
      (.lexical problem (start.spanTo (start.advance (encode slice).length) breadcrumb) none)
  /-- A comment that is not closed was opened in the text, and the end is behind it. -/
  | comment {before stop note} : before < (encode slice).length →
      stop = start.advance (encode slice).length →
      note.span.start = (start.advance before).position →
      Tells breadcrumb start slice
        (.lexical .unterminatedComment (stop.spanTo stop breadcrumb) (some note))

/-- A token at a cursor is the end, or a slice of the text that its span denotes. -/
inductive Token.Stands (breadcrumb : Breadcrumb) (start : Cursor) (read slice : String) :
    Token → Prop
  /-- The end has no text. -/
  | ended {token} : token.isEnd = true → token.text = "" → slice = "" →
      token.span = start.spanTo start breadcrumb → Stands breadcrumb start read slice token
  /-- A token is written as its slice. -/
  | inside {token} : token.isEnd = false → Writes token.kind token.text slice →
      token.span = start.spanTo (start.advance (encode slice).length) breadcrumb →
      token.span.Denotes (encode read) (encode slice) → Stands breadcrumb start read slice token

/-- What the lexer answers tells of text of the source, and it goes on between characters. -/
structure Reading.Tells (breadcrumb : Breadcrumb) (source : String)
    (reading : Reading Cursor Token) : Prop where
  /-- Every report is about text of the source. -/
  reports : ∀ report ∈ reading.reports, ∃ start read slice back,
    start.Between source read (slice ++ back) ∧ report.Tells breadcrumb start slice
  /-- A token stands in the source, and the lexer goes on behind it. -/
  token : ∀ token, reading.result = .ok token → ∃ start read slice back,
    start.Between source read (slice ++ back) ∧ token.Stands breadcrumb start read slice ∧
      reading.next = start.advance (encode slice).length
  /-- A failure is about text of the source. -/
  failure : ∀ failure, reading.result = .error failure → ∃ start read slice back,
    start.Between source read (slice ++ back) ∧ failure.Tells breadcrumb start slice
  /-- The lexer goes on between characters. -/
  next : ∃ read back, reading.next.Between source read back

namespace Cursor.Between

variable {cursor : Cursor} {source read slice back : String} {first : UInt8} {rest : Bytes}

/-- A lexeme that is a token is a slice of the text, which the token's span denotes. -/
theorem stands_token (stands : cursor.Between source read (slice ++ back))
    (found : cursor.rest = first :: rest) (plain : isBlank first = false)
    (size : (encode slice).length = (Lexeme.recognize first rest).length) {kind : TokenKind}
    {text : String} {warning? : Option Warning}
    (content : (Lexeme.recognize first rest).content = .token kind text warning?)
    (writes : Writes kind text slice) (breadcrumb : Breadcrumb) :
    Token.Stands breadcrumb cursor read slice
      ⟨kind, text, cursor.spanTo (cursor.advance (encode slice).length) breadcrumb⟩ := by
  -- The slice starts with a byte that is no blank and ends with none, so it is exactly what the
  -- span covers.
  have whole := stands.whole_slice found plain size content
  have bytes := stands.rest
  rw [Utf8.encode_append] at bytes
  exact .inside (by simpa [Token.isEnd] using whole.inside) writes rfl
    (stands.placed.stands.denotes bytes whole.ne_nil whole.solid breadcrumb)

/-- Between characters the lexer answers what the text of the source is. -/
theorem nextToken (stands : cursor.Between source read back) (breadcrumb : Breadcrumb) :
    (cursor.nextToken breadcrumb).Tells breadcrumb source := by
  -- Blanks and comments are passed to what follows them, so the induction is on the lexemes.
  induction cursor using Cursor.induction_lexemes generalizing read back with
  | blanks cursor ih =>
    obtain ⟨read, back, stands⟩ := stands.skipBlanks
    exact Cursor.nextToken_skipBlanks cursor breadcrumb ▸ ih stands
  | ended cursor found =>
    rw [Cursor.nextToken_nil found]
    refine ⟨by simp [Reading.ok], ?_, by rintro failure ⟨⟩, ⟨read, back, stands⟩⟩
    rintro token ⟨⟩
    exact ⟨cursor, read, "", back, by rwa [String.empty_append], .ended rfl rfl rfl rfl, rfl⟩
  | lexeme cursor first rest found start ih =>
    -- The lexeme takes whole characters, so what is read behind it stands between characters.
    obtain ⟨slice, back, stands, size, told⟩ := stands.recognize found
    rw [← size] at ih
    have later := ih stands.behind
    -- What the lexer does at this byte is told by its lexeme.
    have here := Cursor.nextToken_cons found start breadcrumb
    simp only [← size] at here
    rw [here]
    cases content : (Lexeme.recognize first rest).content with
    -- A token is the slice, with its warnings about the same slice.
    | token kind text warning? =>
      rw [content] at told
      cases told with
      | token writes clamps =>
        refine ⟨?_, ?_, by rintro failure ⟨⟩, ⟨_, _, stands.behind⟩⟩
        · intro report member
          obtain ⟨warning, among, rfl⟩ := List.mem_map.mp member
          exact ⟨cursor, read, slice, back, stands,
            .warning writes (clamps warning (Option.mem_toList.mp among))⟩
        · rintro token ⟨⟩
          exact ⟨cursor, read, slice, back, stands,
            stands.stands_token found start size content writes breadcrumb, rfl⟩
    | comment => exact later
    | malformed problem marked =>
      obtain ⟨reports, token, failure, next⟩ := later
      -- One report comes in front of those of the rest.
      refine ⟨fun report member => ?_, token, failure, next⟩
      rcases List.mem_append.mp member with member | member
      · obtain rfl := List.mem_singleton.mp member
        rw [content] at told
        cases told with
        | malformed quotes covered =>
          exact ⟨cursor, read, slice, back, stands, .problem quotes covered⟩
      · exact reports report member
    -- What is never closed takes the rest of the text, and reading fails.
    | unclosed problem =>
      refine ⟨by simp [Reading.fail], by rintro token ⟨⟩, ?_, ⟨_, _, stands.behind⟩⟩
      rintro failure ⟨⟩
      rw [content] at told
      cases told with
      | unclosed quotes => exact ⟨cursor, read, slice, back, stands, .unclosed quotes⟩
    | unclosedComment before =>
      refine ⟨by simp [Reading.fail], by rintro token ⟨⟩, ?_, ⟨_, _, stands.behind⟩⟩
      rintro failure ⟨⟩
      rw [content] at told
      cases told with
      | unclosedComment inside =>
        exact ⟨cursor, read, slice, back, stands, .comment inside rfl rfl⟩

end Cursor.Between

/-- Quotes in a text hold the bytes of a text. -/
theorem Lexeme.isText_of_closed {raw : Bool} {text : String} {value : Bytes} {length : Nat}
    (closed : Lexeme.quoted raw (encode text) = .closed value length) : IsText value := by
  obtain ⟨-, held, -, -, -, rfl, -⟩ := Lexeme.exists_of_closed_chars closed
  exact ⟨String.ofList held, Utf8.encode_ofList held⟩

/-- Lexers that taking tokens from a source and putting tokens back leads to. -/
inductive Lexer.Reached (source : String) : Lexer → Prop
  /-- Nothing was taken. -/
  | start {breadcrumb} : Reached source (.ofSource (encode source) breadcrumb)
  /-- A token was taken, or the lexer failed. -/
  | pop {lexer} : Reached source lexer → Reached source lexer.pop.next
  /-- A token was looked at. -/
  | peek {lexer} : Reached source lexer → Reached source lexer.peek.next
  /-- A token was put back. -/
  | push {lexer} (token : Token) : Reached source lexer → Reached source (lexer.push token)

namespace Lexer

variable {lexer : Lexer} {source : String}

/-- Taking a token leaves the cursor between characters. -/
theorem between_pop (stands : ∃ read back, lexer.cursor.Between source read back) :
    ∃ read back, lexer.pop.next.cursor.Between source read back := by
  -- A token that was put back is popped without reading.
  obtain ⟨read, back, stands⟩ := stands
  unfold pop
  split
  · exact ⟨read, back, stands⟩
  · exact (stands.nextToken lexer.breadcrumb).next

/-- Looking at a token moves the cursor as taking it does. -/
theorem cursor_peek (lexer : Lexer) : lexer.peek.next.cursor = lexer.pop.next.cursor := by
  unfold peek Reading.andThen
  split <;> rfl

/-- Whatever was taken and put back, the cursor stands between characters. -/
theorem Reached.between (reached : lexer.Reached source) :
    ∃ read back, lexer.cursor.Between source read back := by
  -- Only reading a token moves the cursor.
  induction reached with
  | start =>
    obtain ⟨text, stands⟩ := Cursor.between_ofSource source
    exact ⟨"", text, stands⟩
  | pop _ ih => exact between_pop ih
  | @peek lexer _ ih =>
    rw [cursor_peek]
    exact between_pop ih
  | push _ _ ih => exact ih

/-- Wherever the lexer goes, it starts between characters and goes byte by byte through its text, with
the right line, line start and column. What it reads there are slices of the source, cut between
characters: tokens that are written as their slices, and reports that name what is there. Quotes hold
the bytes of a text. -/
theorem Reached.undamaged {cursor : Cursor} (reached : lexer.Reached source)
    (turns : lexer.cursor.Turns cursor) (breadcrumb : Breadcrumb) :
    (∃ read back, cursor.Between source read back ∧ ∀ count, ∃ ended line,
      encode read ++ (encode back).take count = ended ++ line ∧
        (cursor.advance count).Within (encode (read ++ back)) ended line) ∧
    (cursor.nextToken breadcrumb).Tells breadcrumb source ∧
    (∀ token, (cursor.nextToken breadcrumb).result = .ok token → token.isEnd = false →
      ∃ front slice back, source = front ++ (slice ++ back) ∧ Writes token.kind token.text slice ∧
        ∀ c : Char, 128 ≤ c.toNat → (c ∈ token.text.toList ∨ ∃ category property,
          token.kind = .reference category property ∧ c ∈ property.toList) → c ∈ slice.toList) ∧
    ∀ opening raw rest value length, cursor.rest = encode opening ++ rest →
      Lexeme.quoted raw rest = .closed value length → IsText value := by
  obtain ⟨read, back, start⟩ := reached.between
  obtain ⟨read, back, stands⟩ := start.turns turns
  -- Everything that follows is read off a cursor between characters.
  have tells := stands.nextToken breadcrumb
  refine ⟨⟨read, back, stands, fun count => ?_⟩, tells, fun token taken inside => ?_, ?_⟩
  -- Advancing by any count keeps to the lines of the source.
  · have placed := stands.placed.advance count
    rw [stands.rest] at placed
    exact placed.within
  · obtain ⟨start, read, slice, back, stands, there, -⟩ := tells.token token taken
    obtain ⟨mark, -, whole⟩ := stands.whole
    -- The end has no slice.
    cases there with
    | ended last =>
      rw [inside] at last
      cases last
    | inside _ writes =>
      refine ⟨mark ++ read, slice, back, by rw [whole, String.append_assoc], writes, ?_⟩
      rintro c high (member | ⟨category, property, kind, member⟩)
      · exact writes.mem_slice high member
      · rw [kind] at writes
        rw [writes.slice_of_reference]
        simp [member]
  · intro opening raw rest value length found closed
    obtain ⟨more, rfl, -⟩ := stands.exists_more found
    exact Lexeme.isText_of_closed closed

/-- A quoted letter with an accent is a token, and the letter is in the source. -/
theorem undamaged_accent : ∃ token,
    ((Cursor.ofSource (encode "\"é\"")).nextToken []).result = .ok token ∧ token.text = "é" ∧
      (∃ front slice back, "\"é\"" = front ++ (slice ++ back) ∧ Writes .string "é" slice ∧
        'é' ∈ slice.toList) ∧
      ∃ value, Lexeme.quoted false (encode "é\"") = .closed value 3 ∧ IsText value := by
  -- The accent has two bytes, neither of which is a quote or a line end.
  have bytes : Cursor.ofSource (encode "\"é\"") =
      ⟨[34, 0xC3, 0xA9, 34], 1, 1, [34, 0xC3, 0xA9, 34]⟩ := by decide +kernel
  have read := @Cursor.nextToken_of_token ⟨[34, 0xC3, 0xA9, 34], 1, 1, [34, 0xC3, 0xA9, 34]⟩ _ _ rfl
    (by decide) .string "é" none (by decide +kernel) []
  rw [← bytes] at read
  have closed : Lexeme.quoted false (encode "é\"") = .closed [0xC3, 0xA9] 3 := by decide +kernel
  obtain ⟨-, -, token, value⟩ := (@Reached.start "\"é\"" []).undamaged .here []
  obtain ⟨front, slice, back, whole, writes, chars⟩ := token _ (congrArg Reading.result read) rfl
  refine ⟨_, by rw [read], rfl, ⟨front, slice, back, whole, writes, ?_⟩, _, closed,
    value "\"" false _ _ _ ?_ closed⟩
  · exact chars 'é' (by decide) (.inl (by decide))
  · exact congrArg Cursor.rest bytes

end Lexer

end ArgSchema
