import ArgSchema.Proofs.Lexer.Contained
import ArgSchema.Proofs.Lexer.Shifted

/-! Whole lines: their tokens and errors are the same whatever follows, and touch nothing that does. -/

namespace ArgSchema

namespace Cursor

/-- The cursor in a text that goes on with more bytes. -/
def followed (more : Bytes) (cursor : Cursor) : Cursor :=
  { cursor with rest := cursor.rest ++ more, lineText := cursor.lineText ++ more }

/-- The cursor at the start of more bytes behind a text that ends with a line end. -/
def beyond (more : Bytes) (cursor : Cursor) : Cursor :=
  ⟨more, cursor.line + cursor.rest.countP (· = byte '\n'), 1, more⟩

/-- A cursor in a text that ends with a line end. -/
structure Lined (cursor : Cursor) : Prop where
  /-- No line ends between the start of the line and the next byte. -/
  front : ∃ front, cursor.lineText = front ++ cursor.rest ∧ ∀ b ∈ front, b ≠ byte '\n'
  /-- The line end is still to come, or it was the last byte. -/
  ends : EndsLine cursor.rest ∨ cursor.rest = [] ∧ cursor.column = 1 ∧ cursor.lineText = []

/-- One step leaves the start of what follows where it is. -/
theorem beyond_step (more : Bytes) (cursor : Cursor) :
    cursor.step.beyond more = cursor.beyond more := by
  unfold step beyond
  -- A step over a line end takes it from those that are still to come.
  split
  · rfl
  · next b rest found =>
    split
    · next line => simp [found, line, Nat.add_assoc, Nat.add_comm]
    · next other => simp [found, other]

/-- Going on leaves the start of what follows where it is. -/
theorem beyond_advance (more : Bytes) (cursor : Cursor) (count : Nat) :
    (cursor.advance count).beyond more = cursor.beyond more := by
  -- By induction on the count, with one byte as the step.
  induction count generalizing cursor with
  | zero => rfl
  | succ count ih => rw [advance, ih, beyond_step]

/-- Reading a token leaves the start of what follows where it is. -/
theorem beyond_nextToken (more : Bytes) (breadcrumb : Breadcrumb) (cursor : Cursor) :
    (cursor.nextToken breadcrumb).next.beyond more = cursor.beyond more := by
  -- A token is read by going on, over blanks and over lexemes.
  fun_induction nextToken breadcrumb cursor with
  | case1 cursor start => exact beyond_advance more cursor _
  | case2 | case5 | case6 => exact (beyond_advance ..).trans (beyond_advance ..)
  | case3 cursor start first rest found lexeme stop content ih =>
    exact ih.trans ((beyond_advance ..).trans (beyond_advance ..))
  | case4 cursor start first rest found lexeme stop problem marked content place ih =>
    exact ih.trans ((beyond_advance ..).trans (beyond_advance ..))

variable {cursor : Cursor}

/-- With bytes left a step does not look at what follows them. -/
theorem step_followed (more : Bytes) (some : cursor.rest ≠ []) :
    (cursor.followed more).step = cursor.step.followed more := by
  -- The next byte is the same with more bytes behind, and a step looks at no other.
  obtain ⟨b, rest, found⟩ := List.exists_cons_of_ne_nil some
  have found' : (cursor.followed more).rest = b :: (rest ++ more) := by simp [followed, found]
  unfold step
  simp only [found, found']
  split <;> rfl

/-- Going on over bytes that are left does not look at what follows them. -/
theorem advance_followed (more : Bytes) {count : Nat} (enough : count ≤ cursor.rest.length) :
    (cursor.followed more).advance count = (cursor.advance count).followed more := by
  -- No step goes beyond the bytes that are left, so none looks at what follows.
  induction count generalizing cursor with
  | zero => rfl
  | succ count ih =>
    have some : cursor.rest ≠ [] := by
      rintro empty
      simp [empty] at enough
    rw [advance, step_followed more some, ih, advance]
    rw [rest_step, List.length_drop]
    omega

namespace Lined

/-- The start of a text that ends with a line end. -/
theorem start {text : Bytes} (ends : EndsLine text) (line : Nat) : Lined ⟨text, line, 1, text⟩ :=
  ⟨⟨[], rfl, nofun⟩, .inl ends⟩

/-- One step stays in the text. -/
theorem step (lined : cursor.Lined) : cursor.step.Lined := by
  -- The byte that is passed goes to the front of its line, unless it ends the line.
  unfold Cursor.step
  split
  · exact lined
  · next b rest found =>
    obtain ends | ⟨empty, -⟩ := lined.ends
    · rw [found] at ends
      split
      · -- Behind a line end a new line starts, or the text is used up.
        refine ⟨⟨[], rfl, by simp⟩, ?_⟩
        cases rest with
        | nil => exact .inr ⟨rfl, rfl, rfl⟩
        | cons c rest => exact .inl (by rwa [EndsLine, List.getLast?_cons_cons] at ends)
      · next other =>
        obtain ⟨front, text, inside⟩ := lined.front
        refine ⟨⟨front ++ [b], by simp [text, found], ?_⟩, .inl (ends.tail other)⟩
        simpa [or_imp, forall_and] using ⟨inside, other⟩
    · rw [found] at empty
      cases empty

/-- Going on stays in the text. -/
theorem advance (lined : cursor.Lined) (count : Nat) : (cursor.advance count).Lined := by
  -- By induction on the count, with one byte as the step.
  induction count generalizing cursor with
  | zero => exact lined
  | succ count ih => exact ih lined.step

/-- With bytes left the line end is still to come. -/
theorem endsLine (lined : cursor.Lined) (some : cursor.rest ≠ []) : EndsLine cursor.rest :=
  lined.ends.resolve_right fun ended => some ended.1

/-- The line of the cursor has its end. -/
theorem endsLine_lineText (lined : cursor.Lined) (some : cursor.rest ≠ []) :
    EndsLine cursor.lineText := by
  -- What ends the rest ends the line's text, of which the rest is the back.
  obtain ⟨front, text, -⟩ := lined.front
  have ends := lined.endsLine some
  rw [text, EndsLine, List.getLast?_append, ends]
  rfl

/-- At the end of the text what follows starts. -/
theorem followed_eq_beyond (lined : cursor.Lined) (empty : cursor.rest = []) (more : Bytes) :
    cursor.followed more = cursor.beyond more := by
  -- The line end was the last byte, so the cursor is at the start of a line.
  obtain ends | ⟨-, column, text⟩ := lined.ends
  · exact absurd empty ends.ne_nil
  · simp [followed, beyond, empty, column, text]

/-- The lines that were passed do not depend on what follows them. -/
theorem linesBelow_append (lined : cursor.Lined) (more : Bytes) {count lines : Nat}
    (enough : count < cursor.rest.length) (passed : lines ≤ (cursor.advance count).line - cursor.line) :
    linesBelow lines (cursor.lineText ++ more) = linesBelow lines cursor.lineText := by
  -- By induction on the bytes passed: lines are counted where a line end is passed.
  induction count generalizing cursor lines with
  | zero =>
    obtain rfl : lines = 0 := by simpa [Cursor.advance] using passed
    rfl
  | succ count ih =>
    obtain ⟨b, rest, found⟩ :=
      List.exists_cons_of_ne_nil (List.ne_nil_of_length_pos (Nat.zero_lt_of_lt enough))
    have fewer : count < cursor.step.rest.length := by
      rw [rest_step, List.length_drop]
      omega
    have lasts := lined.step.endsLine (List.ne_nil_of_length_pos (Nat.zero_lt_of_lt fewer))
    -- What is left has a line end of its own, so the hypothesis applies behind the byte.
    have later := fun lines => @ih cursor.step lined.step lines fewer
    rw [Cursor.advance] at passed
    by_cases line : b = byte '\n'
    · -- A line end starts the next of the lines.
      have stepped : cursor.step = ⟨rest, cursor.line + 1, 1, rest⟩ := by simp [Cursor.step, found, line]
      rw [stepped] at later lasts passed
      cases lines with
      | zero => rfl
      | succ lines =>
        obtain ⟨front, text, inside⟩ := lined.front
        -- The next line starts behind the line end, with or without more behind it.
        have next : ∀ rest, nextLine? (front ++ byte '\n' :: rest) = some rest := by
          intro rest
          unfold nextLine?
          rw [List.dropWhile_append_of_pos (by simpa using inside),
            List.dropWhile_cons_of_neg (by simp)]
        rw [found, line] at text
        rw [text, List.append_assoc, List.cons_append, linesBelow, linesBelow, next, next]
        simp only [lasts.firstLine_append more, later lines (by simp only; omega)]
    -- Any other byte stays on the line.
    · have stepped : cursor.step = { cursor with rest := rest, column := cursor.column + 1 } := by
        simp [Cursor.step, found, line]
      rw [stepped] at later passed
      exact later lines passed

/-- A span over bytes in front of the last does not depend on what follows. -/
theorem spanTo_followed (lined : cursor.Lined) (more : Bytes) {count : Nat}
    (enough : count < cursor.rest.length) (breadcrumb : Breadcrumb) :
    (cursor.followed more).spanTo ((cursor.advance count).followed more) breadcrumb =
      cursor.spanTo (cursor.advance count) breadcrumb := by
  -- The lines that the excerpt shows all end in the text itself.
  have ends := lined.endsLine_lineText (List.ne_nil_of_length_pos (Nat.zero_lt_of_lt enough))
  have excerpt : ∀ line, line ≤ max (cursor.advance count).line cursor.line →
      (cursor.followed more).excerptTo line = cursor.excerptTo line := by
    intro line reached
    have below : linesBelow (line - cursor.line) (cursor.lineText ++ more) = _ :=
      lined.linesBelow_append more enough (by omega)
    simp only [excerptTo, followed, ends.firstLine_append more, below]
  have last : (Position.latest ⟨(cursor.advance count).line, max ((cursor.advance count).column - 1) 1⟩
      cursor.position).line ≤ max (cursor.advance count).line cursor.line := by
    unfold Position.latest
    split
    · exact Nat.le_max_right ..
    · exact Nat.le_max_left ..
  exact congrArg (Span.mk breadcrumb _ _) (excerpt _ last)

/-- Behind the first byte of a lexeme the line end is still to come. -/
theorem endsLine_of_lexeme (lined : cursor.Lined) {first : UInt8} {rest : Bytes}
    (found : cursor.rest = first :: rest) (start : isBlank first = false) : EndsLine rest := by
  have whole := lined.endsLine (by rw [found]; exact List.cons_ne_nil _ _)
  rw [found] at whole
  refine whole.tail ?_
  -- A line end is a blank.
  rintro rfl
  cases start

/-- A lexeme that is closed in front of the line end is the same with more bytes behind it. -/
theorem recognize_followed (lined : cursor.Lined) {first : UInt8} {rest : Bytes}
    (found : cursor.rest = first :: rest) (start : isBlank first = false)
    (closed : (Lexeme.recognize first rest).IsClosed) (more : Bytes) :
    Lexeme.recognize first (rest ++ more) = Lexeme.recognize first rest ∧
      (cursor.followed more).advance (Lexeme.recognize first rest).length =
        (cursor.advance (Lexeme.recognize first rest).length).followed more := by
  have contained := Lexeme.contained_recognize (lined.endsLine_of_lexeme found start) closed
  -- The lexeme does not reach beyond the bytes that are there.
  have inside : (Lexeme.recognize first rest).length ≤ cursor.rest.length := by
    rw [found, List.length_cons, Nat.add_comm]
    exact contained.inside
  exact ⟨contained.same more, advance_followed more inside⟩

end Lined

/-- Blanks in front of a cursor are skipped whatever follows the text. -/
theorem nextToken_followed_skipBlanks (cursor : Cursor) (more : Bytes) (breadcrumb : Breadcrumb) :
    (cursor.skipBlanks.followed more).nextToken breadcrumb =
      (cursor.followed more).nextToken breadcrumb := by
  -- Blanks are a gap in either text.
  have within := (cursor.rest.takeWhile_sublist isBlank).length_le
  have blanks : Gap (cursor.rest.takeWhile isBlank) :=
    .of_blanks fun b member => List.all_eq_true.mp List.all_takeWhile b member
  have text : (cursor.followed more).rest =
      cursor.rest.takeWhile isBlank ++ (cursor.rest.dropWhile isBlank ++ more) := by
    rw [← List.append_assoc, List.takeWhile_append_dropWhile]
    rfl
  rw [nextToken_gap blanks text, advance_followed more within]
  rfl

/-- What the next token of a text is if more bytes follow the text: the same token, or at the end of
the text the first token of these bytes. -/
theorem nextToken_followed (lined : cursor.Lined) (more : Bytes) {breadcrumb : Breadcrumb}
    {token : Token} (taken : (cursor.nextToken breadcrumb).result = .ok token) :
    (token.isEnd = false ∧ (cursor.nextToken breadcrumb).next.Lined ∧
      (cursor.followed more).nextToken breadcrumb =
        (cursor.nextToken breadcrumb).mapNext (·.followed more)) ∨
    (token.isEnd = true ∧ (cursor.followed more).nextToken breadcrumb =
        ((cursor.beyond more).nextToken breadcrumb).after (cursor.nextToken breadcrumb).reports) := by
  -- Blanks and comments are passed to what follows them, so the induction is on the lexemes.
  induction cursor using induction_lexemes with
  | blanks cursor ih =>
    have later := ih (lined.advance _) (by rwa [nextToken_skipBlanks])
    have beyond : cursor.skipBlanks.beyond more = cursor.beyond more := beyond_advance more cursor _
    rwa [nextToken_followed_skipBlanks, nextToken_skipBlanks, beyond] at later
  | ended cursor found =>
    rw [nextToken_nil found] at taken ⊢
    cases taken
    -- The text is used up behind its line end, so what follows starts at the first column.
    exact .inr ⟨rfl, by rw [lined.followed_eq_beyond found]; rfl⟩
  | lexeme cursor first rest found start ih =>
    have ends := lined.endsLine_of_lexeme found start
    have found' : (cursor.followed more).rest = first :: (rest ++ more) := by
      rw [followed, found, List.cons_append]
    have size : cursor.rest.length = 1 + rest.length := by
      rw [found, List.length_cons, Nat.add_comm]
    -- Both cursors read the lexeme, and it is the same as long as it is closed.
    have here := nextToken_cons found start breadcrumb
    have there := nextToken_cons found' start breadcrumb
    have same := fun closed => lined.recognize_followed found start closed more
    have later := ih (lined.advance _)
    simp only [beyond_advance] at later
    cases content : (Lexeme.recognize first rest).content with
    | token kind text warning? =>
      obtain ⟨again, stop⟩ := same (by simp [Lexeme.IsClosed, content])
      have short := Lexeme.length_lt_of_token ends content
      simp only [content] at here
      simp only [again, content, stop, lined.spanTo_followed more (size ▸ short)] at there
      rw [here] at taken
      cases taken
      rw [here, there]
      -- A token stops in front of the line end, so its span is over bytes of the text as well.
      exact .inl ⟨by simpa [Token.isEnd] using Lexeme.ne_endOfFile_of_token content,
        lined.advance _, rfl⟩
    -- A comment is closed in the lines, so it ends where it did, and reading goes on behind it.
    | comment =>
      obtain ⟨again, stop⟩ := same (by simp [Lexeme.IsClosed, content])
      simp only [content] at here
      simp only [again, content, stop] at there
      rw [here] at taken ⊢
      rw [there]
      exact later taken
    -- What is malformed is reported over the same bytes, and reading goes on behind them.
    | malformed problem marked =>
      have closed : (Lexeme.recognize first rest).IsClosed := by simp [Lexeme.IsClosed, content]
      obtain ⟨again, stop⟩ := same closed
      have short := (Lexeme.contained_recognize ends closed).short problem marked content
      simp only [content] at here
      simp only [again, content, stop, advance_followed more (size ▸ Nat.le_of_lt short),
        lined.spanTo_followed more (size ▸ short)] at there
      rw [here] at taken ⊢
      rw [there]
      obtain ⟨inside, next, read⟩ | ⟨ended, read⟩ := later taken
      · exact .inl ⟨inside, next, by rw [read]; rfl⟩
      · exact .inr ⟨ended, by rw [read]; simp [Reading.after]⟩
    -- What runs into the end of the text is a failure, and the text was read without one.
    | unclosed problem =>
      simp only [content] at here
      rw [here] at taken
      cases taken
    | unclosedComment before =>
      simp only [content] at here
      rw [here] at taken
      cases taken

/-- A text that is read like another one behind some reports has its tokens. -/
theorem tokens_of_after {other : Cursor} {reports : List Diagnostic} {breadcrumb : Breadcrumb}
    (same : cursor.nextToken breadcrumb = (other.nextToken breadcrumb).after reports) :
    cursor.tokens breadcrumb =
      (reports ++ (other.tokens breadcrumb).1, (other.tokens breadcrumb).2) := by
  have result : (cursor.nextToken breadcrumb).result = (other.nextToken breadcrumb).result := by
    rw [same]
    rfl
  -- Both texts have the same result at their first token.
  cases given : (other.nextToken breadcrumb).result with
  | error failure =>
    rw [tokens_of_failure (result.trans given), tokens_of_failure given, same]
    rfl
  | ok token =>
    cases inside : token.isEnd with
    | true =>
      rw [tokens_of_end (result.trans given) inside, tokens_of_end given inside, same]
      rfl
    | false =>
      rw [tokens_of_token (result.trans given) inside, tokens_of_token given inside, same]
      simp [Reading.after]

/-- The tokens of a text that more bytes follow are its own and then those of the bytes. -/
theorem tokens_followed (lined : cursor.Lined) (more : Bytes) {breadcrumb : Breadcrumb}
    {reports : List Diagnostic} {tokens : List Token}
    (read : cursor.tokens breadcrumb = (reports, .ok tokens)) :
    (cursor.followed more).tokens breadcrumb =
      (reports ++ ((cursor.beyond more).tokens breadcrumb).1,
        ((cursor.beyond more).tokens breadcrumb).2.map (tokens ++ ·)) := by
  obtain ⟨token, taken, ends⟩ := cases_of_tokens read
  induction tokens generalizing cursor reports token with
  | nil =>
    -- No token is left, so the first token of the bytes is read behind what was reported.
    obtain ⟨ended, -, rfl⟩ | ⟨_, _, -, ⟨⟩, -⟩ := ends
    obtain ⟨inside, -⟩ | ⟨-, same⟩ := nextToken_followed lined more taken
    · rw [ended] at inside
      cases inside
    · rw [tokens_of_after same]
      cases ((cursor.beyond more).tokens breadcrumb).2 <;> rfl
  -- The first token is read alike, and the rest by induction.
  | cons first rest ih =>
    obtain ⟨_, ⟨⟩, -⟩ | ⟨reports', _, inside, ⟨⟩, below, rfl⟩ := ends
    obtain ⟨-, next, same⟩ | ⟨ended, -⟩ := nextToken_followed lined more taken
    · obtain ⟨token', taken', ends'⟩ := cases_of_tokens below
      have later := ih next below token' taken' ends'
      have result : ((cursor.followed more).nextToken breadcrumb).result = .ok first := by
        rw [same]
        exact taken
      rw [tokens_of_token result inside, same]
      simp only [Reading.mapNext, later, beyond_nextToken, List.append_assoc]
      cases ((cursor.beyond more).tokens breadcrumb).2 <;> rfl
    · rw [inside] at ended
      cases ended

/-- Whole lines start with a byte order mark if a text that starts with them does. -/
theorem byteOrderMark_append {lines : Bytes} (ends : EndsLine lines) (more : Bytes) :
    byteOrderMark <+: lines ++ more ↔ byteOrderMark <+: lines := by
  -- A prefix of the longer text is one of the lines, if they are long enough.
  refine ⟨fun test => ?_, fun test => test.trans (List.prefix_append ..)⟩
  rcases Nat.le_total byteOrderMark.length lines.length with long | short
  · exact List.prefix_of_prefix_length_le test (List.prefix_append ..) long
  · -- A byte order mark has no line end.
    have inside := List.prefix_of_prefix_length_le (List.prefix_append lines more) test short
    exact absurd (inside.subset (List.mem_of_getLast? ends)) (by decide)

/-- A source that starts with whole lines is these lines with more bytes behind them. -/
theorem ofSource_append {lines : Bytes} (ends : EndsLine lines) (more : Bytes) :
    ofSource (lines ++ more) = (ofSource lines).followed more ∧ (ofSource lines).Lined ∧
      (ofSource lines).beyond more = ⟨more, 1 + lines.countP (· = byte '\n'), 1, more⟩ := by
  have same := byteOrderMark_append ends more
  unfold ofSource
  simp only [List.isPrefixOf_iff_prefix, same]
  -- A mark belongs to the lines, since it is no part of what follows.
  split
  · next marked =>
    obtain ⟨text, rfl⟩ := marked
    have left : EndsLine text := ends.of_append (by unfold Solid; decide)
    have dropped : (byteOrderMark ++ text).drop 3 = text := rfl
    have dropped' : (byteOrderMark ++ text ++ more).drop 3 = text ++ more := rfl
    rw [dropped, dropped']
    refine ⟨rfl, .start left 1, ?_⟩
    rw [List.countP_append, show byteOrderMark.countP (· = byte '\n') = 0 by decide, Nat.zero_add]
    rfl
  · exact ⟨rfl, .start ends 1, rfl⟩

/-- A text that does not start with a byte order mark is read from its first byte. -/
theorem ofSource_encode {text : String} (unmarked : text.toList.head? ≠ some '\uFEFF') :
    ofSource (Utf8.encode text) = ⟨Utf8.encode text, 1, 1, Utf8.encode text⟩ := by
  unfold ofSource
  rw [if_neg]
  intro marked
  obtain ⟨rest, same⟩ := List.isPrefixOf_iff_prefix.mp marked
  -- The three bytes of the mark are the bytes of one character.
  have chars := Utf8.decodeParts_encode text.toList
  rw [show text.toList.flatMap String.utf8EncodeChar = byteOrderMark ++ rest from same.symm,
    byteOrderMark, List.cons_append, Utf8.decodeParts] at chars
  have first := congrArg List.head? chars
  have mark : (Utf8.readChar 0xEF ([0xBB, 0xBF] ++ rest)).1 = some '\uFEFF' := rfl
  rw [List.head?_map, List.head?_cons, mark] at first
  obtain ⟨c, head, same⟩ := Option.map_eq_some_iff.mp first.symm
  exact unmarked (head.trans same)

end Cursor

/-- How many line ends a text has. -/
def lineEnds (text : String) : Nat := text.toList.count '\n'

/-- The line ends of a text are those of its bytes. -/
theorem lineEnds_eq (text : String) : lineEnds text = (Utf8.encode text).countP (· = byte '\n') := by
  -- Character by character: only a line end has the byte of one.
  unfold lineEnds Utf8.encode
  induction text.toList with
  | nil => rfl
  | cons c rest ih =>
    rw [List.flatMap_cons, List.countP_append, ← ih, List.count_cons, Nat.add_comm]
    congr 1
    by_cases line : c = '\n'
    · subst line
      decide
    · -- No byte of another character looks like a line end.
      have none : (String.utf8EncodeChar c).countP (· = byte '\n') = 0 := by
        refine List.countP_eq_zero.mpr fun b member found => line ?_
        rw [of_decide_eq_true found] at member
        exact Utf8.eq_of_mem_encodeChar (by decide) member
      rw [none, if_neg (by simpa using line)]

/-- Whole lines are read like a text of their own, and what follows them like another one that starts
as many lines further down. -/
theorem tokenize_lines {lines more : String} {reports : List Diagnostic} {tokens : List Token}
    (read : tokenize (lines ++ "\n") = (reports, .ok tokens))
    (unmarked : more.toList.head? ≠ some '\uFEFF') :
    let down := lineEnds (lines ++ "\n")
    tokenize (lines ++ "\n" ++ more) =
      (reports ++ (tokenize more).1.map (·.down down),
        ((tokenize more).2.map fun rest => tokens ++ rest.map (·.down down)).mapError
          (·.down down)) := by
  intro down
  have ends : EndsLine (Utf8.encode (lines ++ "\n")) := by
    rw [Utf8.encode_append, EndsLine, List.getLast?_append]
    rfl
  obtain ⟨source, lined, beyond⟩ := Cursor.ofSource_append ends (Utf8.encode more)
  have start : (⟨Utf8.encode more, 1 + down, 1, Utf8.encode more⟩ : Cursor) =
      (Cursor.ofSource (Utf8.encode more)).down down := by
    rw [Cursor.ofSource_encode unmarked]
    rfl
  rw [← lineEnds_eq, start] at beyond
  unfold tokenize at *
  -- The lines are read up to their end, and the rest is another text that stands further down.
  rw [Utf8.encode_append, source, Cursor.tokens_followed lined _ read, beyond, Cursor.tokens_down]
  cases (Cursor.tokens ["<input>"] (Cursor.ofSource (Utf8.encode more))).2 <;> rfl

/-- A quote that is open at the end of its line does not touch the name on the next line. -/
theorem tokenize_lines_quote : ∃ report, report.problem = .lexical .unterminatedString ∧
    tokenize ("\"" ++ "\n") = ([report], .ok []) ∧
    tokenize ("\"" ++ "\n" ++ "b") =
      ([report], .ok [⟨.identifier, "b", ⟨["<input>"], ⟨2, 1⟩, ⟨2, 1⟩, ⟨1, ["b"]⟩⟩⟩]) := by
  -- The quote is skipped with the line end behind it.
  obtain ⟨report, problem, quote⟩ : ∃ report, report.problem = .lexical .unterminatedString ∧
      tokenize ("\"" ++ "\n") = ([report], .ok []) := by
    have bytes : Cursor.ofSource (Utf8.encode ("\"" ++ "\n")) = ⟨[34, 10], 1, 1, [34, 10]⟩ := by decide +kernel
    have read := @Cursor.nextToken_cons ⟨[34, 10], 1, 1, [34, 10]⟩ _ _ rfl (by decide) ["<input>"]
    have content : (Lexeme.recognize 34 [10]).content = .malformed .unterminatedString 1 := by decide +kernel
    have stop : (Cursor.mk [34, 10] 1 1 [34, 10]).advance (Lexeme.recognize 34 [10]).length =
        ⟨[], 2, 1, []⟩ := by decide +kernel
    simp only [content, stop, Cursor.nextToken_nil] at read
    -- Behind it there is the end.
    have ended := @Cursor.tokens_of_end ⟨[34, 10], 1, 1, [34, 10]⟩ _ _ (by rw [read]; rfl) rfl
    rw [read] at ended
    exact ⟨_, rfl, by rw [tokenize, bytes, ended]; rfl⟩
  -- The name is read in a text of its own, at the start of the first line.
  have name : tokenize "b" =
      ([], .ok [⟨.identifier, "b", ⟨["<input>"], ⟨1, 1⟩, ⟨1, 1⟩, ⟨1, ["b"]⟩⟩⟩]) := by
    have bytes : Cursor.ofSource (Utf8.encode "b") = ⟨[98], 1, 1, [98]⟩ := by decide +kernel
    have read := @Cursor.nextToken_cons ⟨[98], 1, 1, [98]⟩ _ _ rfl (by decide) ["<input>"]
    have content : (Lexeme.recognize 98 []).content = .token .identifier "b" none := by decide +kernel
    have stop : (Cursor.mk [98] 1 1 [98]).advance (Lexeme.recognize 98 []).length =
        ⟨[], 1, 2, [98]⟩ := by decide +kernel
    have span : (Cursor.mk [98] 1 1 [98]).spanTo ⟨[], 1, 2, [98]⟩ ["<input>"] =
        ⟨["<input>"], ⟨1, 1⟩, ⟨1, 1⟩, ⟨1, ["b"]⟩⟩ := by decide +kernel
    simp only [content, stop, span] at read
    have ended := @Cursor.tokens_of_end ⟨[], 1, 2, [98]⟩ ["<input>"] _
      (by rw [Cursor.nextToken_nil rfl]; rfl) rfl
    rw [Cursor.nextToken_nil rfl] at ended
    rw [tokenize, bytes, Cursor.tokens_of_token (by rw [read]) rfl, read]
    simp only [ended]
    rfl
  refine ⟨report, problem, quote, ?_⟩
  rw [tokenize_lines quote (by decide), name]
  rfl

end ArgSchema
