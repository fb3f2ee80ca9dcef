import ArgSchema.Proofs.Lexer.Reads

/-! Scans: turn by turn, the search for the next token of a source answers or skips some of its bytes. -/

namespace ArgSchema

/-- What one turn of the search for a token comes to. -/
inductive Scan where
  /-- The search is over. -/
  | answers (reading : Reading Cursor Token)
  /-- Something was skipped, with reports, and the search goes on behind it. -/
  | goesOn (reports : List Diagnostic) (next : Cursor)

namespace Cursor

/-- One turn of the search for a token: blanks are skipped, and the lexeme behind them is read. -/
def scan (breadcrumb : Breadcrumb) (cursor : Cursor) : Scan :=
  let start := cursor.skipBlanks
  match start.rest with
  | [] => .answers (.ok ⟨.endOfFile, "", start.spanTo start breadcrumb⟩ start)
  | first :: rest =>
    let lexeme := Lexeme.recognize first rest
    let stop := start.advance lexeme.length
    let span := start.spanTo stop breadcrumb
    match lexeme.content with
    | .token kind text warning? =>
      .answers ⟨warning?.toList.map (Diagnostic.warning · span), .ok ⟨kind, text, span⟩, stop⟩
    | .comment => .goesOn [] stop
    -- What is malformed is reported, and the scan goes on behind it.
    | .malformed problem marked =>
      .goesOn [.located (.lexical problem) (start.spanTo (start.advance marked) breadcrumb)] stop
    | .unclosed problem => .answers (.fail (.lexical problem span none) stop)
    | .unclosedComment before =>
      -- The comment is reported at the end, with a note where it was opened.
      let opener := start.advance before
      let opening := { opener.spanTo stop breadcrumb with stop := ⟨opener.line, opener.column + 1⟩ }
      .answers (.fail (.lexical .unterminatedComment (stop.spanTo stop breadcrumb)
        (some ⟨"comment opened here", opening⟩)) stop)

/-- The search for a token behind a cursor is one turn, and what is left of it is shorter. -/
structure Scans (breadcrumb : Breadcrumb) (cursor : Cursor) : Prop where
  /-- The search goes on until a turn answers. -/
  goesOn : cursor.nextToken breadcrumb = match cursor.scan breadcrumb with
    | .answers reading => reading
    | .goesOn reports next => (next.nextToken breadcrumb).after reports
  /-- The turn takes at least one byte, unless it answers that there are no more. -/
  takes : match cursor.scan breadcrumb with
    | .answers reading => reading.next.rest.length < cursor.rest.length ∨
        reading.next.rest = [] ∧ ∃ token, reading.result = .ok token ∧ token.isEnd = true
    | .goesOn _ next => next.rest.length < cursor.rest.length

/-- Every search for a token is made of turns that take at least one byte. -/
theorem scans (breadcrumb : Breadcrumb) (cursor : Cursor) : cursor.Scans breadcrumb := by
  have skipped := nextToken_skipBlanks cursor breadcrumb
  -- Behind the blanks the text is over, or a lexeme follows.
  cases found : cursor.skipBlanks.rest with
  | nil =>
    refine ⟨?_, ?_⟩ <;> simp only [scan, found]
    · rw [← skipped]
      exact nextToken_nil found breadcrumb
    · exact .inr ⟨found, _, rfl, rfl⟩
  | cons first rest =>
    have start : isBlank first = false := by
      have plain := cursor.head?_skipBlanks
      simpa [found] using plain
    -- Every lexeme has at least one byte.
    have taken : (cursor.skipBlanks.advance (Lexeme.recognize first rest).length).rest.length <
        cursor.rest.length :=
      Nat.lt_of_lt_of_le (rest_advance_lexeme found _) cursor.rest_skipBlanks_length
    refine ⟨?_, ?_⟩ <;> simp only [scan, found]
    · rw [← skipped, nextToken_cons found start]
      cases (Lexeme.recognize first rest).content <;> rfl
    · cases (Lexeme.recognize first rest).content with
      | comment | malformed => exact taken
      | token | unclosed | unclosedComment => exact .inl taken

end Cursor

end ArgSchema
