import ArgSchema.Lexer.Basic

/-! Reading: which tokens the lexer finds in a text, wherever the text stands. -/

namespace ArgSchema

/-- What a token says, without its place. -/
def Token.content (token : Token) : TokenKind × String := (token.kind, token.text)

/-- Bytes in front of others are read as tokens, with blanks between them and nothing reported. -/
inductive Reads : Bytes → List (TokenKind × String) → Bytes → Prop
  /-- Nothing is read. -/
  | none {bytes} : Reads bytes [] bytes
  /-- A blank is skipped. -/
  | blank {b bytes tokens rest} : isBlank b = true → Reads bytes tokens rest →
      Reads (b :: bytes) tokens rest
  /-- A token is read. -/
  | token {first bytes kind text tail tokens rest} : isBlank first = false →
      Lexeme.recognize first bytes = Lexeme.plain kind text tail →
      Reads (bytes.drop tail) tokens rest → Reads (first :: bytes) ((kind, text) :: tokens) rest

namespace Reads

variable {bytes middle rest : Bytes} {tokens more : List (TokenKind × String)}

/-- What is read piece by piece is read as a whole. -/
theorem append (first : Reads bytes tokens middle) (second : Reads middle more rest) :
    Reads bytes (tokens ++ more) rest := by
  induction first with
  | none => exact second
  -- Blanks and tokens of the first part are those of the whole.
  | blank space _ ih => exact .blank space (ih second)
  | token start found _ ih => exact .token start found (ih second)

/-- The tokens of a text that nothing is reported for. There is a result if the text has at most as
many blanks and tokens as the first argument says. -/
def scan : Nat → Bytes → Option (List (TokenKind × String))
  | _, [] => some []
  -- Each step takes a byte, so more fuel than bytes is never used up.
  | 0, _ :: _ => .none
  | fuel + 1, first :: bytes =>
    if isBlank first then scan fuel bytes
    else match Lexeme.recognize first bytes with
      | ⟨.token kind text .none, tail⟩ => (scan fuel (bytes.drop tail)).map ((kind, text) :: ·)
      | _ => .none

/-- The tokens that a scan finds are read. -/
theorem of_scan (fuel : Nat) (found : scan fuel bytes = some tokens) : Reads bytes tokens [] := by
  -- The cases are those of the scan: the end, a blank, a plain lexeme, or a refusal.
  fun_induction scan fuel bytes generalizing tokens with
  | case1 =>
    cases found
    exact .none
  | case2 => cases found
  | case3 fuel first bytes space ih => exact .blank space (ih found)
  | case4 fuel first bytes start kind text tail plain ih =>
    obtain ⟨rest, behind, rfl⟩ := Option.map_eq_some_iff.mp found
    exact .token (by simpa using start) plain (ih behind)
  | case5 => cases found

end Reads

namespace Cursor

/-- A blank makes no difference to the next token. -/
theorem nextToken_blank {cursor : Cursor} {b : UInt8} {bytes : Bytes}
    (found : cursor.rest = b :: bytes) (space : isBlank b = true) (breadcrumb : Breadcrumb) :
    cursor.nextToken breadcrumb = cursor.step.nextToken breadcrumb := by
  -- Both skip the same blanks and stop at the same byte.
  have skipped : cursor.skipBlanks = cursor.step.skipBlanks := by
    simp [skipBlanks, rest_step, found, space, advance]
  rw [nextToken, nextToken.eq_def breadcrumb cursor.step, skipped]

/-- Nothing is skipped in front of a byte that is not blank. -/
theorem skipBlanks_eq_self {cursor : Cursor} (start : ∀ b ∈ cursor.rest.head?, isBlank b = false) :
    cursor.skipBlanks = cursor := by
  -- The next byte is no blank, so none is taken.
  unfold skipBlanks
  cases found : cursor.rest with
  | nil => rfl
  | cons b rest =>
    rw [List.takeWhile_cons_of_neg (by simp [start b (by simp [found])])]
    rfl

/-- Behind the blanks in front of it a cursor stands in front of a byte that is not blank. -/
theorem head?_skipBlanks (cursor : Cursor) : ∀ b ∈ cursor.skipBlanks.rest.head?, isBlank b = false := by
  intro b member
  -- Skipping drops the longest run of blanks.
  have split := List.takeWhile_append_dropWhile (p := isBlank) (l := cursor.rest)
  have left := congrArg (List.drop (cursor.rest.takeWhile isBlank).length) split
  have stop := List.head?_dropWhile_not isBlank cursor.rest
  rw [skipBlanks, rest_advance, ← left, List.drop_left, Option.mem_def] at member
  rw [member] at stop
  exact stop

/-- Blanks make no difference to the next token. -/
theorem nextToken_skipBlanks (cursor : Cursor) (breadcrumb : Breadcrumb) :
    cursor.skipBlanks.nextToken breadcrumb = cursor.nextToken breadcrumb := by
  rw [nextToken, nextToken.eq_def breadcrumb cursor, skipBlanks_eq_self cursor.head?_skipBlanks]

/-- What holds at the end of a text, and in front of a lexeme if it holds behind the lexeme, holds
everywhere if blanks make no difference to it. -/
theorem induction_lexemes {motive : Cursor → Prop}
    (blanks : ∀ cursor, motive cursor.skipBlanks → motive cursor)
    (ended : ∀ cursor, cursor.rest = [] → motive cursor)
    (lexeme : ∀ cursor first rest, cursor.rest = first :: rest → isBlank first = false →
      motive (cursor.advance (Lexeme.recognize first rest).length) → motive cursor)
    (cursor : Cursor) : motive cursor := by
  -- A lexeme takes its first byte at least, so the induction is on how many bytes are left.
  induction size : cursor.rest.length using Nat.strongRecOn generalizing cursor with
  | ind count ih =>
    refine blanks cursor ?_
    cases found : cursor.skipBlanks.rest with
    | nil => exact ended _ found
    | cons first rest =>
      have start : isBlank first = false := cursor.head?_skipBlanks first (by rw [found]; rfl)
      have fewer := Nat.lt_of_lt_of_le (rest_advance_lexeme found (Lexeme.recognize first rest))
        (rest_skipBlanks_length cursor)
      exact lexeme _ first rest found start (ih _ (size ▸ fewer) _ rfl)

/-- Behind the last byte the end is read. -/
theorem nextToken_nil {cursor : Cursor} (found : cursor.rest = []) (breadcrumb : Breadcrumb) :
    cursor.nextToken breadcrumb =
      .ok ⟨.endOfFile, "", cursor.spanTo cursor breadcrumb⟩ cursor := by
  -- There are no blanks to skip, and no byte to look at.
  have skipped : cursor.skipBlanks = cursor := skipBlanks_eq_self (by simp [found])
  rw [nextToken]
  simp only [skipped]
  split
  · rfl
  · next given more same =>
    rw [skipped, found] at same
    cases same

/-- A byte that is not blank is read with those that belong to it. -/
theorem nextToken_cons {cursor : Cursor} {first : UInt8} {bytes : Bytes}
    (found : cursor.rest = first :: bytes) (start : isBlank first = false) (breadcrumb : Breadcrumb) :
    let stop := cursor.advance (Lexeme.recognize first bytes).length
    let span := cursor.spanTo stop breadcrumb
    cursor.nextToken breadcrumb = match (Lexeme.recognize first bytes).content with
      | .token kind text warning? =>
        ⟨warning?.toList.map (Diagnostic.warning · span), .ok ⟨kind, text, span⟩, stop⟩
      | .comment => stop.nextToken breadcrumb
      | .malformed problem marked =>
        (stop.nextToken breadcrumb).after
          [.located (.lexical problem) (cursor.spanTo (cursor.advance marked) breadcrumb)]
      | .unclosed problem => .fail (.lexical problem span none) stop
      | .unclosedComment before =>
        let opener := cursor.advance before
        let opening := { opener.spanTo stop breadcrumb with stop := ⟨opener.line, opener.column + 1⟩ }
        .fail (.lexical .unterminatedComment (stop.spanTo stop breadcrumb)
          (some ⟨"comment opened here", opening⟩)) stop := by
  -- There is no blank to skip, so the token starts here.
  have skipped : cursor.skipBlanks = cursor := skipBlanks_eq_self (by simp [found, start])
  intro stop span
  rw [nextToken]
  simp only [skipped]
  -- The rest is not empty, so the first byte is recognized.
  split
  · next empty =>
    rw [skipped, found] at empty
    cases empty
  · next given more same =>
    rw [skipped, found] at same
    obtain ⟨rfl, rfl⟩ := List.cons.inj same
    cases (Lexeme.recognize first bytes).content <;> rfl

/-- A token is read from its bytes with a report of its warning, and reading goes on behind them. -/
theorem nextToken_of_token {cursor : Cursor} {first : UInt8} {bytes : Bytes}
    (found : cursor.rest = first :: bytes) (start : isBlank first = false)
    {kind : TokenKind} {text : String} {warning? : Option Warning}
    (content : (Lexeme.recognize first bytes).content = .token kind text warning?)
    (breadcrumb : Breadcrumb) :
    let stop := cursor.advance (Lexeme.recognize first bytes).length
    let span := cursor.spanTo stop breadcrumb
    cursor.nextToken breadcrumb =
      ⟨warning?.toList.map (Diagnostic.warning · span), .ok ⟨kind, text, span⟩, stop⟩ := by
  rw [nextToken_cons found start, content]

/-- A token behind blanks is read from its bytes, with nothing reported if it has no warning. -/
theorem exists_nextToken (cursor start stop : Cursor) (kind : TokenKind) (text : String)
    {first : UInt8} {bytes : Bytes} (blanks : cursor.skipBlanks = start)
    (found : start.rest = first :: bytes) (plain : isBlank first = false)
    (content : (Lexeme.recognize first bytes).content = .token kind text none)
    (behind : start.advance (Lexeme.recognize first bytes).length = stop)
    (breadcrumb : Breadcrumb) :
    ∃ span, cursor.nextToken breadcrumb = .ok ⟨kind, text, span⟩ stop := by
  rw [← nextToken_skipBlanks, blanks, nextToken_of_token found plain content, behind]
  exact ⟨_, rfl⟩

/-- A comment makes no difference to the next token. -/
theorem nextToken_of_comment {cursor : Cursor} {first : UInt8} {bytes : Bytes}
    (found : cursor.rest = first :: bytes) (start : isBlank first = false)
    (content : (Lexeme.recognize first bytes).content = .comment) (breadcrumb : Breadcrumb) :
    cursor.nextToken breadcrumb =
      (cursor.advance (Lexeme.recognize first bytes).length).nextToken breadcrumb := by
  rw [nextToken_cons found start, content]

/-- A token is read from its bytes, and reading goes on behind them. -/
theorem nextToken_token {cursor : Cursor} {first : UInt8} {bytes : Bytes}
    (found : cursor.rest = first :: bytes) (start : isBlank first = false)
    {kind : TokenKind} {text : String} {tail : Nat}
    (recognized : Lexeme.recognize first bytes = Lexeme.plain kind text tail)
    (breadcrumb : Breadcrumb) :
    (cursor.nextToken breadcrumb).reports = [] ∧
      (∃ span, (cursor.nextToken breadcrumb).result = .ok ⟨kind, text, span⟩) ∧
      (cursor.nextToken breadcrumb).next.rest = bytes.drop tail := by
  -- A lexeme with nothing to report is a token of this kind and text.
  have content : (Lexeme.recognize first bytes).content = .token kind text none := by
    rw [recognized]
    rfl
  rw [nextToken_of_token found start content]
  refine ⟨rfl, ⟨_, rfl⟩, ?_⟩
  rw [rest_advance, found, recognized]
  rfl

/-- At the end of a text the next token is the end. -/
theorem nextToken_end {cursor : Cursor} (found : cursor.rest = []) (breadcrumb : Breadcrumb) :
    (cursor.nextToken breadcrumb).reports = [] ∧
      ∃ span, (cursor.nextToken breadcrumb).result = .ok ⟨.endOfFile, "", span⟩ := by
  rw [nextToken_nil found]
  exact ⟨rfl, _, rfl⟩

section Tokens

variable {cursor : Cursor} {breadcrumb : Breadcrumb}

/-- A failure leaves nothing to read. -/
theorem tokens_of_failure {failure : Failure}
    (failed : (cursor.nextToken breadcrumb).result = .error failure) :
    cursor.tokens breadcrumb = ((cursor.nextToken breadcrumb).reports, .error failure) := by
  rw [Cursor.tokens]
  -- Of the two outcomes only the failure is given.
  split
  · next found given =>
    rw [failed] at given
    cases given
    rfl
  · next token taken =>
    rw [failed] at taken
    cases taken

/-- At the end of a text no token is read. -/
theorem tokens_of_end {token : Token} (taken : (cursor.nextToken breadcrumb).result = .ok token)
    (ended : token.isEnd = true) :
    cursor.tokens breadcrumb = ((cursor.nextToken breadcrumb).reports, .ok []) := by
  rw [Cursor.tokens]
  -- Of the two outcomes only a token is given.
  split
  · next failure failed =>
    rw [taken] at failed
    cases failed
  · next found given =>
    rw [taken] at given
    cases given
    rw [dif_pos ended]

/-- Behind a token the others are read. -/
theorem tokens_of_token {token : Token} (taken : (cursor.nextToken breadcrumb).result = .ok token)
    (inside : token.isEnd = false) : cursor.tokens breadcrumb =
      ((cursor.nextToken breadcrumb).reports ++
          ((cursor.nextToken breadcrumb).next.tokens breadcrumb).1,
        ((cursor.nextToken breadcrumb).next.tokens breadcrumb).2.map (token :: ·)) := by
  rw [Cursor.tokens]
  -- The token that was read is given, and it does not end the text.
  split
  · next failure failed =>
    rw [taken] at failed
    cases failed
  · next found given =>
    rw [taken] at given
    cases given
    rw [dif_neg (by simp [inside])]

/-- An empty text has no tokens. -/
theorem tokens_nil (found : cursor.rest = []) : cursor.tokens breadcrumb = ([], .ok []) := by
  obtain ⟨reports, span, result⟩ := nextToken_end found breadcrumb
  rw [tokens_of_end result rfl, reports]

/-- A token that nothing is reported for stands in front of those behind it. -/
theorem tokens_cons {token : Token} {tokens : List Token}
    (silent : (cursor.nextToken breadcrumb).reports = [])
    (taken : (cursor.nextToken breadcrumb).result = .ok token) (inside : token.isEnd = false)
    (rest : (cursor.nextToken breadcrumb).next.tokens breadcrumb = ([], .ok tokens)) :
    cursor.tokens breadcrumb = ([], .ok (token :: tokens)) := by
  rw [tokens_of_token taken inside, silent, rest]
  rfl

end Tokens

end Cursor

/-- A text that is read to its end has the tokens that are read, and nothing is reported. -/
theorem Reads.tokens (cursor : Cursor) {tokens : List (TokenKind × String)}
    (reads : Reads cursor.rest tokens []) (inside : ∀ token ∈ tokens, token.1 ≠ .endOfFile)
    (breadcrumb : Breadcrumb) :
    ∃ list, cursor.tokens breadcrumb = ([], .ok list) ∧
      list.map (fun token => (token.kind, token.text)) = tokens := by
  generalize bytes : cursor.rest = text at reads
  generalize left : ([] : Bytes) = rest at reads
  induction reads generalizing cursor with
  | none =>
    subst left
    exact ⟨[], Cursor.tokens_nil bytes, rfl⟩
  -- A blank is skipped in front of the next token.
  | @blank b rest' _ _ space _ ih =>
    have next : cursor.step.rest = rest' := by simp [Cursor.rest_step, bytes]
    obtain ⟨list, read, same⟩ := ih cursor.step inside next left
    refine ⟨list, ?_, same⟩
    rw [← read, Cursor.tokens, Cursor.tokens.eq_def breadcrumb cursor.step,
      Cursor.nextToken_blank bytes space]
  -- A token is read, and the rest behind it.
  | @token first more kind text tail tokens _ start recognized _ ih =>
    obtain ⟨reports, ⟨span, result⟩, next⟩ :=
      Cursor.nextToken_token bytes start recognized breadcrumb
    obtain ⟨list, read, same⟩ :=
      ih _ (fun token member => inside token (by simp [member])) next left
    refine ⟨⟨kind, text, span⟩ :: list, ?_, by simp [same]⟩
    -- The token is not the end, which stands behind all of them.
    have other : kind ≠ .endOfFile := inside (kind, text) (by simp)
    exact Cursor.tokens_cons reports result (by simpa [Token.isEnd] using other) read

end ArgSchema
