import ArgSchema.Lexer.Cursor
import ArgSchema.Reading

/-! The lexer: a stream of the tokens of one source, with tokens that can be put back. -/

namespace ArgSchema

namespace Cursor

/-- The next token of a source, behind reports of everything that is skipped as malformed. -/
def nextToken (breadcrumb : Breadcrumb) (cursor : Cursor) : Reading Cursor Token :=
  let start := cursor.skipBlanks
  match _found : start.rest with
  | [] => .ok ⟨.endOfFile, "", start.spanTo start breadcrumb⟩ start
  | first :: rest =>
    let lexeme := Lexeme.recognize first rest
    let stop := start.advance lexeme.length
    let span := start.spanTo stop breadcrumb
    match lexeme.content with
    | .token kind text warning? =>
      ⟨warning?.toList.map (Diagnostic.warning · span), .ok ⟨kind, text, span⟩, stop⟩
    | .comment => nextToken breadcrumb stop
    | .malformed problem marked =>
      let span := start.spanTo (start.advance marked) breadcrumb
      (nextToken breadcrumb stop).after [.located (.lexical problem) span]
    | .unclosed problem => .fail (.lexical problem span none) stop
    | .unclosedComment before =>
      -- The end of the input is reported, and a note shows the two bytes of the opening.
      let opener := start.advance before
      let span := opener.spanTo stop breadcrumb
      let opening := { span with stop := ⟨opener.line, opener.column + 1⟩ }
      let failure := .lexical .unterminatedComment (stop.spanTo stop breadcrumb)
        (some ⟨"comment opened here", opening⟩)
      .fail failure stop
termination_by cursor.rest.length
decreasing_by
  all_goals exact Nat.lt_of_lt_of_le (rest_advance_lexeme _found _) (rest_skipBlanks_length cursor)

/-- A token in front of the end leaves fewer bytes to read. -/
theorem nextToken_length {breadcrumb : Breadcrumb} {cursor : Cursor} {token : Token}
    (taken : (cursor.nextToken breadcrumb).result = .ok token) (inside : token.isEnd = false) :
    (cursor.nextToken breadcrumb).next.rest.length < cursor.rest.length := by
  -- The scan ends behind a lexeme, or goes on behind one.
  fun_induction nextToken breadcrumb cursor with
  | case1 cursor start found =>
    cases taken
    simp [Token.isEnd] at inside
  | case2 cursor start first rest found lexeme stop span kind text warning content =>
    exact Nat.lt_of_lt_of_le (rest_advance_lexeme found _) (rest_skipBlanks_length cursor)
  | case3 cursor start first rest found lexeme stop content ih =>
    exact Nat.lt_trans (ih taken)
      (Nat.lt_of_lt_of_le (rest_advance_lexeme found _) (rest_skipBlanks_length cursor))
  | case4 cursor start first rest found lexeme stop problem marked content place ih =>
    exact Nat.lt_trans (ih taken)
      (Nat.lt_of_lt_of_le (rest_advance_lexeme found _) (rest_skipBlanks_length cursor))
  | case5 => cases taken
  | case6 => cases taken

/-- The tokens of a source up to its end, or what cuts them short, with all reports. -/
def tokens (breadcrumb : Breadcrumb) (cursor : Cursor) :
    List Diagnostic × Except Failure (List Token) :=
  match _taken : (cursor.nextToken breadcrumb).result with
  | .error failure => ((cursor.nextToken breadcrumb).reports, .error failure)
  | .ok token =>
    if _inside : token.isEnd then ((cursor.nextToken breadcrumb).reports, .ok [])
    else
      let (reports, rest) := tokens breadcrumb (cursor.nextToken breadcrumb).next
      ((cursor.nextToken breadcrumb).reports ++ reports, rest.map (token :: ·))
termination_by cursor.rest.length
-- Every token but the last one takes a byte.
decreasing_by exact nextToken_length _taken (by simpa using _inside)

end Cursor

/-- A source being read token by token. -/
structure Lexer where
  /-- Where reading goes on. -/
  cursor : Cursor
  /-- The file of the source and the files that include it. -/
  breadcrumb : Breadcrumb
  /-- Tokens that were put back, the last one first. -/
  pushed : List Token
  /-- Whether the end of the source was reached. -/
  exhausted : Bool
deriving DecidableEq, Repr

namespace Lexer

/-- The lexer at the start of a source. -/
def ofSource (source : Bytes) (breadcrumb : Breadcrumb) : Lexer :=
  ⟨Cursor.ofSource source, breadcrumb, [], false⟩

/-- Takes the next token; at the end the end token comes again and again. -/
def pop (lexer : Lexer) : Reading Lexer Token :=
  match lexer.pushed with
  | token :: pushed => .ok token { lexer with pushed := pushed }
  | [] =>
    let reading := lexer.cursor.nextToken lexer.breadcrumb
    -- A cursor at the end gives that token again and again; having given it once is remembered.
    let ended := match reading.result with
      | .ok token => token.isEnd
      | .error _ => false
    reading.mapNext fun cursor =>
      { lexer with cursor := cursor, exhausted := lexer.exhausted || ended }

/-- Puts a token in front of the others. -/
def push (lexer : Lexer) (token : Token) : Lexer :=
  { lexer with pushed := token :: lexer.pushed }

/-- Shows the next token without taking it. -/
def peek (lexer : Lexer) : Reading Lexer Token :=
  lexer.pop.andThen fun token rest => .ok token (rest.push token)

/-- Whether the source is used up and only ends were put back. -/
def eof (lexer : Lexer) : Bool := lexer.exhausted && lexer.pushed.all (·.isEnd)

end Lexer

/-- Reads a whole text token by token, leaving out the end token. -/
def tokenize (source : String) : List Diagnostic × Except Failure (List Token) :=
  (Cursor.ofSource (Utf8.encode source)).tokens ["<input>"]

end ArgSchema
