import ArgSchema.Proofs.Lexer.WholeLines

/-! Quotations: they end with their line, unless raw quotes hide the line end behind a backslash. -/

namespace ArgSchema

namespace Lexeme

/-- What stands between an opening quote and the line end that cuts it off: bytes that mean nothing
in quotes, and backslashes with the bytes behind them, which are line ends in raw quotes only. -/
inductive CutText (raw : Bool) : Bytes → Prop
  /-- Nothing. -/
  | none : CutText raw []
  /-- A byte that is neither a quote nor a backslash nor a line end. -/
  | plain {b rest} : b ≠ byte '"' → b ≠ byte '\\' → b ≠ byte '\n' → CutText raw rest →
      CutText raw (b :: rest)
  /-- A backslash and the byte behind it. -/
  | pair {c rest} : raw = true ∨ c ≠ byte '\n' → CutText raw rest →
      CutText raw (byte '\\' :: c :: rest)
  /-- A backslash in front of the line end, which it hides in raw quotes only. -/
  | last : raw = false → CutText raw [byte '\\']

/-- Quoted text is cut off by the first line end that is not hidden. -/
theorem quoted_of_cutText {raw : Bool} {body : Bytes} (cut : CutText raw body) (after : Bytes) :
    quoted raw (body ++ byte '\n' :: after) = .cut body.length := by
  induction cut with
  | none => exact quoted_line raw after
  | @plain b rest quote backslash line _ ih =>
    have step := @quoted_plain raw [b] (rest ++ byte '\n' :: after) (by simp)
      (by simpa using ⟨line, quote, backslash⟩)
    rw [List.cons_append, ← List.singleton_append, step, ih]
    simp [Quoted.behind, Nat.add_comm]
  | @pair c rest hides _ ih =>
    -- Whatever the backslash and the byte behind it stand for, they are two bytes.
    have behind : ∀ value, (quoted raw (rest ++ byte '\n' :: after)).behind value 2 =
        .cut (byte '\\' :: c :: rest).length := by
      intro value
      rw [ih, Quoted.behind, List.length_cons, List.length_cons, Nat.add_comm]
    rw [List.cons_append, List.cons_append]
    by_cases quote : c = byte '"'
    · subst quote
      rw [quoted_hidden, behind]
    · rw [quoted_pair quote]
      split
      · exact behind _
      · next cooked =>
        split
        · exact behind _
        · rw [if_neg (hides.resolve_left cooked)]
          exact behind _
  -- The line end behind the backslash is no escape outside raw quotes.
  | last cooked =>
    rw [List.singleton_append, quoted_pair (by decide), cooked]
    rfl

/-- Line ends are in quoted text that is closed only if raw quotes keep them in it. -/
theorem countP_of_closed {raw : Bool} {bytes value : Bytes} {length : Nat}
    (closed : quoted raw bytes = .closed value length) :
    (bytes.take length).countP (· = byte '\n') =
      if raw then value.countP (· = byte '\n') else 0 := by
  -- Line ends in front of others are kept if those are.
  have goOn : ∀ (front : Bytes) {rest value more : Bytes} {length : Nat} {ended : Quoted},
      ended.behind value front.length = .closed more length →
      front.countP (· = byte '\n') = (if raw then value.countP (· = byte '\n') else 0) →
      (∀ {last tail}, ended = .closed last tail → (rest.take tail).countP (· = byte '\n') =
        if raw then last.countP (· = byte '\n') else 0) →
      ((front ++ rest).take length).countP (· = byte '\n') =
        if raw then more.countP (· = byte '\n') else 0 := by
    intro front rest value more length ended closed own ih
    obtain ⟨last, tail, found, rfl, rfl⟩ := Quoted.closed_of_behind closed
    rw [List.take_length_add_append, List.countP_append, List.countP_append, own, ih found]
    cases raw <;> rfl
  have pair : ∀ {c : UInt8}, c ≠ byte '\n' → [byte '\\', c].countP (· = byte '\n') = 0 := by
    have backslash : byte '\\' ≠ byte '\n' := by decide
    intro c line
    simp [line, backslash]
  fun_induction quoted raw bytes generalizing value length with
  | case1 | case2 | case4 | case5 | case10 => cases closed
  -- A quote is no line end.
  | case3 | case6 =>
    cases closed
    cases raw <;> rfl
  | case7 rest _ _ ih =>
    exact goOn [byte '\\', byte '"'] closed (by cases raw <;> rfl) ih
  | case8 c rest other kept _ _ ih =>
    exact goOn [byte '\\', c] closed (by rw [kept]; rfl) ih
  -- Outside raw quotes a backslash stands in front of no line end, whatever it stands for.
  | case9 c rest other cooked value escaped _ _ ih =>
    have line : c ≠ byte '\n' := by
      rintro rfl
      cases escaped
    exact goOn [byte '\\', c] closed (by rw [if_neg cooked, pair line]) ih
  | case11 c rest other cooked escaped line _ _ ih =>
    exact goOn [byte '\\', c] closed (by rw [if_neg cooked, pair line]) ih
  | case12 b c rest line quote backslash ih =>
    exact goOn [b] closed (by simp [line]) ih

/-- Among the bytes of a string there is no line end, and among those of a regular expression there
are as many as in its text. -/
theorem countP_of_token {first : UInt8} {rest : Bytes} {kind : TokenKind} {text : String}
    {warning? : Option Warning}
    (content : (recognize first rest).content = .token kind text warning?) :
    let lines := ((first :: rest).take (recognize first rest).length).countP (· = byte '\n')
    (kind = .string → lines = 0) ∧ (kind = .regex → lines = lineEnds text) := by
  -- Reading bytes as text changes none below 128, so it keeps the line ends.
  have kept : ∀ value, lineEnds (Utf8.decodeLossy value) = value.countP (· = byte '\n') := by
    intro value
    rw [lineEnds_eq]
    refine ((Utf8.blurs_decodeLossy value).countP_eq fun b high => ?_).symm
    exact decide_eq_false (ne_byte_of_high high (by decide))
  rcases cases_recognize first rest with
    ⟨-, read⟩ | ⟨rfl, read⟩ | ⟨more, rfl, rfl, read⟩ | bare
  · -- A slash starts no token.
    rw [read] at content
    exact absurd content (slash_ne_token _ _ _ _)
  · -- The quote in front of a string is no line end.
    rw [read] at content ⊢
    obtain ⟨rfl, value, length, closed, -, size⟩ := closed_of_quotation content
    have inside := countP_of_closed closed
    refine ⟨fun _ => ?_, by rintro ⟨⟩⟩
    rw [size, List.take_succ_cons, List.countP_cons_of_neg (by decide)]
    exact inside
  · -- Neither are the two bytes in front of a regular expression.
    rw [read] at content ⊢
    obtain ⟨rfl, value, length, closed, rfl, size⟩ := closed_of_quotation content
    have inside := countP_of_closed closed
    refine ⟨by rintro ⟨⟩, fun _ => ?_⟩
    rw [size, List.take_succ_cons, List.countP_cons_of_neg (by decide), List.take_succ_cons,
      List.countP_cons_of_neg (by decide), kept]
    exact inside
  · -- Every other token is of another kind.
    have kind := bare.2 _ _ _ content
    exact ⟨fun string => absurd string kind.1, fun regex => absurd regex kind.2.1⟩

/-- The bytes that open a string, or raw quotes. -/
def opening (raw : Bool) : Bytes := if raw then [byte 'r', byte '"'] else [byte '"']

/-- Text behind an opening that a line end cuts off is malformed up to the line end. -/
theorem recognize_opening {raw : Bool} {body : Bytes} (cut : CutText raw body) (after : Bytes) :
    ∃ first more, opening raw ++ body ++ byte '\n' :: after = first :: more ∧
      isBlank first = false ∧ recognize first more =
        ⟨.malformed .unterminatedString (opening raw ++ body).length, (opening raw ++ body).length⟩ := by
  have ends := quoted_of_cutText cut after
  -- The tail that a lexeme counts is one byte less than the opening.
  cases raw with
  | false =>
    have cooked : decide (TokenKind.string = .regex) = false := rfl
    refine ⟨byte '"', body ++ byte '\n' :: after, rfl, by decide, ?_⟩
    show quotation .string 0 (body ++ byte '\n' :: after) = _
    rw [quotation, cooked, ends]
    simp [opening, Nat.add_comm]
  | true =>
    have kept : decide (TokenKind.regex = .regex) = true := rfl
    refine ⟨byte 'r', byte '"' :: (body ++ byte '\n' :: after), rfl, by decide, ?_⟩
    show quotation .regex 1 (body ++ byte '\n' :: after) = _
    rw [quotation, kept, ends]
    simp [opening]
    omega

end Lexeme

/-- A token is on its line if it is a string, and on as many more lines as its text has line ends if
it is a regular expression. -/
def Token.Quotes (token : Token) : Prop :=
  (token.kind = .string → token.span.stop.line = token.span.start.line) ∧
    (token.kind = .regex →
      token.span.stop.line = token.span.start.line + lineEnds token.text)

namespace Cursor

/-- Going on goes down as many lines as line ends are passed. -/
theorem line_advance (cursor : Cursor) (count : Nat) : (cursor.advance count).line =
    cursor.line + (cursor.rest.take count).countP (· = byte '\n') := by
  induction count generalizing cursor with
  | zero => simp [advance]
  | succ count ih =>
    rw [advance, ih, rest_step]
    -- A step passes one byte, unless there is none.
    cases found : cursor.rest with
    | nil => simp [step, found]
    | cons b rest =>
      rw [List.take_succ_cons, List.drop_succ_cons, List.drop_zero, List.countP_cons]
      simp only [step, found]
      by_cases line : b = byte '\n'
      · simp [line]; omega
      · simp [line]

/-- A span that goes on to a later line ends on it. -/
theorem line_spanTo {start stop : Cursor} (later : start.line ≤ stop.line)
    (breadcrumb : Breadcrumb) : (start.spanTo stop breadcrumb).stop.line = stop.line := by
  show (Position.latest _ start.position).line = stop.line
  unfold Position.latest
  split
  · next before =>
    -- Only on the same line can the end stand in front of the start.
    have back : stop.line ≤ start.line := before.elim Nat.le_of_lt fun same => Nat.le_of_eq same.1
    exact Nat.le_antisymm later back
  · rfl

/-- Strings end on their line, and regular expressions as many lines below as they have line ends. -/
theorem nextToken_quotes {breadcrumb : Breadcrumb} {cursor : Cursor} {token : Token}
    (taken : (cursor.nextToken breadcrumb).result = .ok token) : token.Quotes := by
  fun_induction nextToken breadcrumb cursor with
  | case1 =>
    cases taken
    exact ⟨by rintro ⟨⟩, by rintro ⟨⟩⟩
  -- The lines that a token goes on for are those of its bytes.
  | case2 cursor start first rest found lexeme stop span kind text warning content =>
    cases taken
    obtain ⟨string, regex⟩ := Lexeme.countP_of_token content
    have line := start.line_advance lexeme.length
    rw [found] at line
    have last : span.stop.line = stop.line :=
      line_spanTo (line ▸ Nat.le_add_right _ _) breadcrumb
    refine ⟨fun same => ?_, fun same => ?_⟩
    · exact last.trans (line.trans (congrArg (start.line + ·) (string same)))
    · exact last.trans (line.trans (congrArg (start.line + ·) (regex same)))
  -- Comments and malformed text come before the token.
  | case3 cursor start first rest found lexeme stop content ih => exact ih taken
  | case4 cursor start first rest found lexeme stop problem marked content place ih =>
    exact ih taken
  | case5 => cases taken
  | case6 => cases taken

/-- Quoted text that a line end cuts off is reported once, and skipped with the line end. -/
theorem nextToken_of_cutText {cursor : Cursor} {raw : Bool} {body after : Bytes}
    (cut : Lexeme.CutText raw body)
    (found : cursor.rest = Lexeme.opening raw ++ body ++ byte '\n' :: after)
    (breadcrumb : Breadcrumb) :
    let behind := cursor.advance (Lexeme.opening raw ++ body).length
    behind.step.rest = after ∧
      cursor.nextToken breadcrumb = (behind.step.nextToken breadcrumb).after
        [.located (.lexical .unterminatedString) (cursor.spanTo behind breadcrumb)] := by
  intro behind
  refine ⟨by rw [rest_step, rest_advance, found, List.drop_left]; rfl, ?_⟩
  obtain ⟨first, more, shape, start, recognized⟩ := Lexeme.recognize_opening cut after
  -- The lexeme takes the line end too, so reading goes on right behind that.
  have stop : cursor.advance (Lexeme.recognize first more).length = behind.step := by
    rw [recognized]
    exact advance_add cursor _ 1
  rw [nextToken_cons (found.trans shape) start, stop, recognized]

/-- A string ends on its line and a regular expression as many lines below as its text has line ends,
and what a line end cuts off is reported once and skipped with the line end. -/
theorem nextToken_quotations (cursor : Cursor) (breadcrumb : Breadcrumb) :
    (∀ token, (cursor.nextToken breadcrumb).result = .ok token →
      (token.kind = .string → token.span.stop.line = token.span.start.line) ∧
      (token.kind = .regex →
        token.span.stop.line = token.span.start.line + lineEnds token.text)) ∧
    ∀ raw body after, Lexeme.CutText raw body →
      cursor.rest = Lexeme.opening raw ++ body ++ byte '\n' :: after →
      let behind := cursor.advance (Lexeme.opening raw ++ body).length
      behind.step.rest = after ∧
        cursor.nextToken breadcrumb = (behind.step.nextToken breadcrumb).after
          [.located (.lexical .unterminatedString) (cursor.spanTo behind breadcrumb)] :=
  ⟨fun _ taken => nextToken_quotes taken,
    fun _ _ _ cut found => nextToken_of_cutText cut found breadcrumb⟩

end Cursor

/-- A backslash hides a line end in raw quotes, so that the text goes on on the next line, but not in
a string, which is reported and skipped. -/
theorem nextToken_quotations_hidden :
    (∃ token, ((Cursor.ofSource (Utf8.encode "r\"\\\n\"")).nextToken []).result = .ok token ∧
      token.kind = .regex ∧ token.span.stop.line = token.span.start.line + 1) ∧
    ∃ (next : Cursor) (span : Span), next.rest = [byte 'b'] ∧
      (Cursor.ofSource (Utf8.encode "\"\\\nb")).nextToken [] =
        (next.nextToken []).after [.located (.lexical .unterminatedString) span] := by
  constructor
  · -- The regular expression goes on behind the line end.
    have bytes : Cursor.ofSource (Utf8.encode "r\"\\\n\"") =
        ⟨[114, 34, 92, 10, 34], 1, 1, [114, 34, 92, 10, 34]⟩ := by decide +kernel
    have read := @Cursor.nextToken_of_token ⟨[114, 34, 92, 10, 34], 1, 1, [114, 34, 92, 10, 34]⟩
      _ _ rfl (by decide) .regex "\\\n" none (by decide +kernel) []
    have quotes := (Cursor.nextToken_quotations ⟨[114, 34, 92, 10, 34], 1, 1, [114, 34, 92, 10, 34]⟩
      []).1 _ (by rw [read])
    rw [bytes]
    exact ⟨_, by rw [read], rfl, quotes.2 rfl⟩
  · -- The string is cut off there.
    have bytes : (Cursor.ofSource (Utf8.encode "\"\\\nb")).rest =
        Lexeme.opening false ++ [byte '\\'] ++ byte '\n' :: [byte 'b'] := by decide +kernel
    have given := (Cursor.nextToken_quotations (.ofSource (Utf8.encode "\"\\\nb")) []).2 false
      [byte '\\'] [byte 'b'] (.last rfl) bytes
    exact ⟨_, _, given⟩

end ArgSchema
