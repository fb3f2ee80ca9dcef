import ArgSchema.Proofs.Lexer.Lossless

/-! Shifted lines: a text that stands further down is read the same, with all places further down. -/

namespace ArgSchema

/-- The position some lines further down. -/
def Position.down (lines : Nat) (position : Position) : Position :=
  ⟨position.line + lines, position.column⟩

/-- Of two positions further down the same one is later. -/
theorem Position.latest_down (lines : Nat) (a b : Position) :
    latest (a.down lines) (b.down lines) = (latest a b).down lines := by
  -- Moving both positions down keeps their order.
  have order : (a.down lines).before (b.down lines) ↔ a.before b := by
    simp [before, down]
  unfold latest
  simp only [order]
  split <;> rfl

/-- The span some lines further down, with the same excerpt. -/
def Span.down (lines : Nat) (span : Span) : Span :=
  { span with start := span.start.down lines, stop := span.stop.down lines }

/-- The token some lines further down. -/
def Token.down (lines : Nat) (token : Token) : Token :=
  { token with span := token.span.down lines }

/-- The note some lines further down. -/
def Note.down (lines : Nat) (note : Note) : Note :=
  { note with span := note.span.down lines }

/-- The diagnostic with all its places some lines further down. -/
def Diagnostic.down (lines : Nat) (diagnostic : Diagnostic) : Diagnostic :=
  { diagnostic with
    span? := diagnostic.span?.map (·.down lines)
    notes := diagnostic.notes.map (·.down lines) }

/-- The failure with all its places some lines further down. -/
def Failure.down (lines : Nat) : Failure → Failure
  | .unreadable path message span? => .unreadable path message (span?.map (·.down lines))
  | .lexical problem span note? =>
    .lexical problem (span.down lines) (note?.map (·.down lines))
  | .tree error => .tree error

/-- The cursor some lines further down. -/
def Cursor.down (lines : Nat) (cursor : Cursor) : Cursor :=
  { cursor with line := cursor.line + lines }

/-- The answer with all its places some lines further down. -/
def Reading.down (lines : Nat) (reading : Reading Cursor Token) : Reading Cursor Token where
  reports := reading.reports.map (·.down lines)
  result := (reading.result.map (·.down lines)).mapError (·.down lines)
  next := reading.next.down lines

namespace Cursor

variable (lines : Nat) (cursor : Cursor) (breadcrumb : Breadcrumb)

/-- One step goes on by as many lines. -/
theorem step_down : (cursor.down lines).step = cursor.step.down lines := by
  -- A line end raises the line number, any other byte the column.
  unfold step down
  dsimp only
  split
  · rfl
  · split
    · simp only [Nat.add_right_comm]
    · rfl

/-- Going on goes on by as many lines. -/
theorem advance_down (count : Nat) :
    (cursor.down lines).advance count = (cursor.advance count).down lines := by
  -- By induction on the count: one step forward does not look at the line's number.
  induction count generalizing cursor with
  | zero => rfl
  | succ count ih => rw [advance, step_down, ih, advance]

/-- A span further down shows the same lines. -/
theorem spanTo_down (stop : Cursor) :
    (cursor.down lines).spanTo (stop.down lines) breadcrumb =
      (cursor.spanTo stop breadcrumb).down lines := by
  -- Only the line of the end moves; lines of the excerpt are counted from the start.
  have latest := Position.latest_down lines ⟨stop.line, max (stop.column - 1) 1⟩ cursor.position
  have excerpt : ∀ line, (cursor.down lines).excerptTo (line + lines) = cursor.excerptTo line := by
    intro line
    simp only [excerptTo, down, Nat.add_sub_add_right]
  have line := congrArg Position.line latest
  have lasts := (congrArg (excerptTo (cursor.down lines)) line).trans (excerpt _)
  exact congr (congrArg (Span.mk breadcrumb _) latest) lasts

/-- Blanks are skipped as before. -/
theorem skipBlanks_down : (cursor.down lines).skipBlanks = cursor.skipBlanks.down lines :=
  advance_down lines cursor _

/-- The next token of a text that stands further down is the same token further down. -/
theorem nextToken_down :
    (cursor.down lines).nextToken breadcrumb = (cursor.nextToken breadcrumb).down lines := by
  induction cursor using induction_lexemes with
  | blanks cursor ih =>
    rwa [← skipBlanks_down, nextToken_skipBlanks, nextToken_skipBlanks] at ih
  | ended cursor found =>
    have ended := @nextToken_nil (cursor.down lines) found breadcrumb
    rw [ended, nextToken_nil found, spanTo_down]
    rfl
  | lexeme cursor first rest found start ih =>
    have read := @nextToken_cons (cursor.down lines) _ _ found start breadcrumb
    -- The same bytes are there, so the same lexeme is recognized; only places and spans go down.
    simp only [advance_down, spanTo_down] at read
    rw [read, nextToken_cons found start]
    cases content : (Lexeme.recognize first rest).content with
    | token kind text warning? =>
      cases warning? <;> rfl
    | comment => exact ih
    | malformed problem marked =>
      simp only [ih]
      rfl
    | unclosed problem => rfl
    | unclosedComment before => rfl

/-- The tokens of a text that stands further down are the same tokens further down. -/
theorem tokens_down : (cursor.down lines).tokens breadcrumb =
    ((cursor.tokens breadcrumb).1.map (·.down lines),
      ((cursor.tokens breadcrumb).2.map (·.map (·.down lines))).mapError (·.down lines)) := by
  have result : ∀ cursor : Cursor, ((cursor.down lines).nextToken breadcrumb).result =
      ((cursor.nextToken breadcrumb).result.map (·.down lines)).mapError (·.down lines) :=
    fun cursor => congrArg Reading.result (nextToken_down lines cursor breadcrumb)
  have reports : ∀ cursor : Cursor, ((cursor.down lines).nextToken breadcrumb).reports =
      (cursor.nextToken breadcrumb).reports.map (·.down lines) :=
    fun cursor => congrArg Reading.reports (nextToken_down lines cursor breadcrumb)
  -- A failure and the end of the text are the same further down, so the tokens stop at the same
  -- one.
  fun_induction tokens breadcrumb cursor with
  | case1 cursor failure failed =>
    have same := result cursor
    rw [failed] at same
    rw [tokens_of_failure same, reports]
    rfl
  | case2 cursor token taken ended =>
    have same := result cursor
    rw [taken] at same
    rw [tokens_of_end same ended, reports]
    rfl
  -- A token, and the rest from behind it.
  | case3 cursor token taken inside more rest below ih =>
    have same := result cursor
    rw [taken] at same
    have next : ((cursor.down lines).nextToken breadcrumb).next =
        (cursor.nextToken breadcrumb).next.down lines :=
      congrArg Reading.next (nextToken_down lines cursor breadcrumb)
    rw [tokens_of_token same (Bool.eq_false_iff.mpr inside), reports, next, ih, List.map_append]
    simp only [below]
    cases rest <;> rfl

end Cursor

end ArgSchema
