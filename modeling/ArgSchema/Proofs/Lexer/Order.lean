import ArgSchema.Proofs.Lexer.Places

/-! Order: what a lexer reports and brings starts no earlier than what it brought before. -/

namespace ArgSchema

namespace Position

/-- A position is the same as another one or later. -/
def reaches (a b : Position) : Prop := ¬a.before b

/-- A position reaches itself. -/
theorem reaches_refl (a : Position) : a.reaches a := before_irrefl a

/-- Positions reach what the positions that they reach do. -/
theorem reaches_trans {a b c : Position} (first : a.reaches b) (second : b.reaches c) :
    a.reaches c := by
  unfold reaches before at *
  omega

/-- The later of two positions reaches the second. -/
theorem latest_reaches (a b : Position) : (latest a b).reaches b := by
  unfold latest
  split
  · exact reaches_refl b
  · assumption

end Position

/-- A diagnostic with a place starts no later than a position. -/
def Diagnostic.StartsBy (diagnostic : Diagnostic) (position : Position) : Prop :=
  ∀ span, diagnostic.span? = some span → position.reaches span.start

/-- A diagnostic starts no later than later positions. -/
theorem Diagnostic.StartsBy.later {diagnostic : Diagnostic} {position later : Position}
    (starts : diagnostic.StartsBy position) (reaches : later.reaches position) :
    diagnostic.StartsBy later :=
  fun span placed => Position.reaches_trans reaches (starts span placed)

namespace Cursor

/-- Going on reaches later positions. -/
theorem advance_reaches (cursor : Cursor) (count : Nat) :
    (cursor.advance count).position.reaches cursor.position := by
  -- A step goes to the next column or to the next line.
  have step : ∀ cursor : Cursor, cursor.step.position.reaches cursor.position := by
    intro cursor
    unfold Cursor.step
    split
    · exact Position.reaches_refl _
    · unfold Position.reaches Position.before Cursor.position
      split <;> simp only <;> omega
  induction count generalizing cursor with
  | zero => exact Position.reaches_refl _
  | succ count ih => exact Position.reaches_trans (ih cursor.step) (step cursor)

/-- A token and the reports in front of it start in order, between the cursors around them. -/
structure Ordered (cursor next : Cursor) (reports : List Diagnostic) (token : Token) : Prop where
  /-- The token starts no earlier than the cursor. -/
  start : token.span.start.reaches cursor.position
  /-- Reports start no later than the token. -/
  reports : ∀ report ∈ reports, report.StartsBy token.span.start
  /-- The token does not end in front of its start. -/
  stop : token.span.stop.reaches token.span.start
  /-- Reading goes on no earlier than the token starts. -/
  next : next.position.reaches token.span.start

/-- What a cursor reads is in order. -/
theorem nextToken_ordered {breadcrumb : Breadcrumb} {cursor : Cursor} {token : Token}
    (taken : (cursor.nextToken breadcrumb).result = .ok token) :
    Ordered cursor (cursor.nextToken breadcrumb).next (cursor.nextToken breadcrumb).reports
      token := by
  -- The cases are the reader's: it passes blanks, and then looks at one lexeme.
  have blanks := fun cursor : Cursor =>
    cursor.advance_reaches (cursor.rest.takeWhile isBlank).length
  fun_induction nextToken breadcrumb cursor with
  | case1 cursor start found =>
    cases taken
    exact ⟨blanks cursor, by rintro _ ⟨⟩, Position.latest_reaches _ _, Position.reaches_refl _⟩
  | case2 cursor start first rest found lexeme stop span kind text warning content =>
    cases taken
    refine ⟨blanks cursor, ?_, Position.latest_reaches _ _, advance_reaches _ _⟩
    intro report member place placed
    obtain ⟨warning, -, rfl⟩ := List.mem_map.mp member
    cases placed
    exact Position.reaches_refl _
  -- A comment is passed to what follows it.
  | case3 cursor start first rest found lexeme stop content ih =>
    have ordered := ih taken
    refine ⟨?_, ordered.reports, ordered.stop, ordered.next⟩
    exact Position.reaches_trans ordered.start
      (Position.reaches_trans (advance_reaches _ _) (blanks cursor))
  | case4 cursor start first rest found lexeme stop problem marked content place ih =>
    have ordered := ih taken
    -- The malformed stretch is reported where it starts, in front of the token.
    have behind := Position.reaches_trans ordered.start (advance_reaches start lexeme.length)
    refine ⟨Position.reaches_trans behind (blanks cursor), ?_, ordered.stop, ordered.next⟩
    intro report member
    rcases List.mem_cons.mp member with rfl | member
    · rintro span ⟨⟩
      exact behind
    · exact ordered.reports report member
  | case5 => cases taken
  | case6 => cases taken

end Cursor

end ArgSchema
