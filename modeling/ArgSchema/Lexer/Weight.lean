import ArgSchema.Lexer.Basic

/-! How much a lexer still holds, which shrinks with each token that is taken from it. -/

namespace ArgSchema

/-- What a token weighs once it is put back; a directive leaves room for its argument. -/
def Token.weight (token : Token) : Nat := if token.kind = .directive then 2 else 1

/-- Every token weighs something. -/
theorem Token.weight_pos (token : Token) : 0 < token.weight := by
  unfold Token.weight
  split <;> omega

/-- No token weighs more than one byte of source. -/
theorem Token.weight_le (token : Token) : token.weight ≤ 2 := by
  unfold Token.weight
  split <;> omega

/-- Reading a token never adds bytes. -/
theorem Cursor.nextToken_length_le (breadcrumb : Breadcrumb) (cursor : Cursor) :
    (cursor.nextToken breadcrumb).next.rest.length ≤ cursor.rest.length := by
  -- Every way out of the scan has skipped blanks and perhaps some lexemes.
  fun_induction nextToken breadcrumb cursor with
  | case1 cursor => exact rest_skipBlanks_length cursor
  | case2 cursor start first rest found =>
    exact Nat.le_of_lt
      (Nat.lt_of_lt_of_le (rest_advance_lexeme found _) (rest_skipBlanks_length cursor))
  | case3 cursor start first rest found lexeme stop content ih =>
    exact Nat.le_trans ih (Nat.le_of_lt
      (Nat.lt_of_lt_of_le (rest_advance_lexeme found _) (rest_skipBlanks_length cursor)))
  | case4 cursor start first rest found lexeme stop problem marked content place ih =>
    exact Nat.le_trans ih (Nat.le_of_lt
      (Nat.lt_of_lt_of_le (rest_advance_lexeme found _) (rest_skipBlanks_length cursor)))
  | case5 cursor start first rest found =>
    exact Nat.le_of_lt
      (Nat.lt_of_lt_of_le (rest_advance_lexeme found _) (rest_skipBlanks_length cursor))
  | case6 cursor start first rest found =>
    exact Nat.le_of_lt
      (Nat.lt_of_lt_of_le (rest_advance_lexeme found _) (rest_skipBlanks_length cursor))

namespace Lexer

/-- Bytes that were not read, counted twice, and the weights of the tokens put back. -/
def weight (lexer : Lexer) : Nat :=
  2 * lexer.cursor.rest.length + lexer.pushed.foldr (fun token rest => token.weight + rest) 0

/-- Putting a token back adds its weight. -/
theorem weight_push (lexer : Lexer) (token : Token) :
    (lexer.push token).weight = lexer.weight + token.weight := by
  simp [weight, push]
  omega

/-- Taking a token never adds weight. -/
theorem weight_pop_le (lexer : Lexer) : lexer.pop.next.weight ≤ lexer.weight := by
  -- A pushed token is taken off the stack, and any other is read from the cursor.
  unfold pop
  split
  · next token pushed found => simp [weight, Reading.ok, found]
  · next found =>
    have shorter := Cursor.nextToken_length_le lexer.breadcrumb lexer.cursor
    simp only [weight, Reading.mapNext, found]
    omega

/-- Taking a token in front of the end takes at least its weight away. -/
theorem weight_pop {lexer : Lexer} {token : Token} (taken : lexer.pop.result = .ok token)
    (inside : token.isEnd = false) :
    lexer.pop.next.weight + token.weight ≤ lexer.weight := by
  unfold pop at taken ⊢
  split
  · next pushed rest found =>
    -- A token that was put back goes with exactly its weight.
    simp only [found, Reading.ok, Except.ok.injEq] at taken
    subst taken
    simp [weight, Reading.ok, found]
    omega
  · next found =>
    -- A token from the source takes at least one byte.
    simp only [found, Reading.mapNext] at taken
    have shorter := Cursor.nextToken_length taken inside
    have light := token.weight_le
    simp only [weight, Reading.mapNext, found]
    omega

end Lexer

end ArgSchema
