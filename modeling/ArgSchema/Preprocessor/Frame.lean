import ArgSchema.Lexer.Weight

/-! One open file of a preprocessed stream: its lexer, its directory and its open conditionals. -/

namespace ArgSchema

/-- A conditional whose text is being read. -/
structure Conditional where
  /-- Name of the directive that opened it. -/
  directive : String
  /-- Place of the directive. -/
  span : Span
deriving DecidableEq, Repr

/-- The report that a conditional is not closed in its file. -/
def Conditional.unterminated (conditional : Conditional) : Diagnostic :=
  .located (.directive (.unterminatedConditional conditional.directive)) conditional.span

/-- A file that tokens are read from. -/
structure Frame where
  /-- The text of the file. -/
  lexer : Lexer
  /-- Where relative includes start, if not in the working directory. -/
  directory? : Option String
  /-- Conditionals opened in this file and not yet closed, the innermost first. -/
  conditionals : List Conditional
deriving DecidableEq, Repr

namespace Frame

/-- The start of a source, with the directory its includes are relative to. -/
def ofSource (source : Bytes) (breadcrumb : Breadcrumb) (directory? : Option String) : Frame :=
  ⟨Lexer.ofSource source breadcrumb, directory?, []⟩

/-- The frame with its lexer replaced. -/
def withLexer (frame : Frame) (lexer : Lexer) : Frame := { frame with lexer := lexer }

/-- The frame with its open conditionals replaced. -/
def withConditionals (frame : Frame) (conditionals : List Conditional) : Frame :=
  { frame with conditionals := conditionals }

/-- Takes the next token of the file. -/
def pop (frame : Frame) : Reading Frame Token := frame.lexer.pop.mapNext frame.withLexer

/-- Puts a token back in front of the file. -/
def push (frame : Frame) (token : Token) : Frame := frame.withLexer (frame.lexer.push token)

/-- The report that a directive is followed by the wrong kind of token. -/
def illegalArgument (directive argument : Token) (expected : String) : Diagnostic :=
  -- At the end of the file only the directive itself can be shown.
  .located (.directive (.illegalArgument directive.text argument.kind.describe expected))
    (if argument.isEnd then directive.span else argument.span)

/-- Takes the token behind a directive; one of the wrong kind is reported and stays. -/
def argument (directive : Token) (expected : String) (accepts : TokenKind → Bool)
    (frame : Frame) : Reading Frame (Option Token) :=
  frame.pop.andThen fun found next =>
    if accepts found.kind then .ok (some found) next
    else ⟨[illegalArgument directive found expected], .ok none, next.push found⟩

/-- Takes the name behind a directive. -/
def nameArgument (directive : Token) : Frame → Reading Frame (Option Token) :=
  argument directive "identifier" (· = .identifier)

/-- A token that is put back weighs less than the directive in front of it. -/
theorem argument_weight (directive : Token) (expected : String) (accepts : TokenKind → Bool)
    (frame : Frame) :
    (frame.argument directive expected accepts).next.lexer.weight ≤ frame.lexer.weight + 1 := by
  -- The argument is taken, or it is put back, or there was none.
  have lighter := frame.lexer.weight_pop_le
  unfold argument Reading.andThen
  simp only [pop, Reading.mapNext]
  split
  · next found taken =>
    split
    · simp only [Reading.ok, Reading.after, withLexer]
      omega
    · -- What is put back was taken before, or it is the end and weighs one.
      simp only [Reading.after, push, withLexer, Lexer.weight_push]
      by_cases inside : found.isEnd = false
      · have := Lexer.weight_pop taken inside
        omega
      · simp only [Bool.not_eq_false, Token.isEnd, decide_eq_true_eq] at inside
        simp [Token.weight, inside]
        omega
  · simp only [withLexer]
    omega

/-- A token that is accepted is gone from the file. -/
theorem argument_weight_some {directive : Token} {expected : String} {accepts : TokenKind → Bool}
    {frame : Frame} {found : Token}
    (accepted : (frame.argument directive expected accepts).result = .ok (some found)) :
    (frame.argument directive expected accepts).next.lexer.weight ≤ frame.lexer.weight := by
  have lighter := frame.lexer.weight_pop_le
  unfold argument Reading.andThen at accepted ⊢
  simp only [pop, Reading.mapNext] at accepted ⊢
  -- A token that does not fit is put back, so only one that fits is gone.
  cases taken : frame.lexer.pop.result with
  | error failure => simp [taken] at accepted
  | ok token =>
    simp only [taken] at accepted ⊢
    split at accepted
    · next fits => simpa [fits, Reading.ok, Reading.after, withLexer] using lighter
    · simp [Reading.after] at accepted

end Frame

namespace Lexer

/-- Drops tokens up to the end of a conditional's text, and tells whether the end was found.

The conditionals inside count, but no other directive does anything, and nothing is reported. -/
def skipConditional (depth : Nat) (lexer : Lexer) : Reading Lexer Bool :=
  match _taken : lexer.pop.result with
  | .error failure => .fail failure lexer.pop.next
  | .ok token =>
    -- The end is put back, as it belongs to whoever reads the file.
    if _inside : token.isEnd then .ok false (lexer.pop.next.push token)
    -- A conditional inside has its own end.
    else if token.kind = .directive ∧ (token.text = "ifdef" ∨ token.text = "ifndef") then
      skipConditional (depth + 1) lexer.pop.next
    else if token.kind = .directive ∧ token.text = "endif" then
      match depth with
      | 0 => .ok true lexer.pop.next
      | depth + 1 => skipConditional depth lexer.pop.next
    else skipConditional depth lexer.pop.next
termination_by lexer.weight
decreasing_by
  all_goals
    have lighter := weight_pop _taken (by simpa using _inside)
    simp only [Token.weight] at lighter
    split at lighter <;> omega

/-- Skipping adds at most the end token that is put back. -/
theorem weight_skipConditional (depth : Nat) (lexer : Lexer) :
    (lexer.skipConditional depth).next.weight ≤ lexer.weight + 1 := by
  -- Only the end token is put back; every other token that is dropped takes weight away.
  fun_induction skipConditional depth lexer with
  | case1 depth lexer failure => exact Nat.le_succ_of_le (weight_pop_le lexer)
  | case2 depth lexer token taken inside =>
    have lighter := weight_pop_le lexer
    simp only [Token.isEnd, decide_eq_true_eq] at inside
    simp [Reading.ok, weight_push, Token.weight, inside]
    omega
  | case3 depth lexer token taken inside opening ih =>
    exact Nat.le_trans ih (Nat.succ_le_succ (weight_pop_le lexer))
  | case4 lexer token taken inside => exact Nat.le_succ_of_le (weight_pop_le lexer)
  | case5 lexer token taken inside opening closing depth ih =>
    exact Nat.le_trans ih (Nat.succ_le_succ (weight_pop_le lexer))
  | case6 depth lexer token taken inside opening closing ih =>
    exact Nat.le_trans ih (Nat.succ_le_succ (weight_pop_le lexer))

end Lexer

end ArgSchema
