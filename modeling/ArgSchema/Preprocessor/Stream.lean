import ArgSchema.Preprocessor.Progress

/-! The tokens of a preprocessed stream: directives are carried out and included files spliced in. -/

namespace ArgSchema

namespace Preprocessor

/-- Reports of the conditionals that the end of a file leaves open, in order of opening. -/
def openConditionals (stream : Preprocessor) : List Diagnostic :=
  stream.current.conditionals.reverse.map Conditional.unterminated

/-- The stream with no conditional open in the current file. -/
def forgetConditionals (stream : Preprocessor) : Preprocessor :=
  stream.setCurrent (stream.current.withConditionals [])

/-- The stream behind an included file, in the files that include it. -/
def leave (stream : Preprocessor) (outer : List Frame) : Preprocessor :=
  { stream with includes := outer }

/-- The stream behind a token of the current file. -/
def afterToken (stream : Preprocessor) : Preprocessor := (stream.onCurrent Frame.pop).next

/-- Taking a token adds no weight and sees no file. -/
theorem advances_afterToken (disk : Disk) (stream : Preprocessor) :
    Advances disk 0 stream stream.afterToken :=
  advances_setCurrent (Lexer.weight_pop_le _)

/-- Taking a token takes its weight away. -/
theorem weight_afterToken {stream : Preprocessor} {token : Token}
    (taken : (stream.onCurrent Frame.pop).result = .ok token) (inside : token.isEnd = false) :
    stream.afterToken.weight + token.weight ≤ stream.weight := by
  -- The frame it is read from gets lighter by the token.
  have lighter := Lexer.weight_pop taken inside
  have same := weight_setCurrent stream (stream.current.pop).next
  simp only [Frame.pop, Reading.mapNext, Frame.withLexer] at same
  simp only [afterToken, onCurrent, Frame.pop, Reading.mapNext, Frame.withLexer]
  omega

/-- Leaving an included file takes its unit of weight away. -/
theorem weight_leave {stream : Preprocessor} {inner : Frame} {outer : List Frame}
    (inside : stream.includes = inner :: outer) :
    (stream.leave outer).weight < stream.weight := by
  simp only [leave, weight, inside, List.foldr_cons]
  omega

/-- Forgetting conditionals keeps the weight. -/
theorem weight_forgetConditionals (stream : Preprocessor) :
    stream.forgetConditionals.weight = stream.weight := by
  -- Open conditionals weigh nothing.
  have same := weight_setCurrent stream (stream.current.withConditionals [])
  simp only [Frame.withConditionals] at same
  unfold forgetConditionals
  simp only [Frame.withConditionals]
  omega

/-- Fewer files to open, or as many and less to read. -/
def Shrinks (disk : Disk) (stream later : Preprocessor) : Prop :=
  later.unseen disk < stream.unseen disk ∨
    (later.unseen disk = stream.unseen disk ∧ later.weight < stream.weight)

/-- A stream cannot shrink forever. -/
theorem Shrinks.lex {disk : Disk} {stream later : Preprocessor}
    (smaller : Shrinks disk stream later) :
    Prod.Lex (· < ·) (· < ·) (later.unseen disk, later.weight)
      (stream.unseen disk, stream.weight) := by
  -- Either fewer files are left to open, or as many and less text.
  rcases smaller with fewer | ⟨same, less⟩
  · exact .left _ _ fewer
  · rw [same]
    exact .right _ less

/-- Carrying out a directive shrinks the stream that the directive was taken from. -/
theorem shrinks_carryOut {disk : Disk} {stream : Preprocessor} {token : Token}
    (taken : (stream.onCurrent Frame.pop).result = .ok token) (directive : token.kind = .directive)
    (done : (stream.afterToken.carryOut disk token).result = .ok ()) :
    Shrinks disk stream (stream.afterToken.carryOut disk token).next := by
  -- A directive weighs two, one more than it may leave behind.
  have inside : token.isEnd = false := by simp [Token.isEnd, directive]
  have lighter := weight_afterToken taken inside
  simp only [Token.weight, directive, if_true] at lighter
  have first := advances_afterToken disk stream
  have second := advances_carryOut done
  unfold Advances at first second
  unfold Shrinks
  omega

/-- Leaving an included file at its end shrinks the stream. -/
theorem shrinks_leave {disk : Disk} {stream : Preprocessor} {inner : Frame} {outer : List Frame}
    (inside : stream.afterToken.forgetConditionals.includes = inner :: outer) :
    Shrinks disk stream (stream.afterToken.forgetConditionals.leave outer) := by
  -- The files that were seen stay the same, and a frame is gone.
  have lighter := weight_leave inside
  rw [weight_forgetConditionals] at lighter
  have seen : (stream.afterToken.forgetConditionals.leave outer).unseen disk =
      stream.afterToken.unseen disk := by
    simp [unseen, leave, forgetConditionals, seen_setCurrent]
  have first := advances_afterToken disk stream
  unfold Advances at first
  unfold Shrinks
  omega

/-- Takes the next token, carrying out the directives on the way.

At the end of an included file reading goes on behind the include; at the end of the root file the
end token comes again and again. -/
def pop (disk : Disk) (stream : Preprocessor) : Reading Preprocessor Token :=
  let reports := (stream.onCurrent Frame.pop).reports
  match _taken : (stream.onCurrent Frame.pop).result with
  | .error failure => ⟨reports, .error failure, stream.afterToken⟩
  | .ok token =>
    -- A directive is carried out, and the next token is asked for in its place.
    if _directive : token.kind = .directive then
      let carried := stream.afterToken.carryOut disk token
      match _done : (stream.afterToken.carryOut disk token).result with
      | .error failure => ⟨reports ++ carried.reports, .error failure, carried.next⟩
      | .ok () => (pop disk carried.next).after (reports ++ carried.reports)
    else if token.isEnd then
      -- At the end of a file its conditionals must all be closed.
      let reports := reports ++ stream.afterToken.openConditionals
      match _inside : stream.afterToken.forgetConditionals.includes with
      | [] => ⟨reports, .ok token, { stream.afterToken.forgetConditionals with done := true }⟩
      -- Behind an included file the one that includes it goes on.
      | _ :: outer =>
        (pop disk (stream.afterToken.forgetConditionals.leave outer)).after reports
    else ⟨reports, .ok token, stream.afterToken⟩
termination_by (stream.unseen disk, stream.weight)
decreasing_by
  · exact (shrinks_carryOut _taken _directive _done).lex
  · exact (shrinks_leave _inside).lex

/-- Shrinking twice is shrinking. -/
theorem Shrinks.trans {disk : Disk} {a b c : Preprocessor} (first : Shrinks disk a b)
    (second : Shrinks disk b c) : Shrinks disk a c := by
  unfold Shrinks at *
  omega

/-- A token in front of the end leaves a smaller stream. -/
theorem shrinks_pop {disk : Disk} {stream : Preprocessor} {token : Token}
    (taken : (stream.pop disk).result = .ok token) (inside : token.isEnd = false) :
    Shrinks disk stream (stream.pop disk).next := by
  -- Each way through the loop shrinks the stream by its own lemma; the last one takes the token.
  fun_induction pop disk stream with
  | case1 => cases taken
  | case2 => cases taken
  -- A directive, and then the token behind it.
  | case3 stream reports token found directive carried done ih =>
    exact (shrinks_carryOut found directive done).trans (ih taken)
  | case4 stream reports token found directive ended =>
    cases taken
    rw [ended] at inside
    cases inside
  -- The end of an included file, and then the token behind the inclusion.
  | case5 stream reports token found directive ended more inner outer deeper ih =>
    exact (shrinks_leave deeper).trans (ih taken)
  | case6 stream reports token found directive ended =>
    cases taken
    have lighter := weight_afterToken found inside
    have first := advances_afterToken disk stream
    have positive := token.weight_pos
    unfold Advances at first
    unfold Shrinks
    simp only
    omega

/-- Shows the next token without taking it. -/
def peek (disk : Disk) (stream : Preprocessor) : Reading Preprocessor Token :=
  (stream.pop disk).andThen fun token next => .ok token (next.push token)

end Preprocessor

/-- Everything that a stream brings until it ends or fails. -/
structure TokenStream where
  /-- Tokens in front of the end, each with the reports made on the way to it. -/
  tokens : List (List Diagnostic × Token)
  /-- The end token, or the failure in its place. -/
  ending : Reading Preprocessor Token

/-- Takes all tokens of a stream. -/
def Preprocessor.drain (disk : Disk) (stream : Preprocessor) : TokenStream :=
  match _taken : (stream.pop disk).result with
  | .error _ => ⟨[], stream.pop disk⟩
  | .ok token =>
    if _inside : token.isEnd then ⟨[], stream.pop disk⟩
    else
      let rest := drain disk (stream.pop disk).next
      { rest with tokens := ((stream.pop disk).reports, token) :: rest.tokens }
-- A token leaves less to read, or fewer files to open.
termination_by (stream.unseen disk, stream.weight)
decreasing_by exact (Preprocessor.shrinks_pop _taken (by simpa using _inside)).lex

end ArgSchema
