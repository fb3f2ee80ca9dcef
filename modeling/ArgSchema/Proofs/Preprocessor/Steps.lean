import ArgSchema.Preprocessor.Stream

/-! Steps: one equation for each thing that taking a token from a stream can meet. -/

namespace ArgSchema

namespace Preprocessor

variable {disk : Disk} {stream : Preprocessor}

/-- A file that replaces the current one is current. -/
@[simp] theorem current_setCurrent (stream : Preprocessor) (frame : Frame) :
    (stream.setCurrent frame).current = frame := by
  -- The frame is put where the current one was read from.
  unfold setCurrent current
  split
  · next none => simp [none]
  · rfl

/-- Behind a token the current file is the same, apart from its lexer. -/
theorem current_afterToken (stream : Preprocessor) :
    stream.afterToken.current = stream.current.withLexer stream.current.lexer.pop.next :=
  current_setCurrent _ _

/-- Taking a token leaves the open conditionals. -/
theorem openConditionals_afterToken (stream : Preprocessor) :
    stream.afterToken.openConditionals = stream.openConditionals := by
  rw [openConditionals, current_afterToken]
  rfl

/-- A stream without included files has none behind the end of its file. -/
theorem includes_of_outermost (outermost : stream.includes = []) :
    stream.afterToken.forgetConditionals.includes = [] := by
  simp [forgetConditionals, afterToken, onCurrent, Reading.mapNext, setCurrent, outermost]

/-- A stream within an included file has the outer ones behind the end of its file. -/
theorem includes_of_inside {inner : Frame} {outer : List Frame}
    (inside : stream.includes = inner :: outer) :
    ∃ left, stream.afterToken.forgetConditionals.includes = left :: outer := by
  simp [forgetConditionals, afterToken, onCurrent, Reading.mapNext, setCurrent, inside]

section Pop

variable {found : Token} {why : Failure}

/-- A file that fails fails the stream. -/
theorem pop_of_failure (disk : Disk) (failed : stream.current.lexer.pop.result = .error why) :
    stream.pop disk = ⟨stream.current.lexer.pop.reports, .error why, stream.afterToken⟩ := by
  -- The arms that have a token are excluded.
  rw [pop]
  split
  · next other given =>
    cases failed.symm.trans given
    rfl
  · next token given => cases failed.symm.trans given

/-- A token that is neither a directive nor the end is brought as it is. -/
theorem pop_of_plain (disk : Disk) (taken : stream.current.lexer.pop.result = .ok found)
    (plain : found.kind ≠ .directive) (inside : found.isEnd = false) :
    stream.pop disk = ⟨stream.current.lexer.pop.reports, .ok found, stream.afterToken⟩ := by
  -- Of the cases of a request only the last is left.
  rw [pop]
  split
  · next why given => cases taken.symm.trans given
  · next other given =>
    cases taken.symm.trans given
    rw [dif_neg plain, if_neg (by simp [inside])]
    rfl

/-- A directive that fails fails the stream. -/
theorem pop_of_refused (taken : stream.current.lexer.pop.result = .ok found)
    (directive : found.kind = .directive)
    (failed : (stream.afterToken.carryOut disk found).result = .error why) :
    stream.pop disk =
      ⟨stream.current.lexer.pop.reports ++ (stream.afterToken.carryOut disk found).reports,
        .error why, (stream.afterToken.carryOut disk found).next⟩ := by
  -- The directive was taken, and carrying it out failed.
  rw [pop]
  split
  · next other given => cases taken.symm.trans given
  · next other given =>
    cases taken.symm.trans given
    rw [dif_pos directive]
    dsimp only
    split
    · next other given =>
      cases failed.symm.trans given
      rfl
    · next given => cases failed.symm.trans given

/-- Behind a directive that is carried out the stream goes on. -/
theorem pop_of_carried (taken : stream.current.lexer.pop.result = .ok found)
    (directive : found.kind = .directive)
    (done : (stream.afterToken.carryOut disk found).result = .ok ()) :
    stream.pop disk = ((stream.afterToken.carryOut disk found).next.pop disk).after
      (stream.current.lexer.pop.reports ++ (stream.afterToken.carryOut disk found).reports) := by
  -- The directive was carried out, and the stream goes on behind it.
  rw [pop]
  split
  · next other given => cases taken.symm.trans given
  · next other given =>
    cases taken.symm.trans given
    rw [dif_pos directive]
    dsimp only
    split
    · next other given => cases done.symm.trans given
    · rfl

/-- The end of the root file is the end of the stream. -/
theorem pop_of_end (disk : Disk) (taken : stream.current.lexer.pop.result = .ok found)
    (ended : found.isEnd = true) (outermost : stream.includes = []) :
    stream.pop disk = ⟨stream.current.lexer.pop.reports ++ stream.openConditionals, .ok found,
      { stream.afterToken.forgetConditionals with done := true }⟩ := by
  rw [pop]
  split
  · next other given => cases taken.symm.trans given
  · next other given =>
    cases taken.symm.trans given
    -- No directive is the end of a file.
    rw [dif_neg (fun directive => by simp [Token.isEnd, directive] at ended), if_pos ended,
      openConditionals_afterToken]
    dsimp only
    split
    · rfl
    · next inner outer inside => cases (includes_of_outermost outermost).symm.trans inside

/-- At the end of an included file the stream goes on behind the include. -/
theorem pop_of_leave {inner : Frame} {outer : List Frame}
    (taken : stream.current.lexer.pop.result = .ok found) (ended : found.isEnd = true)
    (inside : stream.includes = inner :: outer) :
    stream.pop disk = ((stream.afterToken.forgetConditionals.leave outer).pop disk).after
      (stream.current.lexer.pop.reports ++ stream.openConditionals) := by
  -- Taking the end leaves the includes as they are, so there is a file to go back to.
  obtain ⟨left, deeper⟩ := includes_of_inside inside
  rw [pop]
  split
  · next other given => cases taken.symm.trans given
  · next other given =>
    cases taken.symm.trans given
    rw [dif_neg (fun directive => by simp [Token.isEnd, directive] at ended), if_pos ended,
      openConditionals_afterToken]
    dsimp only
    split
    · next none => cases deeper.symm.trans none
    · next more outer' given =>
      cases deeper.symm.trans given
      rfl

end Pop

/-- The end, or a failure, is all that a stream brings. -/
theorem drain_of_last (ended : ∀ token, (stream.pop disk).result = .ok token → token.isEnd = true) :
    stream.drain disk = ⟨[], stream.pop disk⟩ := by
  -- Neither a failure nor an end has anything behind it.
  rw [drain]
  split
  · rfl
  · next token taken => rw [dif_pos (ended token taken)]

/-- A stream first brings a token in front of the end, or it ends or fails. -/
theorem token_or_last (disk : Disk) (stream : Preprocessor) :
    (∃ token, (stream.pop disk).result = .ok token ∧ token.isEnd = false) ∨
      ∀ token, (stream.pop disk).result = .ok token → token.isEnd = true := by
  -- A token has something behind it exactly if it is no end.
  cases taken : (stream.pop disk).result with
  | error => exact .inr nofun
  | ok token =>
    cases ended : token.isEnd with
    | false => exact .inl ⟨token, rfl, ended⟩
    | true =>
      refine .inr fun other same => ?_
      cases same
      exact ended

/-- A token in front of the end stands in front of what a stream brings behind it. -/
theorem drain_of_token {token : Token} (taken : (stream.pop disk).result = .ok token)
    (inside : token.isEnd = false) :
    stream.drain disk = ⟨((stream.pop disk).reports, token) ::
      ((stream.pop disk).next.drain disk).tokens, ((stream.pop disk).next.drain disk).ending⟩ := by
  -- The token is brought, and the rest is drained behind it.
  rw [drain]
  split
  · next why failed => cases taken.symm.trans failed
  · next other same =>
    cases taken.symm.trans same
    rw [dif_neg (by simp [inside])]

end Preprocessor

end ArgSchema
