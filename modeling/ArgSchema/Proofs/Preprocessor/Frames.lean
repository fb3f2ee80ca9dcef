import ArgSchema.Preprocessor.Stream

/-! Files of a stream: what holds of every lexer at its start, and stays when tokens are taken and the
last one is put back, holds of all files that a stream reads. -/

namespace ArgSchema

/-- A property of lexers that stays whatever a stream does with the file. -/
structure Lexer.Stays (Q : Lexer → Prop) : Prop where
  /-- It holds at the start of a source. -/
  start : ∀ source breadcrumb, Q (ofSource source breadcrumb)
  /-- It holds behind a token that is taken. -/
  pop : ∀ {lexer : Lexer}, Q lexer → Q lexer.pop.next
  /-- It holds when that token is put back. -/
  back : ∀ {lexer : Lexer} {token : Token}, Q lexer → lexer.pop.result = .ok token →
    Q (lexer.pop.next.push token)

variable {Q : Lexer → Prop}

/-- Skipping the text of a conditional keeps the property. -/
theorem Lexer.Stays.skipConditional (stays : Lexer.Stays Q) {depth : Nat} {lexer : Lexer}
    (holds : Q lexer) : Q (lexer.skipConditional depth).next := by
  fun_induction Lexer.skipConditional depth lexer with
  | case1 depth lexer failure => exact stays.pop holds
  -- The end stops the skip, and is put back.
  | case2 depth lexer token taken => exact stays.back holds taken
  | case3 depth lexer token taken inside opening ih => exact ih (stays.pop holds)
  | case4 lexer token taken => exact stays.pop holds
  | case5 lexer token taken inside opening closing depth ih => exact ih (stays.pop holds)
  | case6 depth lexer token taken inside opening closing ih => exact ih (stays.pop holds)

/-- Taking the argument of a directive keeps the property. -/
theorem Lexer.Stays.argument (stays : Lexer.Stays Q) {frame : Frame} (holds : Q frame.lexer)
    (directive : Token) (expected : String) (accepts : TokenKind → Bool) :
    Q (frame.argument directive expected accepts).next.lexer := by
  unfold Frame.argument Reading.andThen
  simp only [Frame.pop, Reading.mapNext]
  cases taken : frame.lexer.pop.result with
  | error failure => exact stays.pop holds
  | ok token =>
    -- A token that is no argument is put back.
    simp only
    split
    · exact stays.pop holds
    · exact stays.back holds taken

namespace Preprocessor

/-- The lexers of all files that are being read have a property. -/
structure All (Q : Lexer → Prop) (stream : Preprocessor) : Prop where
  /-- In the root file. -/
  root : Q stream.root.lexer
  /-- In the included files. -/
  includes : ∀ frame ∈ stream.includes, Q frame.lexer

/-- A stream that was not read from yet: of a source, or of a file. -/
inductive Opens (disk : Disk) : Preprocessor → Prop
  /-- The stream of a source under a name. -/
  | source (name : String) (text : Bytes) (defines : List String) :
      Opens disk (ofSource name text defines)
  /-- The stream of the file at a path. -/
  | file {path : String} {defines : List String} {stream : Preprocessor} :
      openFile disk path defines = .ok stream → Opens disk stream

variable {stream : Preprocessor} {disk : Disk}

/-- In a stream that was not read from, all files are at their start. -/
theorem Opens.all (opens : Opens disk stream)
    (start : ∀ source breadcrumb, Q (Lexer.ofSource source breadcrumb)) : stream.All Q := by
  cases opens with
  | source name text defines => exact ⟨start _ _, by simp [ofSource]⟩
  -- A file is opened with a new lexer, or not at all.
  | file opened =>
    unfold openFile at opened
    split at opened
    · cases opened
    · cases opened
      exact ⟨start _ _, by simp⟩

namespace All

/-- The current file has the property. -/
theorem current (all : stream.All Q) : Q stream.current.lexer := by
  -- The current file is the root or the last that was entered.
  unfold Preprocessor.current
  cases inside : stream.includes with
  | nil => exact all.root
  | cons frame outer => exact all.includes frame (by simp [inside])

/-- The current file can be replaced by one that has the property. -/
theorem setCurrent (all : stream.All Q) {frame : Frame} (fits : Q frame.lexer) :
    (stream.setCurrent frame).All Q := by
  unfold Preprocessor.setCurrent
  -- The current file is the innermost one.
  cases inside : stream.includes with
  | nil => exact ⟨fits, by simp⟩
  | cons first outer =>
    refine ⟨all.root, fun other member => ?_⟩
    rcases List.mem_cons.mp member with rfl | member
    · exact fits
    · exact all.includes other (by simp [inside, member])

/-- The files behind an include that has ended have the property. -/
theorem leave (all : stream.All Q) {inner : Frame} {outer : List Frame}
    (inside : stream.includes = inner :: outer) : (stream.leave outer).All Q :=
  ⟨all.root, fun frame member => all.includes frame (inside ▸ List.mem_cons_of_mem _ member)⟩

/-- Forgetting conditionals keeps the property. -/
theorem forgetConditionals (all : stream.All Q) : stream.forgetConditionals.All Q :=
  all.setCurrent all.current

variable (stays : Lexer.Stays Q)

include stays

/-- A new file can be entered. -/
theorem enter (all : stream.All Q) (key : FileKey) (source : Bytes) (breadcrumb : Breadcrumb)
    (directory? : Option String) :
    ((stream.see key).enter (Frame.ofSource source breadcrumb directory?)).All Q := by
  -- The file entered is the first of the includes, and it is at its start.
  refine ⟨all.root, fun other member => ?_⟩
  rcases List.mem_cons.mp member with rfl | member
  · exact stays.start _ _
  · exact all.includes other member

/-- What follows the argument of a directive keeps the property if it does so for every stream. -/
theorem argument (all : stream.All Q) (directive : Token) (expected : String)
    (accepts : TokenKind → Bool) {goOn : Token → Preprocessor → Reading Preprocessor Unit}
    (later : ∀ name {next : Preprocessor}, next.All Q → (goOn name next).next.All Q) :
    ((stream.onCurrent (Frame.argument directive expected accepts)).andThen
      fun name? next => match name? with
        | none => .ok () next
        | some name => goOn name next).next.All Q := by
  have kept := all.setCurrent (stays.argument all.current directive expected accepts)
  unfold Reading.andThen onCurrent
  simp only [Reading.mapNext]
  cases (stream.current.argument directive expected accepts).result with
  | error failure => exact kept
  | ok name? =>
    -- Without a name the directive ends, and the stream is the one behind the argument.
    cases name? with
    | none => exact kept
    | some name => exact later name kept

/-- Including a file keeps the property. -/
theorem includeFile (all : stream.All Q) (name : Token) :
    (stream.includeFile disk name).next.All Q := by
  -- A file that was seen is not entered again.
  unfold Preprocessor.includeFile
  simp only
  split
  · exact all
  · -- A file that is entered is at its start, whatever there was outside it.
    split
    · exact ⟨all.root, all.includes⟩
    · exact all.enter stays _ _ _ _

/-- Including a library file keeps the property. -/
theorem includeLibrary (all : stream.All Q) (name : Token) :
    (stream.includeLibrary name).next.All Q := by
  -- Only a library file that was not used is entered.
  unfold Preprocessor.includeLibrary
  split
  · exact all
  · simp only
    split
    · exact all
    · exact all.enter stays _ _ _ _

/-- Deciding on a conditional keeps the property. -/
theorem startConditional (all : stream.All Q) (directive : Token) (wanted : Bool) (name : Token) :
    (stream.startConditional directive wanted name).next.All Q := by
  -- A branch that is taken is read where it stands.
  unfold Preprocessor.startConditional
  simp only
  split
  · exact all.setCurrent all.current
  · -- Skipping a branch takes tokens from the current file only.
    have skipped : Q (stream.current.withLexer
        (stream.current.lexer.skipConditional 0).next).lexer := stays.skipConditional all.current
    have kept := all.setCurrent skipped
    unfold Reading.andThen onCurrent
    simp only [Reading.mapNext]
    split
    · simp only [Reading.after]
      split <;> exact kept
    · exact kept

/-- Carrying out a directive keeps the property. -/
theorem carryOut (all : stream.All Q) (directive : Token) :
    (stream.carryOut disk directive).next.All Q := by
  -- A directive takes its argument at most, reads another file, or changes the names.
  unfold Preprocessor.carryOut
  split
  · exact all
  · refine all.argument stays _ _ _ fun name next kept => ?_
    split
    · exact kept.includeFile stays name
    · exact kept.includeLibrary stays name
  · refine all.argument stays _ _ _ fun name next kept => ?_
    unfold define
    split
    · exact kept
    · exact ⟨kept.root, kept.includes⟩
  · refine all.argument stays _ _ _ fun name next kept => ?_
    unfold undefine
    split
    · exact ⟨kept.root, kept.includes⟩
    · exact kept
  · exact all.argument stays _ _ _ fun name next kept => kept.startConditional stays directive _ name
  · unfold endConditional
    simp only
    split
    · exact all
    · exact all.setCurrent all.current

/-- The stream behind a token keeps the property. -/
theorem afterToken (all : stream.All Q) : stream.afterToken.All Q := by
  have taken : Q stream.current.pop.next.lexer := stays.pop all.current
  exact all.setCurrent taken

end All

/-- The last step towards a token: a stream whose current file brings the token, and the stream that is
left. -/
inductive Last (stream : Preprocessor) (token : Token) : Preprocessor → Prop
  /-- The token is neither a directive nor the end. -/
  | plain : stream.current.lexer.pop.result = .ok token → token.kind ≠ .directive →
      token.isEnd = false → Last stream token stream.afterToken
  /-- The token is the end of the root file. -/
  | ended : stream.current.lexer.pop.result = .ok token → token.isEnd = true →
      stream.includes = [] →
      Last stream token { stream.afterToken.forgetConditionals with done := true }

/-- Whatever the last step is, the current file brings the token. -/
theorem Last.taken {token : Token} {next : Preprocessor} (last : stream.Last token next) :
    stream.current.lexer.pop.result = .ok token := by
  cases last with
  | plain taken => exact taken
  | ended taken => exact taken

/-- Taking a token keeps the property in all files, and the last step towards the token is made from a
stream with the property. -/
theorem All.pop (stays : Lexer.Stays Q) (disk : Disk) (all : stream.All Q) :
    (stream.pop disk).next.All Q ∧ ∀ token, (stream.pop disk).result = .ok token →
      ∃ earlier : Preprocessor, earlier.All Q ∧ earlier.Last token (stream.pop disk).next := by
  fun_induction Preprocessor.pop disk stream with
  | case1 stream reports failure taken => exact ⟨all.afterToken stays, by simp⟩
  | case2 stream reports token taken directive carried failure =>
    exact ⟨(all.afterToken stays).carryOut stays token, by simp⟩
  | case3 stream reports token taken directive carried done ih =>
    exact ih ((all.afterToken stays).carryOut stays token)
  -- The end of the root file is what the stream brings.
  | case4 stream reports token taken directive ended reports' outermost =>
    have kept := (all.afterToken stays).forgetConditionals
    refine ⟨⟨kept.root, kept.includes⟩, ?_⟩
    rintro _ ⟨⟩
    refine ⟨stream, all, .ended taken ended ?_⟩
    cases inside : stream.includes with
    | nil => rfl
    | cons inner outer => simp [Preprocessor.forgetConditionals, Preprocessor.afterToken, onCurrent,
        Reading.mapNext, Preprocessor.setCurrent, inside] at outermost
  -- Behind the end of an included file the outer ones are as they were.
  | case5 stream reports token taken directive ended more inner outer deeper ih =>
    exact ih ((all.afterToken stays).forgetConditionals.leave deeper)
  | case6 stream reports token taken directive ended =>
    refine ⟨all.afterToken stays, ?_⟩
    rintro _ ⟨⟩
    exact ⟨stream, all, .plain taken directive (by simpa using ended)⟩

end Preprocessor

end ArgSchema
