import ArgSchema.Preprocessor.Stream

/-! What a stream reports and how it fails: with malformed text and directives and files that cannot be
read, never with the order in which tokens stand and never with a tree. -/

namespace ArgSchema

/-- A report that says nothing about the order of tokens, as those in front of the parser. -/
def Diagnostic.Early (report : Diagnostic) : Prop :=
  ∀ problem, report.problem ≠ .parse problem

/-- An answer from in front of the parser. -/
structure Reading.Early {stream value : Type} (reading : Reading stream value) : Prop where
  /-- No report says anything about the order of tokens. -/
  reports : ∀ report ∈ reading.reports, report.Early
  /-- A failure is none of a tree. -/
  fails : ∀ error, reading.result ≠ .error (.tree error)

namespace Reading

variable {stream value other : Type} {reading : Reading stream value}

/-- An answer that is no failure is early if its reports say nothing about tokens. -/
theorem early_of_ok {found : value} (done : reading.result = .ok found)
    (others : ∀ report ∈ reading.reports, report.Early) : reading.Early := by
  refine ⟨others, fun error failed => ?_⟩
  cases done.symm.trans failed

/-- An answer without reports that is no failure is early. -/
theorem early_of_silent {found : value} (silent : reading.reports = [])
    (done : reading.result = .ok found) : reading.Early :=
  early_of_ok done (by simp [silent])

/-- A failure is early if it is none of a tree. -/
theorem early_fail {failure : Failure} (other : ∀ error, failure ≠ .tree error) (next : stream) :
    (fail failure next : Reading stream value).Early :=
  ⟨by simp [fail], fun error failed => other error (Except.error.inj failed)⟩

/-- More reports in front of an answer leave it early, if they say nothing about tokens. -/
theorem Early.after (early : reading.Early) {reports : List Diagnostic}
    (others : ∀ report ∈ reports, report.Early) : (reading.after reports).Early :=
  ⟨fun report member => (List.mem_append.mp member).elim (others report) (early.reports report),
    early.fails⟩

/-- An answer stays early whatever stream is behind it. -/
theorem Early.mapNext {later : Type} (early : reading.Early) (f : stream → later) :
    (reading.mapNext f).Early := ⟨early.reports, early.fails⟩

/-- An answer that fails as an early one does is early, if what it reports says nothing about tokens. -/
theorem Early.of_failure {later answer : Type} {failure : Failure} (early : reading.Early)
    (failed : reading.result = .error failure) {reports : List Diagnostic}
    (others : ∀ report ∈ reports, report.Early) (next : later) :
    (⟨reports, .error failure, next⟩ : Reading later answer).Early := by
  -- The failure is the same, and the reports are taken to be early.
  refine ⟨others, fun error same => early.fails error ?_⟩
  cases same
  exact failed

/-- What goes on with an answer is early if both parts are. -/
theorem Early.andThen (early : reading.Early)
    {f : value → stream → Reading stream other}
    (later : ∀ found next, (f found next).Early) : (reading.andThen f).Early := by
  unfold Reading.andThen
  -- After a failure nothing comes, and else what comes is reported behind it.
  cases result : reading.result with
  | error failure => exact early.of_failure result early.reports reading.next
  | ok found => exact (later found reading.next).after early.reports

end Reading

/-- The text of a source is reported for what it is, whatever stands in front of it. -/
theorem Cursor.early_nextToken (breadcrumb : Breadcrumb) (cursor : Cursor) :
    (cursor.nextToken breadcrumb).Early := by
  -- Only a lexeme with a warning and one with a problem report anything.
  fun_induction nextToken breadcrumb cursor with
  | case1 => exact Reading.early_of_silent rfl rfl
  | case5 => exact Reading.early_fail (by simp) _
  | case6 cursor start first rest found lexeme stop before content opener span opening failure =>
    exact Reading.early_fail (by simp [failure]) _
  -- A lexeme with a token: its warning is none about the order of tokens.
  | case2 cursor start first rest found lexeme stop span kind text warning? content =>
    refine Reading.early_of_ok rfl fun report member problem => ?_
    obtain ⟨warning, -, rfl⟩ := List.mem_map.mp member
    simp [Diagnostic.warning, Diagnostic.located]
  | case3 cursor start first rest found lexeme stop content ih => exact ih
  -- A lexeme without one: its problem is reported, and the next one is read.
  | case4 cursor start first rest found lexeme stop problem marked content place ih =>
    refine ih.after fun report member => ?_
    rw [List.mem_singleton.mp member]
    simp [Diagnostic.Early, Diagnostic.located]

/-- Taking a token of a file says nothing about those before it. -/
theorem Lexer.early_pop (lexer : Lexer) : lexer.pop.Early := by
  unfold Lexer.pop
  -- A token that was given back was reported on when it was first read.
  cases lexer.pushed with
  | nil => exact (Cursor.early_nextToken lexer.breadcrumb lexer.cursor).mapNext _
  | cons => exact Reading.early_of_silent rfl rfl

/-- Skipping the text of a conditional reports nothing. -/
theorem Lexer.early_skipConditional (depth : Nat) (lexer : Lexer) :
    (lexer.skipConditional depth).Early := by
  -- Only a failure is reported by the step itself; everything else goes on or is silent.
  fun_induction skipConditional depth lexer with
  | case1 depth lexer failure taken =>
    exact lexer.early_pop.of_failure taken (by simp) _
  | case2 | case4 => exact Reading.early_of_silent rfl rfl
  | case3 depth lexer token taken inside opening ih => exact ih
  | case5 lexer token taken inside opening closing depth ih => exact ih
  | case6 depth lexer token taken inside opening closing ih => exact ih

/-- What is wrong with an argument is its kind. -/
theorem Frame.early_argument (directive : Token) (expected : String)
    (accepts : TokenKind → Bool) (frame : Frame) :
    (frame.argument directive expected accepts).Early := by
  have taken : frame.pop.Early := frame.lexer.early_pop.mapNext _
  refine taken.andThen fun found next => ?_
  -- The next token is the argument, or it is reported that it is none.
  split
  · exact Reading.early_of_silent rfl rfl
  · refine Reading.early_of_ok rfl fun report member => ?_
    rw [List.mem_singleton.mp member]
    simp [Diagnostic.Early, illegalArgument, Diagnostic.located]

namespace Preprocessor

variable {disk : Disk} {stream : Preprocessor}

/-- A report about a directive or a name is none about the order of tokens. -/
theorem early_reporting {report : Diagnostic} (early : report.Early) :
    (stream.reporting report).Early := by
  refine Reading.early_of_ok rfl fun other member => ?_
  rw [List.mem_singleton.mp member]
  exact early

/-- Including a file reports nothing. -/
theorem early_includeFile (name : Token) (stream : Preprocessor) :
    (stream.includeFile disk name).Early := by
  -- Opening a file fails or reports nothing.
  unfold includeFile
  dsimp only
  split
  · exact Reading.early_of_silent rfl rfl
  · split
    · exact Reading.early_fail (by simp) _
    · exact Reading.early_of_silent rfl rfl

/-- Of a library file it is reported that there is none. -/
theorem early_includeLibrary (name : Token) (stream : Preprocessor) :
    (stream.includeLibrary name).Early := by
  -- Only a name that is not known is reported.
  unfold includeLibrary
  split
  · exact early_reporting (by simp [Diagnostic.Early, Diagnostic.located])
  · dsimp only
    split <;> exact Reading.early_of_silent rfl rfl

/-- Of a conditional it is reported that it is not closed. -/
theorem early_unterminated (conditional : Conditional) :
    conditional.unterminated.Early := by
  simp [Diagnostic.Early, Conditional.unterminated, Diagnostic.located]

/-- Deciding on a conditional reports at most that it is not closed. -/
theorem early_startConditional (directive : Token) (wanted : Bool) (name : Token)
    (stream : Preprocessor) : (stream.startConditional directive wanted name).Early := by
  -- A branch that is taken is read where it stands.
  unfold startConditional
  dsimp only
  split
  · exact Reading.early_of_silent rfl rfl
  · -- The text of a branch that is not taken is skipped up to its end.
    have skipped : (stream.onCurrent fun frame =>
        (frame.lexer.skipConditional 0).mapNext frame.withLexer).Early :=
      ((stream.current.lexer.early_skipConditional 0).mapNext _).mapNext _
    refine skipped.andThen fun closed next => ?_
    split
    · exact Reading.early_of_silent rfl rfl
    · exact early_reporting (early_unterminated _)

/-- What follows the name of a directive says nothing if it does so behind every name. -/
theorem early_withName (directive : Token)
    {goOn : Token → Preprocessor → Reading Preprocessor Unit}
    (later : ∀ name next, (goOn name next).Early) :
    (stream.withName directive goOn).Early := by
  have taken : (stream.onCurrent (Frame.nameArgument directive)).Early :=
    (stream.current.early_argument directive "identifier" _).mapNext _
  refine taken.andThen fun name? next => ?_
  -- Without a name the directive ends.
  cases name? with
  | none => exact Reading.early_of_silent rfl rfl
  | some name => exact later name next

/-- Carrying out a directive reports what is wrong with that directive. -/
theorem early_carryOut (disk : Disk) (directive : Token) (stream : Preprocessor) :
    (stream.carryOut disk directive).Early := by
  have wrong : ∀ {stream : Preprocessor} {problem : DirectiveProblem} {span : Span},
      (stream.reporting (.located (.directive problem) span)).Early :=
    early_reporting (by simp [Diagnostic.Early, Diagnostic.located])
  have warned : ∀ {stream : Preprocessor} {warning : Warning} {span : Span},
      (stream.reporting (.warning warning span)).Early :=
    early_reporting (by simp [Diagnostic.Early, Diagnostic.warning, Diagnostic.located])
  -- One case for each directive, and the first for those that there are not.
  unfold carryOut
  split
  · exact wrong
  · -- An inclusion needs a name, which is that of a file or that of a library.
    have taken : (stream.onCurrent (Frame.argument directive "string or built-in identifier"
        namesInclude)).Early := (stream.current.early_argument directive _ _).mapNext _
    unfold includeNamed
    refine taken.andThen fun name? next => ?_
    cases name? with
    | none => exact Reading.early_of_silent rfl rfl
    | some name =>
      dsimp only
      split
      · exact early_includeFile name next
      · exact early_includeLibrary name next
  -- A name that is defined twice, or not at all, is warned of.
  · refine early_withName directive fun name next => ?_
    unfold define
    split
    · exact warned
    · exact Reading.early_of_silent rfl rfl
  · refine early_withName directive fun name next => ?_
    unfold undefine
    split
    · exact Reading.early_of_silent rfl rfl
    · exact warned
  · exact early_withName directive (early_startConditional directive _)
  -- A conditional is closed, or there is none to close.
  · unfold endConditional
    dsimp only
    split
    · exact wrong
    · exact Reading.early_of_silent rfl rfl

/-- At the end of a file its open conditionals are reported. -/
theorem early_openConditionals (stream : Preprocessor) :
    ∀ report ∈ stream.openConditionals, report.Early := by
  -- Each report is that of a conditional without its end.
  intro report member
  obtain ⟨conditional, -, rfl⟩ := List.mem_map.mp member
  exact early_unterminated conditional

/-- Taking a token says nothing about those before it, whatever is carried out on the way. -/
theorem early_pop (disk : Disk) (stream : Preprocessor) : (stream.pop disk).Early := by
  have taken : ∀ stream : Preprocessor, (stream.onCurrent Frame.pop).Early := fun stream =>
    (stream.current.lexer.early_pop.mapNext _).mapNext _
  -- What is reported at a directive is what its name and what carrying it out report.
  have carried : ∀ (stream : Preprocessor) (token : Token),
      ∀ report ∈ (stream.onCurrent Frame.pop).reports ++
        (stream.afterToken.carryOut disk token).reports, report.Early := by
    intro stream token report member
    exact (List.mem_append.mp member).elim ((taken stream).reports report)
      ((early_carryOut disk token stream.afterToken).reports report)
  have ended : ∀ stream : Preprocessor, ∀ report ∈ (stream.onCurrent Frame.pop).reports ++
      stream.afterToken.openConditionals, report.Early := by
    intro stream report member
    exact (List.mem_append.mp member).elim ((taken stream).reports report)
      (early_openConditionals stream.afterToken report)
  -- A directive is carried out, and at the end of a file the one that includes it goes on.
  fun_induction Preprocessor.pop disk stream with
  | case1 stream reports failure failed =>
    exact (taken stream).of_failure failed (taken stream).reports _
  | case2 stream reports token found directive next failure failed =>
    exact (early_carryOut disk token stream.afterToken).of_failure failed (carried stream token) _
  | case3 stream reports token found directive next done ih => exact ih.after (carried stream token)
  | case4 stream reports token => exact Reading.early_of_ok rfl (ended stream)
  | case5 stream reports token found directive last more inner outer deeper ih =>
    exact ih.after (ended stream)
  | case6 stream reports token => exact Reading.early_of_ok rfl (taken stream).reports

/-- All that a stream reports on the way to its end says nothing about the order of tokens. -/
theorem early_drain (disk : Disk) (stream : Preprocessor) :
    (∀ step ∈ (stream.drain disk).tokens, ∀ report ∈ step.1, report.Early) ∧
      (stream.drain disk).ending.Early := by
  fun_induction Preprocessor.drain disk stream with
  | case1 stream | case2 stream => exact ⟨by simp, early_pop disk stream⟩
  -- The first token comes with the reports in front of it, and the rest by induction.
  | case3 stream token taken inside rest ih =>
    refine ⟨fun step member => ?_, ih.2⟩
    rcases List.mem_cons.mp member with rfl | member
    · exact (early_pop disk stream).reports
    · exact ih.1 step member

end Preprocessor

end ArgSchema
