import ArgSchema.Proofs.Lexer.Kinds
import ArgSchema.Proofs.Preprocessor.Frames
import ArgSchema.Proofs.Preprocessor.Requests
import ArgSchema.Proofs.Preprocessor.Turns

/-! Putting back: a lexer, and a stream across all its files, give their tokens as one plain text does,
whatever is shown and put back in between. -/

namespace ArgSchema

/-- Behind the end of a source the same end comes again, and nothing else is reported. -/
theorem Cursor.nextToken_again {cursor : Cursor} {breadcrumb : Breadcrumb} {last : Token}
    (taken : (cursor.nextToken breadcrumb).result = .ok last) (ended : last.isEnd = true) :
    (cursor.nextToken breadcrumb).next.nextToken breadcrumb =
      .ok last (cursor.nextToken breadcrumb).next := by
  -- Only the scan that finds no byte gives an end, and leaves a cursor with no byte.
  fun_induction nextToken breadcrumb cursor with
  | case1 cursor start found =>
    cases taken
    exact nextToken_nil found breadcrumb
  -- No token that is recognized is an end.
  | case2 cursor start first rest found lexeme stop span kind text warning content =>
    cases taken
    exact absurd (by simpa [Token.isEnd] using ended) (Lexeme.ne_endOfFile_of_token content)
  | case3 cursor start first rest found lexeme stop content ih => exact ih taken
  | case4 cursor start first rest found lexeme stop problem marked content place ih => exact ih taken
  | case5 => cases taken
  | case6 => cases taken

namespace Lexer

/-- What can be done with a lexer as a stream of tokens. -/
def operations : Operations Lexer := ⟨pop, peek, push⟩

/-- The source of a lexer is used up, and has nothing but its end. -/
structure Ends (lexer : Lexer) (last : Token) : Prop where
  /-- The end comes again and again. -/
  again : lexer.cursor.nextToken lexer.breadcrumb = .ok last lexer.cursor
  /-- It was reached. -/
  exhausted : lexer.exhausted = true

/-- At most one token is put back, and an end only where the source ends with it. -/
structure Tidy (lexer : Lexer) : Prop where
  /-- At most one token is put back. -/
  single : lexer.pushed.length ≤ 1
  /-- If it is an end, it is that of the source. -/
  ends : ∀ token ∈ lexer.pushed, token.isEnd = true → lexer.Ends token

variable {lexer : Lexer}

/-- Without a token that was put back, the end of a source comes again and again. -/
theorem Ends.pop {last : Token} (ends : lexer.Ends last) (bare : lexer.pushed = []) :
    lexer.pop = .ok last lexer := by
  -- At its end a lexer is left as it is.
  obtain ⟨cursor, breadcrumb, pushed, exhausted⟩ := lexer
  cases bare
  cases ends.exhausted
  simp [Lexer.pop, ends.again, Reading.mapNext, Reading.ok]

namespace Tidy

/-- Behind what is taken no token is put back. -/
theorem pushed_pop (tidy : lexer.Tidy) : lexer.pop.next.pushed = [] := by
  have single := tidy.single
  unfold Lexer.pop
  -- The one token that may be put back is the one that is taken.
  cases back : lexer.pushed with
  | nil => rfl
  | cons token below =>
    rw [back] at single
    exact List.length_eq_zero_iff.mp (Nat.le_zero.mp (Nat.le_of_succ_le_succ single))

/-- An end is taken where the source ends with it. -/
theorem ends_pop (tidy : lexer.Tidy) {last : Token} (taken : lexer.pop.result = .ok last)
    (ended : last.isEnd = true) : lexer.pop.next.Ends last := by
  unfold Lexer.pop at taken ⊢
  cases back : lexer.pushed with
  -- The end is read from the source, or it was read before and put back.
  | nil =>
    simp only [back, Reading.mapNext] at taken ⊢
    exact ⟨Cursor.nextToken_again taken ended, by simp [taken, ended]⟩
  | cons token below =>
    simp only [back] at taken
    cases taken
    have ends := tidy.ends last (by simp [back]) ended
    exact ⟨ends.again, ends.exhausted⟩

/-- A stream keeps its files tidy. -/
theorem stays : Stays Tidy where
  start source breadcrumb := ⟨Nat.zero_le 1, by simp [ofSource]⟩
  pop tidy := ⟨by simp [tidy.pushed_pop], by simp [tidy.pushed_pop]⟩
  back {lexer token} tidy taken := by
    refine ⟨by simp [push, tidy.pushed_pop], fun other member ended => ?_⟩
    -- The token that was just taken is the only one that is put back.
    have same : other = token := by simpa [push, tidy.pushed_pop] using member
    subst same
    have ends := tidy.ends_pop taken ended
    exact ⟨ends.again, ends.exhausted⟩

/-- Behind its end a tidy lexer has nothing but the end, also when tokens are put back. -/
theorem ended_pop (tidy : lexer.Tidy) {last : Token} (taken : lexer.pop.result = .ok last)
    (ended : last.isEnd = true) : operations.Ended lexer.pop.next last where
  again := (tidy.ends_pop taken ended).pop tidy.pushed_pop
  returns _ := rfl

/-- A tidy lexer gives what is asked for as a text does. -/
theorem replays (tidy : lexer.Tidy) : operations.Replays lexer := by
  -- The text that a lexer serves is told by the recursion on its weight.
  obtain ⟨text, serves⟩ : ∃ text, operations.Serves lexer text := by
    refine Operations.exists_serves (measure Lexer.weight).wf Tidy ?_ ?_ lexer tidy
    · -- A token takes its weight away, and can be put back as it is.
      intro lexer found tidy taken inside
      have lighter := weight_pop taken inside
      have positive := found.weight_pos
      refine ⟨fun _ => rfl, stays.pop tidy, ?_⟩
      show lexer.pop.next.weight < lexer.weight
      omega
    · exact fun tidy taken ended => tidy.ended_pop taken ended
  exact serves.replays fun _ => rfl

end Tidy

end Lexer

namespace Preprocessor

/-- What can be done with a stream of many files as a stream of tokens. -/
def operations (disk : Disk) : Operations Preprocessor := ⟨pop disk, peek disk, push⟩

variable {disk : Disk} {stream : Preprocessor}

/-- Replacing the current file by itself changes nothing. -/
theorem setCurrent_current (stream : Preprocessor) : stream.setCurrent stream.current = stream := by
  obtain ⟨root, includes, seen, defines, done⟩ := stream
  cases includes <;> rfl

/-- The token that was put back last is the next one of the current file. -/
theorem pop_current_push (stream : Preprocessor) (token : Token) :
    (stream.push token).current.lexer.pop = .ok token stream.current.lexer := by
  rw [push, current_setCurrent]
  rfl

/-- Behind a token that was put back the stream is as before. -/
theorem afterToken_push (stream : Preprocessor) (token : Token) :
    (stream.push token).afterToken = stream := by
  -- What was put back is on top of the current file, which is the root or the last file opened.
  unfold afterToken onCurrent Frame.pop
  simp only [Reading.mapNext, pop_current_push]
  unfold push
  rw [current_setCurrent]
  obtain ⟨root, includes, seen, defines, done⟩ := stream
  cases includes <;> rfl

/-- The root file is used up, and no conditional is open in it. -/
structure Done (stream : Preprocessor) : Prop where
  /-- No included file is being read. -/
  includes : stream.includes = []
  /-- No conditional is open. -/
  conditionals : stream.root.conditionals = []
  /-- The end was reached. -/
  done : stream.done = true

namespace Done

/-- Putting a token back at the end of a stream changes nothing else. -/
theorem push (done : stream.Done) (token : Token) : (stream.push token).Done := by
  -- At the end no file is included any more, so the token goes back to the root.
  obtain ⟨root, includes, seen, defines, reached⟩ := stream
  cases done.includes
  exact ⟨rfl, done.conditionals, done.done⟩

/-- Where the end was reached, setting it again changes nothing. -/
theorem forget (done : stream.Done) :
    { stream.forgetConditionals with done := true } = stream := by
  -- Behind the end there is no file open and no conditional.
  obtain ⟨⟨lexer, directory?, conditionals⟩, includes, seen, defines, reached⟩ := stream
  cases done.includes
  cases done.conditionals
  cases done.done
  rfl

/-- At the end of a stream, taking the end does no more than take it from the root file. -/
theorem pop_eq (done : stream.Done) (disk : Disk) {last : Token} {left : Lexer}
    (taken : stream.current.lexer.pop = .ok last left) (ended : last.isEnd = true)
    (behind : stream.afterToken.Done) : stream.pop disk = .ok last stream.afterToken := by
  -- No conditional is open, so nothing is reported.
  have closed : stream.openConditionals = [] := by
    simp [openConditionals, current, done.includes, done.conditionals]
  rw [pop_of_end disk (congrArg Reading.result taken) ended done.includes, closed, behind.forget,
    taken]
  rfl

/-- An end that is put back at the end of a stream is taken again. -/
theorem pop_push (done : stream.Done) (disk : Disk) {last : Token} (ended : last.isEnd = true) :
    (stream.push last).pop disk = .ok last stream := by
  have behind : (stream.push last).afterToken.Done := by rwa [afterToken_push]
  rw [(done.push last).pop_eq disk (pop_current_push stream last) ended behind, afterToken_push]

/-- Behind the end of a stream there is nothing but the end, also when tokens are put back. -/
theorem ended (done : stream.Done) (disk : Disk) {last : Token}
    (again : stream.current.lexer.pop = .ok last stream.current.lexer) (ended : last.isEnd = true) :
    (operations disk).Ended stream last where
  again := by
    -- The root file stays as it is, and so does the stream.
    have same : stream.afterToken = stream := by
      unfold afterToken onCurrent Frame.pop
      simp only [Reading.mapNext, again]
      exact setCurrent_current stream
    have popped := done.pop_eq disk again ended (by rwa [same])
    rwa [same] at popped
  returns stack := by
    -- Tokens that are put back leave the end of the stream as it is.
    have kept : ((operations disk).pushAll stream stack).Done := by
      induction stack with
      | nil => exact done
      | cons token below ih => exact ih.push token
    exact kept.pop_push disk ended

end Done

/-- A token that is neither a directive nor an end can be put back in front of any stream. -/
theorem pop_push_of_plain (disk : Disk) (stream : Preprocessor) {token : Token}
    (plain : token.kind ≠ .directive) (inside : token.isEnd = false) :
    (stream.push token).pop disk = .ok token stream := by
  -- The lexer brings the token that was put back, and it is passed on as it is.
  have taken := pop_current_push stream token
  rw [pop_of_plain disk (congrArg Reading.result taken) plain inside, taken, afterToken_push]
  rfl

/-- The last step towards a token in front of the end brings one that is no directive. -/
theorem Last.plain_of_inside {token : Token} {next : Preprocessor} (last : stream.Last token next)
    (inside : token.isEnd = false) : token.kind ≠ .directive := by
  -- A step that does not bring a plain token brings the end.
  cases last with
  | plain taken plain => exact plain
  | ended taken ended => cases ended.symm.trans inside

/-- The last step towards the end leaves a stream that has nothing but the end. -/
theorem Last.ended_of_end {last : Token} {next : Preprocessor} (step : stream.Last last next)
    (tidy : stream.All Lexer.Tidy) (ended : last.isEnd = true) (disk : Disk) :
    (operations disk).Ended next last := by
  cases step with
  | plain taken plain inside => cases ended.symm.trans inside
  | ended taken _ outermost =>
    obtain ⟨root, includes, seen, defines, done⟩ := stream
    cases outermost
    -- The root file has brought its end, and has nothing else.
    exact Done.ended ⟨rfl, rfl, rfl⟩ disk (tidy.root.ended_pop taken ended).again ended

/-- A stream of tidy files gives what is asked for as a text does. -/
theorem All.replays (tidy : stream.All Lexer.Tidy) (disk : Disk) :
    (operations disk).Replays stream := by
  -- The text that a stream serves is told by the recursion on what shrinks with each token.
  obtain ⟨text, serves⟩ : ∃ text, (operations disk).Serves stream text := by
    refine Operations.exists_serves (wellFounded_shrinks disk) (All Lexer.Tidy) ?_ ?_ stream tidy
    · -- A token in front of the end of a stream is no directive, and can be put back anywhere.
      intro stream found tidy taken inside
      obtain ⟨kept, last⟩ := tidy.pop Lexer.Tidy.stays disk
      obtain ⟨earlier, -, step⟩ := last found taken
      exact ⟨fun other => pop_push_of_plain disk other (step.plain_of_inside inside) inside, kept,
        shrinks_pop taken inside⟩
    · -- The end is that of the root file, with no file left to read.
      intro stream last tidy taken ended
      obtain ⟨earlier, tidy', step⟩ := (tidy.pop Lexer.Tidy.stays disk).2 last taken
      exact step.ended_of_end tidy' ended disk
  exact serves.replays fun _ => rfl

/-- Whatever is asked of a stream that was just opened, across all files that it includes, it gives the
tokens of a plain text, in which tokens that are put back stand in front, and reports what comes on the
way to each of them once. So does a lexer. -/
theorem replays_of_opens (disk : Disk) :
    (∀ stream, Opens disk stream → (operations disk).Replays stream) ∧
      ∀ source breadcrumb, Lexer.operations.Replays (Lexer.ofSource source breadcrumb) :=
  ⟨fun _ opens => (opens.all Lexer.Tidy.stays.start).replays disk,
    fun source breadcrumb => (Lexer.Tidy.stays.start source breadcrumb).replays⟩

/-- The name that an included file holds is put back in front of the end, where that file was left. -/
theorem replays_behind_include :
    let disk : Disk := { Disk.empty with files := [(["a"], [120])] }
    let stream := ofSource "main.adl" (Utf8.encode "#include \"a\"") []
    Opens disk stream ∧ ∃ name last : Token, name.text = "x" ∧ last.isEnd = true ∧
      ((operations disk).run [.pop, .peek, .push 0, .peek, .pop, .pop, .pop] [] stream).result =
        .ok [name, last, name, name, last, last] := by
  -- The requests cross the end of the included file, back and forth.
  intro disk stream
  let line : Bytes := [35, 105, 110, 99, 108, 117, 100, 101, 32, 34, 97, 34]
  let behind : Preprocessor :=
    ⟨⟨⟨⟨[], 1, 13, line⟩, ["main.adl"], [], false⟩, none, []⟩, [], [], [], false⟩
  let inside := (behind.see (.located ["a"])).enter
    (Frame.ofSource [120] ["main.adl", "a"] (Path.parent? "a"))
  -- The include is carried out, and the stream goes on in the file.
  obtain ⟨_, directive⟩ := Cursor.exists_nextToken (.ofSource (Utf8.encode "#include \"a\""))
    ⟨line, 1, 1, line⟩ ⟨line.drop 8, 1, 9, line⟩ .directive "include" (by decide +kernel) rfl
    (by decide) (by decide +kernel) (by decide +kernel) ["main.adl"]
  obtain ⟨quoted, path⟩ := Cursor.exists_nextToken ⟨line.drop 8, 1, 9, line⟩
    ⟨line.drop 9, 1, 10, line⟩ ⟨[], 1, 13, line⟩ .string "a" (by decide +kernel) rfl (by decide)
    (by decide +kernel) (by decide +kernel) ["main.adl"]
  have asks : stream.Asks _ _ behind := .of_cursor directive rfl rfl path rfl
  have here : behind.includePath "a" = "a" := by decide +kernel
  have key : FileKey.ofPath disk "a" = .located ["a"] := by decide +kernel
  have read : disk.read "a" = .ok [120] := by decide +kernel
  have includes : behind.includeFile disk ⟨.string, "a", quoted⟩ = .ok () inside := by
    rw [includeFile_eq, here, key, read]
    rfl
  obtain ⟨_, entered⟩ := asks.pop_of_done includes
  -- The file has one name, and behind it the root file has nothing but its end.
  obtain ⟨span, found⟩ := Cursor.exists_nextToken (.ofSource [120]) ⟨[120], 1, 1, [120]⟩
    ⟨[], 1, 2, [120]⟩ .identifier "x" (by decide +kernel) rfl (by decide) (by decide +kernel)
    (by decide +kernel) ["main.adl", "a"]
  have one : inside.current.lexer.pop = .ok ⟨.identifier, "x", span⟩
      ⟨⟨[], 1, 2, [120]⟩, ["main.adl", "a"], [], false⟩ := by
    show Lexer.pop ⟨.ofSource [120], ["main.adl", "a"], [], false⟩ = _
    simp only [Lexer.pop, found]
    rfl
  have first : inside.pop disk = .ok ⟨.identifier, "x", span⟩ inside.afterToken := by
    rw [pop_of_plain disk (congrArg Reading.result one) (by simp) rfl, one]
    rfl
  -- Behind the name both files have nothing but their ends, and that of the root file is brought.
  obtain ⟨-, here, closes⟩ := @Cursor.nextToken_end ⟨[], 1, 2, [120]⟩ rfl ["main.adl", "a"]
  obtain ⟨-, there, ends⟩ := @Cursor.nextToken_end ⟨[], 1, 13, line⟩ rfl ["main.adl"]
  have closed : inside.afterToken.current.lexer.pop.result = .ok ⟨.endOfFile, "", here⟩ := by
    rw [current_afterToken, one]
    exact closes
  have second : (inside.afterToken.pop disk).result = .ok ⟨.endOfFile, "", there⟩ := by
    rw [pop_of_leave closed rfl rfl]
    exact congrArg Reading.result
      (@pop_of_end { behind with seen := [.located ["a"]] } _ disk ends rfl rfl)
  have popped : stream.pop disk = _ := entered.trans (congrArg (Reading.after · _) first)
  have opens : Opens disk stream := .source _ _ _
  obtain ⟨text, drains, answers⟩ := (replays_of_opens disk).1 stream opens
  refine ⟨opens, ⟨.identifier, "x", span⟩, ⟨.endOfFile, "", there⟩, rfl, rfl, ?_⟩
  rw [(answers _).1]
  -- So what the stream drains to is the name and the end.
  cases drains with
  | failure taken => cases popped.symm.trans taken
  | ending taken ended =>
    cases popped.symm.trans taken
    cases ended
  | token taken _ rest =>
    cases popped.symm.trans taken
    cases rest with
    | failure taken => cases second.symm.trans (congrArg Reading.result taken)
    | token taken inside =>
      cases second.symm.trans (congrArg Reading.result taken)
      cases inside
    | ending taken =>
      cases second.symm.trans (congrArg Reading.result taken)
      rfl

end Preprocessor

end ArgSchema
