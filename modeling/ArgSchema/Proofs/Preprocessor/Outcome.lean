import ArgSchema.Proofs.Preprocessor.Splices
import ArgSchema.Proofs.Preprocessor.Steps

/-! All that a stream brings, as one equation for each thing that its text can go on with. -/

namespace ArgSchema

/-- The reports and tokens of a stream, in order, without the end token. -/
def TokenStream.brought (stream : TokenStream) : List Emitted :=
  stream.tokens.flatMap (fun step => step.1.map .report ++ [.token step.2]) ++
    stream.ending.reports.map .report

/-- What is brought, and how it ends, with more in front of it. -/
def bring {ending : Type} (first : List Emitted) (rest : List Emitted × ending) :
    List Emitted × ending :=
  (first ++ rest.1, rest.2)

/-- Bringing twice is bringing all at once. -/
theorem bring_bring {ending : Type} (first second : List Emitted) (rest : List Emitted × ending) :
    bring first (bring second rest) = bring (first ++ second) rest := by
  simp [bring]

namespace Preprocessor

variable {disk : Disk} {stream : Preprocessor} {reports : List Diagnostic}

/-- All that a stream brings, and the end token or the failure in its place. -/
def outcome (disk : Disk) (stream : Preprocessor) : List Emitted × Except Failure Token :=
  ((stream.drain disk).brought, (stream.drain disk).ending.result)

/-- A stream that ends or fails brings its reports. -/
theorem outcome_of_last (ended : ∀ token, (stream.pop disk).result = .ok token → token.isEnd = true) :
    stream.outcome disk = ((stream.pop disk).reports.map .report, (stream.pop disk).result) := by
  rw [outcome, drain_of_last ended]
  rfl

/-- A stream brings a token behind its reports, and then what follows. -/
theorem outcome_of_token {token : Token} (taken : (stream.pop disk).result = .ok token)
    (inside : token.isEnd = false) :
    stream.outcome disk = bring ((stream.pop disk).reports.map .report ++ [.token token])
      ((stream.pop disk).next.outcome disk) := by
  rw [outcome, drain_of_token taken inside]
  simp [outcome, bring, TokenStream.brought]

/-- A stream that first reports and then goes on as another brings the reports and what the other
brings. -/
theorem outcome_of_after {later : Preprocessor}
    (goes : stream.pop disk = (later.pop disk).after reports) :
    stream.outcome disk = bring (reports.map .report) (later.outcome disk) := by
  -- The other stream brings a token first, and more behind it, or it is at its last.
  rcases token_or_last disk later with ⟨token, taken, inside⟩ | ended
  · have same : (stream.pop disk).result = .ok token := by rw [goes]; exact taken
    rw [outcome_of_token same inside, outcome_of_token taken inside, bring_bring, goes]
    simp [Reading.after]
  · rw [outcome_of_last ended, outcome_of_last (by rw [goes]; exact ended), goes]
    simp [Reading.after, bring]

section Texts

variable {found : Token} {rest : RawText} {more : List Diagnostic}

/-- A file that fails fails the stream. -/
theorem outcome_of_failure {why : Failure}
    (brings : stream.current.lexer.raw = .failure reports why) :
    stream.outcome disk = (reports.map .report, .error why) := by
  -- The next token is the last step, and that fails with what the lexer reports.
  obtain ⟨rfl, failed⟩ := Lexer.pop_of_failure brings
  have popped := pop_of_failure disk failed
  rw [outcome_of_last (by rw [popped]; exact nofun), popped]

/-- A token that is no directive is brought as it is. -/
theorem outcome_of_plain (brings : stream.current.lexer.raw = .token reports found rest)
    (plain : found.kind ≠ .directive) :
    stream.outcome disk =
      bring (reports.map .report ++ [.token found]) (stream.afterToken.outcome disk) := by
  -- One request takes it from the current frame, and the others are those of the stream behind it.
  obtain ⟨rfl, taken, inside, -⟩ := Lexer.pop_of_token brings
  have popped := pop_of_plain disk taken plain inside
  have brought : (stream.pop disk).result = .ok found := by rw [popped]
  rw [outcome_of_token brought inside, popped]

/-- A directive that fails fails the stream. -/
theorem outcome_of_refused {why : Failure}
    (brings : stream.current.lexer.raw = .token reports found rest)
    (directive : found.kind = .directive)
    (reported : (stream.afterToken.carryOut disk found).reports = more)
    (failed : (stream.afterToken.carryOut disk found).result = .error why) :
    stream.outcome disk = ((reports ++ more).map .report, .error why) := by
  -- The directive is the last step, and it adds its reports to the token's.
  obtain ⟨rfl, taken, -⟩ := Lexer.pop_of_token brings
  have popped := pop_of_refused taken directive failed
  rw [outcome_of_last (by rw [popped]; exact nofun), popped, reported]

/-- Behind a directive that is carried out the stream goes on. -/
theorem outcome_of_carried (brings : stream.current.lexer.raw = .token reports found rest)
    (directive : found.kind = .directive)
    (reported : (stream.afterToken.carryOut disk found).reports = more)
    (done : (stream.afterToken.carryOut disk found).result = .ok ()) :
    stream.outcome disk = bring ((reports ++ more).map .report)
      ((stream.afterToken.carryOut disk found).next.outcome disk) := by
  obtain ⟨rfl, taken, -⟩ := Lexer.pop_of_token brings
  rw [outcome_of_after (pop_of_carried taken directive done), reported]

/-- The end of the root file is the end of the stream. -/
theorem outcome_of_end (brings : stream.current.lexer.raw = .ending reports found)
    (outermost : stream.includes = []) :
    stream.outcome disk = ((reports ++ stream.openConditionals).map .report, .ok found) := by
  obtain ⟨rfl, taken, ended⟩ := Lexer.pop_of_ending brings
  have popped := pop_of_end disk taken ended outermost
  -- The token that ends the root file is the end token, so the stream is at its last.
  rw [outcome_of_last (fun token other => ?_), popped]
  rw [popped] at other
  cases other
  exact ended

/-- At the end of an included file the stream goes on behind the include. -/
theorem outcome_of_leave {inner : Frame} {outer : List Frame}
    (brings : stream.current.lexer.raw = .ending reports found)
    (inside : stream.includes = inner :: outer) :
    stream.outcome disk = bring ((reports ++ stream.openConditionals).map .report)
      ((stream.afterToken.forgetConditionals.leave outer).outcome disk) := by
  obtain ⟨rfl, taken, ended⟩ := Lexer.pop_of_ending brings
  exact outcome_of_after (pop_of_leave taken ended inside)

end Texts

end Preprocessor

end ArgSchema
