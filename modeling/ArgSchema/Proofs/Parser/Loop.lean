import ArgSchema.Proofs.Parser.Still
import ArgSchema.Proofs.Preprocessor.Steps

/-! The parser's loop: rules are applied and tokens are read until the tokens end or fail, which they do
after finitely many turns. -/

namespace ArgSchema

namespace Preprocessor

variable {disk : Disk}

/-- Reading on from a stream that advanced advances it. -/
theorem Advances.of_shrinks {stream later last : Preprocessor} (smaller : Shrinks disk stream later)
    (advances : Advances disk 0 later last) : Advances disk 0 stream last := by
  -- Fewer files to open, or as many and less to read, stay so when no more is added.
  unfold Shrinks at smaller
  unfold Advances at *
  omega

/-- Taking a token, which may be the end, never leaves more to be read. -/
theorem advances_pop {stream : Preprocessor} {token : Token}
    (taken : (stream.pop disk).result = .ok token) :
    Advances disk 0 stream (stream.pop disk).next := by
  fun_induction pop disk stream with
  | case1 => cases taken
  | case2 => cases taken
  | case3 stream reports token found directive carried done ih =>
    exact .of_shrinks (shrinks_carryOut found directive done) (ih taken)
  | case4 stream reports token found directive ended more outermost =>
    -- The end of the root file adds nothing, but it may take nothing away either.
    have first := advances_afterToken disk stream
    have second : Advances disk 0 stream.afterToken
        { stream.afterToken.forgetConditionals with done := true } :=
      .of_seen (seen_setCurrent _ _) (Nat.le_of_eq (weight_forgetConditionals _))
    exact first.trans second
  | case5 stream reports token found directive ended more inner outer deeper ih =>
    exact .of_shrinks (shrinks_leave deeper) (ih taken)
  | case6 stream => exact advances_afterToken disk stream

end Preprocessor

/-- The parser's loop between two turns. -/
structure Parsing where
  /-- The parser. -/
  parser : Parser
  /-- The stream behind the lookahead. -/
  stream : Preprocessor
  /-- The token that is read next. -/
  lookahead : Token

namespace Parsing

open Relation (ReflTransGen)

variable {disk : Disk} {state later : Parsing}

/-- The loop goes on with one more token. -/
def next (disk : Disk) (parser : Parser) (stream : Preprocessor) (token : Token) : Parsing :=
  ⟨parser.record ((stream.pop disk).reports.map .report), (stream.pop disk).next, token⟩

/-- One turn of the loop: a rule is applied, or if there is none the lookahead goes on the stack and the
next token is taken, unless the lookahead was the end. -/
inductive Turn (disk : Disk) : Parsing → Parsing → Prop
  /-- A rule applies. -/
  | reduce {parser next : Parser} {stream : Preprocessor} {lookahead : Token} :
      parser.Reduces next → Turn disk ⟨parser, stream, lookahead⟩ ⟨next, stream, lookahead⟩
  /-- No rule applies, and there is another token. -/
  | shift {parser : Parser} {stream : Preprocessor} {lookahead token : Token} :
      parser.reduction? = none → lookahead.isEnd = false → (stream.pop disk).result = .ok token →
      Turn disk ⟨parser, stream, lookahead⟩ (next disk (parser.shift lookahead) stream token)

/-- The loop is over, and this is what it leaves: no rule applies, and the tokens ended or fail. -/
inductive Ends (disk : Disk) : Parsing → Parsed → Prop
  /-- The lookahead is the end. -/
  | finished {parser finished : Parser} {stream : Preprocessor} {lookahead : Token} :
      parser.reduction? = none → lookahead.isEnd = true →
      parser.finish lookahead.span = .ok finished →
      Ends disk ⟨parser, stream, lookahead⟩ ⟨finished.events, .ok finished.tree⟩
  /-- The token behind the lookahead cannot be taken. -/
  | failed {parser : Parser} {stream : Preprocessor} {lookahead : Token} {failure : Failure} :
      parser.reduction? = none → lookahead.isEnd = false →
      (stream.pop disk).result = .error failure →
      Ends disk ⟨parser, stream, lookahead⟩
        ⟨parser.events ++ (stream.pop disk).reports.map .report, .error failure⟩

/-- Nothing follows the end of the loop. -/
theorem Ends.not_turn {parsed : Parsed} (ends : Ends disk state parsed) : ¬Turn disk state later := by
  intro turn
  -- At an end no rule applies, so only a shift is left, and that looks at the same token.
  cases ends with
  | finished none ended =>
    cases turn with
    | reduce reduces => cases none.symm.trans reduces
    | shift _ inside => cases ended.symm.trans inside
  | failed none inside failed =>
    cases turn with
    | reduce reduces => cases none.symm.trans reduces
    | shift _ _ taken => cases failed.symm.trans taken

/-- What the loop has left to do: files that were not seen, then text and the lookahead, then symbols
that rules apply to. -/
def remaining (disk : Disk) (state : Parsing) : Nat × Nat × Nat :=
  (state.stream.unseen disk, state.stream.weight + (if state.lookahead.isEnd then 0 else 1),
    state.parser.load)

/-- Every turn leaves less to do. -/
theorem Turn.remaining_lt (turn : Turn disk state later) :
    Prod.Lex (· < ·) (Prod.Lex (· < ·) (· < ·)) (later.remaining disk) (state.remaining disk) := by
  cases turn with
  | reduce reduces =>
    -- Nothing is read, and the stack has less left to be reduced.
    exact .right _ (.right _ reduces.load_lt)
  | @shift parser stream lookahead token none inside taken =>
    -- The stack may grow, but a token was taken, or a file is seen for the first time.
    have less : (stream.pop disk).next.unseen disk < stream.unseen disk ∨
        (stream.pop disk).next.unseen disk = stream.unseen disk ∧
          (stream.pop disk).next.weight + (if token.isEnd then 0 else 1) < stream.weight + 1 := by
      cases ended : token.isEnd with
      | true =>
        -- At the end the lookahead itself is what was taken away.
        have advances := Preprocessor.advances_pop taken
        unfold Preprocessor.Advances at advances
        simp only [if_true]
        omega
      | false =>
        have shrinks := Preprocessor.shrinks_pop taken ended
        unfold Preprocessor.Shrinks at shrinks
        simp only [Bool.false_eq_true, if_false]
        omega
    simp only [remaining, next, inside, Bool.false_eq_true, if_false]
    rcases less with fewer | ⟨same, lighter⟩
    · exact .left _ _ fewer
    · rw [same]
      exact .right _ (.left _ _ lighter)

/-- The loop cannot go on forever, from whatever state. -/
theorem wellFounded_turn (disk : Disk) :
    WellFounded fun later state : Parsing => Turn disk state later :=
  Subrelation.wf Turn.remaining_lt (InvImage.wf (remaining disk)
    (Prod.lex (measure id) (Prod.lex (measure id) (measure id))).wf)

/-- Rules that are applied one after the other are turns. -/
theorem turns_of_reduces (disk : Disk) {parser next : Parser}
    (reduces : ReflTransGen Parser.Reduces parser next) (stream : Preprocessor) (lookahead : Token) :
    ReflTransGen (Turn disk) ⟨parser, stream, lookahead⟩ ⟨next, stream, lookahead⟩ :=
  ReflTransGen.lift (fun parser => (⟨parser, stream, lookahead⟩ : Parsing))
    (fun _ _ step => Turn.reduce step) _ _ reduces

/-- The loop of a parser that is about to take a token leaves this: the token fails, or turns lead from
it to the end of the loop. -/
def Runs (disk : Disk) (parser : Parser) (stream : Preprocessor) (parsed : Parsed) : Prop :=
  match (stream.pop disk).result with
  | .error failure =>
    parsed = ⟨parser.events ++ (stream.pop disk).reports.map .report, .error failure⟩
  | .ok token =>
    ∃ last, ReflTransGen (Turn disk) (next disk parser stream token) last ∧ last.Ends disk parsed

/-- What is left by a loop whose next token fails. -/
theorem runs_of_failure {parser : Parser} {stream : Preprocessor} {failure : Failure}
    (failed : (stream.pop disk).result = .error failure) : Runs disk parser stream
      ⟨parser.events ++ (stream.pop disk).reports.map .report, .error failure⟩ := by
  rw [Runs, failed]

/-- What is left by a loop that takes a token. -/
theorem runs_of_turns {parser : Parser} {stream : Preprocessor} {token : Token} {parsed : Parsed}
    (taken : (stream.pop disk).result = .ok token) {last : Parsing}
    (turns : ReflTransGen (Turn disk) (next disk parser stream token) last)
    (ends : last.Ends disk parsed) : Runs disk parser stream parsed := by
  rw [Runs, taken]
  exact ⟨last, turns, ends⟩

/-- Taking all the tokens of a stream and reading them is what the loop does turn by turn. -/
theorem runs_drain (disk : Disk) (stream : Preprocessor) :
    ∀ {parser : Parser} {phrases : List Phrase}, parser.Shows phrases → Phrase.Fresh phrases →
      Runs disk parser stream (parser.run (stream.drain disk).ending (stream.drain disk).tokens) := by
  -- The stack shows phrases that are still but for the token on top, so that every reduction
  -- settles.
  induction stream using Preprocessor.drain.induct disk with
  | case1 stream failure failed =>
    intro parser phrases shows fresh
    -- The first token fails.
    rw [Preprocessor.drain_of_last (fun token taken => by cases failed.symm.trans taken)]
    have here : parser.run (stream.pop disk) [] =
        ⟨parser.events ++ (stream.pop disk).reports.map .report, .error failure⟩ := by
      simp only [Parser.run, Parser.conclude, failed]
      rfl
    rw [here]
    exact runs_of_failure failed
  | case2 stream token taken ended =>
    intro parser phrases shows fresh
    -- The first token is the end: what is on the stack is reduced and finished.
    rw [Preprocessor.drain_of_last (fun other same => by cases taken.symm.trans same; exact ended)]
    obtain ⟨settled, done, reduces, still, shows', -⟩ :=
      (shows.record ((stream.pop disk).reports.map .report)).reduce_settles fresh
    obtain ⟨finished, finish, -⟩ := Parser.finish_of_shows shows' token.span
    have here : parser.run (stream.pop disk) [] = ⟨finished.events, .ok finished.tree⟩ := by
      simp only [Parser.run, Parser.conclude, taken, done, Except.bind, finish]
    rw [here]
    exact runs_of_turns taken (turns_of_reduces disk reduces _ token) (.finished still ended finish)
  | case3 stream token taken inside ih =>
    intro parser phrases shows fresh
    have more : token.isEnd = false := by simpa using inside
    -- What is on the stack is reduced, and the token goes on top of it.
    obtain ⟨settled, done, reduces, still, shows', quiet⟩ :=
      (shows.record ((stream.pop disk).reports.map .report)).reduce_settles fresh
    rw [Preprocessor.drain_of_token taken more]
    dsimp only
    rw [Parser.run_cons done]
    have turns := turns_of_reduces disk reduces (stream.pop disk).next token
    have after := ih (shows'.shift token) (.token token quiet)
    unfold Runs at after
    -- The rest of the run is known, whether the next token fails or is read.
    cases follows : ((stream.pop disk).next.pop disk).result with
    | error failure =>
      rw [follows] at after
      rw [after]
      exact runs_of_turns taken turns (.failed still more follows)
    | ok other =>
      rw [follows] at after
      obtain ⟨last, others, ends⟩ := after
      exact runs_of_turns taken (turns.trans (.head (.shift still more follows) others)) ends

end Parsing

/-- Parsing a stream is what the loop does turn by turn from a parser that has read nothing. -/
theorem Preprocessor.parse_runs (disk : Disk) (stream : Preprocessor) :
    Parsing.Runs disk Parser.start stream (stream.parse disk) :=
  Parsing.runs_drain disk stream Stacked.empty .nil

end ArgSchema
