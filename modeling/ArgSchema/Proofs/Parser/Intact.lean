import ArgSchema.Proofs.Lexer.Reads
import ArgSchema.Proofs.Parser.Reached
import ArgSchema.Proofs.Parser.Stages
import ArgSchema.Proofs.Preprocessor.Plain
import ArgSchema.Proofs.Preprocessor.Reports

/-! Intact parses: no rule asks the tree for anything that it refuses, and none loses a symbol, so that
the stack is always made of the tokens that were read and not dropped. -/

namespace ArgSchema

namespace Parsing

/-- The tokens that a state has still to shift. -/
def ahead (disk : Disk) (state : Parsing) : List Token :=
  if state.lookahead.isEnd then [] else state.lookahead :: (state.stream.drain disk).toList

/-- The tokens that were shifted on the way to a state, and those of them that no rule dropped. -/
inductive Ledger (disk : Disk) (stream : Preprocessor) : Parsing → List Token → List Token → Prop
  /-- At first nothing is shifted. -/
  | start {token : Token} : (stream.pop disk).result = .ok token →
      Ledger disk stream (next disk Parser.start stream token) [] []
  /-- A rule drops the last tokens that were left, or none. -/
  | reduce {parser next : Parser} {source : Preprocessor} {lookahead : Token}
      {shifted kept : List Token} :
      Ledger disk stream ⟨parser, source, lookahead⟩ shifted (kept ++ parser.discards) →
      parser.Reduces next → Ledger disk stream ⟨next, source, lookahead⟩ shifted kept
  /-- The lookahead is shifted. -/
  | shift {parser : Parser} {source : Preprocessor} {lookahead token : Token}
      {shifted kept : List Token} :
      Ledger disk stream ⟨parser, source, lookahead⟩ shifted kept → parser.reduction? = none →
      lookahead.isEnd = false → (source.pop disk).result = .ok token →
      Ledger disk stream (next disk (parser.shift lookahead) source token) (shifted ++ [lookahead])
        (kept ++ [lookahead])

variable {disk : Disk} {stream : Preprocessor} {state later : Parsing} {shifted kept : List Token}

/-- A parser that has read nothing has nothing left to do. -/
theorem stage_start : Parser.start.Stage [] := .still Stacked.empty trivial .nothing

/-- A state with a ledger stands at a stage that is made of the tokens that are left. -/
theorem Ledger.stage (ledger : Ledger disk stream state shifted kept) : state.parser.Stage kept := by
  induction ledger with
  | start => exact stage_start.record _
  -- Every rule leads from stage to stage, and a token is read when no rule applies.
  | @reduce parser next source lookahead shifted kept _ reduces ih =>
    have moves : parser.Moves (kept ++ parser.discards) parser.reduction? := ih.moves
    -- What the rule leaves is known, as it drops the same tokens from both.
    rw [show parser.reduction? = some (.ok next) from reduces] at moves
    cases moves with
    | goes rest same stage => exact List.append_cancel_right same ▸ stage
  | @shift parser source lookahead token shifted kept _ none _ _ ih =>
    have moves : parser.Moves kept parser.reduction? := ih.moves
    rw [none] at moves
    exact (moves.shift lookahead).record _

/-- Every state that parsing leads to has a ledger. -/
theorem Reached.exists_ledger (reached : Reached disk stream state) :
    ∃ shifted kept, Ledger disk stream state shifted kept := by
  obtain ⟨token, taken, turns⟩ := reached
  -- From the first token on, turn by turn.
  induction turns with
  | refl => exact ⟨[], [], .start taken⟩
  | tail _ turn ih =>
    obtain ⟨shifted, kept, ledger⟩ := ih
    cases turn with
    | @reduce parser next source lookahead reduces =>
      have moves : parser.Moves kept parser.reduction? := ledger.stage.moves
      -- What a rule drops are always the last tokens that were left.
      rw [show parser.reduction? = some (.ok next) from reduces] at moves
      cases moves with
      | goes rest same => exact ⟨shifted, rest, .reduce (same ▸ ledger) reduces⟩
    | shift none inside taken => exact ⟨_, _, .shift ledger none inside taken⟩

/-- A state with a ledger is one that parsing leads to. -/
theorem Ledger.reached (ledger : Ledger disk stream state shifted kept) :
    Reached disk stream state := by
  -- A ledger is kept along the turns of a run.
  induction ledger with
  | start taken => exact ⟨_, taken, .refl⟩
  | reduce _ reduces ih =>
    obtain ⟨token, taken, turns⟩ := ih
    exact ⟨token, taken, turns.tail (.reduce reduces)⟩
  | shift _ none inside more ih =>
    obtain ⟨token, taken, turns⟩ := ih
    exact ⟨token, taken, turns.tail (.shift none inside more)⟩

/-- What is left are some of the tokens that were shifted, in their order. -/
theorem Ledger.sublist (ledger : Ledger disk stream state shifted kept) : kept.Sublist shifted := by
  induction ledger with
  -- A rule shortens what is left, and a token that is shifted comes to both.
  | start => exact .refl []
  | reduce _ _ ih => exact (List.sublist_append_left _ _).trans ih
  | shift _ _ _ _ ih => exact ih.append (.refl _)

/-- A state that goes on with a token has all the tokens of the stream ahead. -/
theorem ahead_next {token : Token} (taken : (stream.pop disk).result = .ok token) (parser : Parser) :
    (next disk parser stream token).ahead disk = (stream.drain disk).toList := by
  unfold ahead next
  dsimp only
  -- A token in front of the end is the first that the stream brings.
  split
  · next ended =>
    rw [Preprocessor.drain_of_last fun other same => Except.ok.inj (taken.symm.trans same) ▸ ended]
    rfl
  · next inside =>
    rw [Preprocessor.drain_of_token taken (by simpa using inside)]
    rfl

/-- What was shifted and what is ahead are the tokens of the stream. -/
theorem Ledger.shifted_append_ahead (ledger : Ledger disk stream state shifted kept) :
    shifted ++ state.ahead disk = (stream.drain disk).toList := by
  induction ledger with
  | start taken => exact ahead_next taken Parser.start
  | reduce _ _ ih => exact ih
  | @shift parser source lookahead token shifted kept _ _ inside taken ih =>
    -- The lookahead was the first token ahead, and is the last that was shifted.
    rw [ahead_next taken, ← ih, ahead, if_neg (by simp [inside]), List.append_assoc]
    rfl

/-- When no rule applies and nothing is read any more, the stack becomes a file or is refused with
reports, and nothing goes wrong. -/
theorem Ledger.finishes (ledger : Ledger disk stream state shifted kept)
    (none : state.parser.reduction? = none) (ending : Span) :
    ∃ finished, state.parser.attemptFinish ending = .ok finished ∧
      state.parser.finish ending = .ok finished := by
  have moves := ledger.stage.moves
  -- Without a rule the stack shows phrases in a well-formed tree.
  rw [none] at moves
  cases moves with
  | rests shows =>
    obtain ⟨finished, done, -⟩ := Parser.finish_of_shows shows ending
    exact ⟨finished, (Parser.attemptFinish_eq shows.forest ending).trans done, done⟩

end Parsing

namespace Preprocessor

open Parsing

variable {disk : Disk} {stream : Preprocessor}

/-- Parsing never fails with a tree. -/
theorem parse_ne_tree (disk : Disk) (stream : Preprocessor) (error : TreeError) :
    (stream.parse disk).result ≠ .error (.tree error) := by
  have runs := stream.parse_runs disk
  unfold Runs at runs
  intro failed
  cases taken : (stream.pop disk).result with
  | error failure =>
    rw [taken] at runs
    -- The first token may fail, as any other, but never with a tree.
    dsimp only at runs
    rw [runs] at failed
    exact (early_pop disk stream).fails error (taken.trans (by cases failed; rfl))
  | ok token =>
    rw [taken] at runs
    obtain ⟨last, -, ends⟩ := runs
    generalize stream.parse disk = parsed at ends failed
    -- The loop ends with a tree, or with the failure of the next token.
    cases ends with
    | finished => cases failed
    | @failed _ source _ _ _ _ why =>
      exact (early_pop disk source).fails error (why.trans (by cases failed; rfl))

/-- Parsing never fails with a tree. At every state that it leads to, the rule for the top of the
stack is carried out without being refused by the tree and without losing a symbol, and so is the end
if there is no rule. The stack of every state, each symbol with the tokens that it was made of, is what
was shifted without what rules dropped. -/
theorem parse_intact (disk : Disk) (stream : Preprocessor) :
    (∀ error, (stream.parse disk).result ≠ .error (.tree error)) ∧
    ∀ state, Reached disk stream state →
      (∀ lapse, state.parser.attempt ≠ .error lapse) ∧
      (∀ next, state.parser.Reduces next ↔ state.parser.attempt = .ok (some next)) ∧
      (state.parser.reduction? = none → ∀ ending, ∃ finished,
        state.parser.attemptFinish ending = .ok finished ∧
        state.parser.finish ending = .ok finished) ∧
      (∃ shifted kept, Ledger disk stream state shifted kept) ∧
      ∀ shifted kept, Ledger disk stream state shifted kept →
        shifted <+: (stream.drain disk).toList ∧ kept.Sublist shifted ∧
        state.parser.tree.Yields state.parser.stack.symbols kept := by
  refine ⟨parse_ne_tree disk stream, fun state reached => ?_⟩
  obtain ⟨shifted, kept, ledger⟩ := reached.exists_ledger
  -- The ledger of the state tells its stage, and the stage tells all the rest.
  obtain ⟨carried, same⟩ := ledger.stage.carries_out
  exact ⟨carried, same, ledger.finishes, ⟨shifted, kept, ledger⟩, fun shifted kept ledger =>
    ⟨⟨_, ledger.shifted_append_ahead⟩, ledger.sublist, ledger.stage.yields⟩⟩

/-- The first token that a stream brings is taken first, and the others behind it. -/
theorem pop_of_drain_cons {token : Token} {rest : List Token}
    (drained : (stream.drain disk).toList = token :: rest) :
    (stream.pop disk).result = .ok token ∧ token.isEnd = false ∧
      ((stream.pop disk).next.drain disk).toList = rest ∧
      ((stream.pop disk).next.drain disk).ending = (stream.drain disk).ending := by
  -- The stream brings a token in front of its end, or it is at its end.
  rcases token_or_last disk stream with ⟨other, taken, inside⟩ | ended
  · have whole := drain_of_token taken inside
    rw [whole] at drained ⊢
    obtain ⟨rfl, same⟩ := List.cons.inj drained
    exact ⟨taken, inside, same, rfl⟩
  · -- Without a token in front of the end the stream brings none.
    rw [drain_of_last ended] at drained
    cases drained

/-- A stream that brings no token and does not fail ends. -/
theorem pop_of_drain_nil {last : Token} (drained : (stream.drain disk).toList = [])
    (ends : (stream.drain disk).ending.result = .ok last) : (stream.pop disk).result = .ok last := by
  -- The stream is at its end, so its ending is what the pop gives.
  rcases token_or_last disk stream with ⟨other, taken, inside⟩ | ended
  · rw [drain_of_token taken inside] at drained
    cases drained
  · rw [drain_of_last ended] at ends
    exact ends

/-- The tokens of an opening bracket and a semicolon. -/
theorem reads_emptyStatement : ArgSchema.Reads (Utf8.encode "\x7b;")
    [(.openCurly, "\x7b"), (.semicolon, ";")] [] :=
  .of_scan 2 (by decide +kernel)

/-- A semicolon behind an opening bracket is shifted and dropped, and the bracket is what is left of the
two. -/
theorem parse_intact_emptyStatement :
    ∃ (disk : Disk) (stream : Preprocessor) (state : Parsing) (opening semicolon : Token),
      opening.kind = .openCurly ∧ semicolon.kind = .semicolon ∧ Reached disk stream state ∧
      Ledger disk stream state [opening, semicolon] [opening] ∧
      (∀ lapse, state.parser.attempt ≠ .error lapse) ∧
      state.parser.tree.Yields state.parser.stack.symbols [opening] := by
  -- The tokens are known up to their spans, and each step of the parse up to its state.
  let disk : Disk := .empty
  let stream := ofSource "schema" (Utf8.encode "\x7b;") []
  obtain ⟨same, ⟨last, stops⟩, -⟩ :=
    drain_of_reads disk "schema" (Utf8.encode "\x7b;") [] reads_emptyStatement (by decide)
  change (stream.drain disk).toList.map _ = _ at same
  generalize tokens : (stream.drain disk).toList = list at same
  simp only [List.map_eq_cons_iff, List.map_eq_nil_iff, Prod.mk.injEq] at same
  obtain ⟨opening, _, rfl, ⟨opens, _⟩, semicolon, _, rfl, ⟨ends, _⟩, rfl⟩ := same
  obtain ⟨first, inside, tokens, ending⟩ := pop_of_drain_cons tokens
  obtain ⟨second, inside', tokens, ending'⟩ := pop_of_drain_cons tokens
  have third := pop_of_drain_nil tokens (by rw [ending', ending]; exact stops)
  -- The bracket and the semicolon are shifted, and then the semicolon is dropped.
  have bracket : ∀ {parser : Parser} {below : List Symbol},
      parser.stack.symbols = .token opening :: below → parser.reduction? = none := by
    intro parser below symbols
    rw [Parser.reduction?, symbols]
    simp [opens, TokenKind.isValue]
  have two := ((Ledger.start first).shift rfl inside second).shift (bracket rfl) inside' third
  generalize later : next disk _ _ last = state at two
  have symbols : state.parser.stack.symbols = [.token semicolon, .token opening] := later ▸ rfl
  have discards : state.parser.discards = [semicolon] := by
    rw [Parser.discards, symbols]
    simp [opens, ends]
  -- The one rule that applies drops the semicolon with its warning.
  have reduces : state.parser.Reduces
      ((state.parser.record [.report (.warning .emptyStatement semicolon.span)]).set
        state.parser.tree [.token opening]) := by
    rw [Parser.Reduces, Parser.reduction?, symbols]
    simp [ends, TokenKind.isValue, Parser.semicolonRule?, opens]
  have dropped : Ledger disk stream ⟨_, state.stream, state.lookahead⟩ [opening, semicolon]
      [opening] := .reduce (by rw [discards]; exact two) reduces
  obtain ⟨carried, -, -, -, left⟩ := (parse_intact disk stream).2 _ dropped.reached
  exact ⟨disk, stream, _, opening, semicolon, opens, ends, dropped.reached, dropped, carried,
    (left _ _ dropped).2.2⟩

end Preprocessor

end ArgSchema
