import ArgSchema.Proofs.Parser.Loop
import ArgSchema.Proofs.Parser.Spans
import ArgSchema.Proofs.Preprocessor.Origin
import ArgSchema.Proofs.Preprocessor.Turns

/-! Reached states: what holds between any two turns of the loop that parses a stream. -/

namespace ArgSchema

namespace Parsing

open Relation (ReflTransGen)

/-- Parsing a stream from its start leads to a state of the loop. -/
def Reached (disk : Disk) (stream : Preprocessor) (state : Parsing) : Prop :=
  ∃ token, (stream.pop disk).result = .ok token ∧
    ReflTransGen (Turn disk) (next disk Parser.start stream token) state

/-- The spans that a state holds. -/
inductive HasSpan (state : Parsing) : Span → Prop
  /-- That of the token that is read next. -/
  | lookahead : HasSpan state state.lookahead.span
  /-- That of a token on the stack. -/
  | stacked {token : Token} : .token token ∈ state.parser.stack.symbols → HasSpan state token.span
  /-- That of a node. -/
  | grown {id : NodeId} {kind : NodeKind} {span : Span} :
      state.parser.tree.mark? id = some (kind, span) → HasSpan state span

/-- All that a state holds has ordered spans. -/
structure SpansOrdered (state : Parsing) : Prop where
  /-- What the parser holds. -/
  parser : state.parser.SpansOrdered
  /-- The token that is read next. -/
  lookahead : state.lookahead.span.Ordered
  /-- The tokens that were put back. -/
  stream : state.stream.Holds fun token => token.span.Ordered

variable {disk : Disk} {stream : Preprocessor} {state later : Parsing} {span : Span}

/-- Going on with one more token keeps spans ordered. -/
theorem spansOrdered_next {parser : Parser} {token : Token} (spans : parser.SpansOrdered)
    (holds : stream.Holds fun token => token.span.Ordered)
    (taken : (stream.pop disk).result = .ok token) : (next disk parser stream token).SpansOrdered := by
  obtain ⟨kept, ordered⟩ := holds.pop Cursor.brings_ordered disk
  exact ⟨⟨spans.stack, spans.tree⟩, ordered token taken, kept⟩

/-- Every turn keeps spans ordered. -/
theorem Turn.spansOrdered (turn : Turn disk state later) (spans : state.SpansOrdered) :
    later.SpansOrdered := by
  cases turn with
  | reduce reduces => exact ⟨reduces.spansOrdered spans.parser, spans.lookahead, spans.stream⟩
  | shift none inside taken =>
    -- The lookahead goes on the stack, and the next token is read from a text.
    exact spansOrdered_next (spans.parser.shift spans.lookahead) spans.stream taken

/-- Every span of such a state is ordered. -/
theorem HasSpan.ordered (has : state.HasSpan span) (spans : state.SpansOrdered) : span.Ordered := by
  -- A span is that of the lookahead, of a symbol, or of a node.
  cases has with
  | lookahead => exact spans.lookahead
  | stacked member => exact spans.parser.stack _ member
  | grown marked => exact spans.parser.tree _ _ _ marked

/-- Every state that parsing leads to has ordered spans. -/
theorem Reached.spansOrdered (reached : Reached disk stream state) (opens : stream.Opens disk) :
    state.SpansOrdered := by
  obtain ⟨token, taken, turns⟩ := reached
  -- From the first token on, turn by turn.
  induction turns with
  | refl => exact spansOrdered_next Parser.spansOrdered_start opens.holds taken
  | tail _ turn ih => exact turn.spansOrdered ih

/-- Every stream that parsing leads to comes from its start turn by turn. -/
theorem Reached.exists_turns (reached : Reached disk stream state) :
    ∃ count, state.stream = stream.turns disk count := by
  obtain ⟨token, taken, turns⟩ := reached
  induction turns with
  | refl =>
    -- Taking the first token is some turns of the stream.
    obtain ⟨count, pops⟩ := stream.exists_popsIn disk
    exact ⟨count + 1, pops.next⟩
  | tail _ turn ih =>
    obtain ⟨count, same⟩ := ih
    cases turn with
    | reduce => exact ⟨count, same⟩
    | @shift parser before lookahead _ none inside taken =>
      -- The lookahead goes on the stack, and taking the next token is some more turns.
      obtain ⟨more, pops⟩ := before.exists_popsIn disk
      obtain rfl : before = stream.turns disk count := same
      exact ⟨count + (more + 1), pops.next.trans (Preprocessor.turns_add ..).symm⟩

end Parsing

end ArgSchema
