import ArgSchema.Proofs.Lexer.Gaps
import ArgSchema.Proofs.Lexer.Places

/-! Sealed bytes: each token without errors is a gap and bytes that are that token wherever they stand. -/

namespace ArgSchema

/-- Whether a report is an error. -/
def Diagnostic.IsError (report : Diagnostic) : Prop := report.severity = .error

/-- A warning is no error. -/
theorem Diagnostic.not_isError_warning (warning : Warning) (span : Span) :
    ¬(Diagnostic.warning warning span).IsError := nofun

/-- A problem with the text of a token is an error. -/
theorem Diagnostic.isError_lexical (problem : LexicalProblem) (span : Span) :
    (Diagnostic.located (.lexical problem) span).IsError := rfl

/-- Bytes that are read as a certain token, whatever parted bytes follow them. -/
structure Sealed (slice : Bytes) (kind : TokenKind) (text : String) : Prop where
  /-- The first byte starts the token, and the others belong to it. -/
  reads : ∃ first body warning?, slice = first :: body ∧ isBlank first = false ∧ first < 0x80 ∧
    ∀ other, Parted other →
      Lexeme.recognize first (body ++ other) = ⟨.token kind text warning?, body.length⟩
  /-- The last byte is no line end. -/
  solid : Solid slice
  /-- The token is not the end of the text. -/
  inside : kind ≠ .endOfFile

namespace Sealed

variable {slice : Bytes} {kind : TokenKind} {text : String}

/-- A token has at least one byte. -/
theorem ne_nil (whole : Sealed slice kind text) : slice ≠ [] := by
  obtain ⟨first, body, -, rfl, -⟩ := whole.reads
  simp

/-- The bytes of a token that is recognized are sealed. -/
theorem of_recognize {first : UInt8} {rest : Bytes} {warning? : Option Warning}
    (start : isBlank first = false)
    (content : (Lexeme.recognize first rest).content = .token kind text warning?) :
    ∃ body after, rest = body ++ after ∧
      (Lexeme.recognize first rest).length = (first :: body).length ∧
      Sealed (first :: body) kind text := by
  -- The lexeme looks at the token's bytes and at what parts it from the rest.
  obtain ⟨body, after, rfl, length, solid, same⟩ := Lexeme.local_recognize first rest _ _ _ content
  have whole : Lexeme.recognize first (body ++ after) = ⟨.token kind text warning?, body.length⟩ := by
    rw [← content]
    unfold Lexeme.length at length
    rw [show body.length = (Lexeme.recognize first (body ++ after)).tail by omega]
  refine ⟨body, after, rfl, by rw [length, List.length_cons, Nat.add_comm], ?_, ?_, ?_⟩
  · exact ⟨first, body, warning?, rfl, start, Lexeme.small_of_token content, fun other parted =>
      (same other parted).trans whole⟩
  · intro last
    cases body with
    | nil =>
      obtain rfl : first = byte '\n' := Option.some.inj last
      cases start
    | cons b more => exact solid (by rwa [List.getLast?_cons_cons] at last)
  · exact Lexeme.ne_endOfFile_of_token content

/-- Sealed bytes are read as their token in front of parted bytes, and reading goes on behind them. -/
theorem nextToken (whole : Sealed slice kind text) {cursor : Cursor} {rest : Bytes}
    (found : cursor.rest = slice ++ rest) (parted : Parted rest) (breadcrumb : Breadcrumb) :
    (∀ report ∈ (cursor.nextToken breadcrumb).reports, ¬report.IsError) ∧
      (∃ span, (cursor.nextToken breadcrumb).result = .ok ⟨kind, text, span⟩) ∧
      (cursor.nextToken breadcrumb).next = cursor.advance slice.length := by
  obtain ⟨first, body, warning?, rfl, start, -, same⟩ := whole.reads
  have read := same rest parted
  rw [List.cons_append] at found
  have content : (Lexeme.recognize first (body ++ rest)).content = .token kind text warning? := by
    rw [read]
  rw [Cursor.nextToken_of_token found start content, read]
  -- At most a warning is reported.
  refine ⟨fun report member => ?_, ⟨_, rfl⟩, rfl⟩
  obtain ⟨warning, -, rfl⟩ := List.mem_map.mp member
  exact Diagnostic.not_isError_warning _ _

end Sealed

namespace Cursor

/-- Without errors, what is neither blank nor a comment is a token. -/
theorem exists_token_of_clean {cursor : Cursor} {breadcrumb : Breadcrumb} {token : Token}
    {first : UInt8} {rest : Bytes} (found : cursor.rest = first :: rest)
    (start : isBlank first = false) (other : (Lexeme.recognize first rest).content ≠ .comment)
    (taken : (cursor.nextToken breadcrumb).result = .ok token)
    (clean : ∀ report ∈ (cursor.nextToken breadcrumb).reports, ¬report.IsError) :
    ∃ kind text warning?, (Lexeme.recognize first rest).content = .token kind text warning? := by
  rw [nextToken_cons found start] at taken clean
  cases content : (Lexeme.recognize first rest).content with
  | token kind text warning? => exact ⟨kind, text, warning?, rfl⟩
  | comment => exact absurd content other
  | malformed problem marked =>
    -- What is malformed is reported as an error.
    rw [content] at clean
    exact absurd (Diagnostic.isError_lexical _ _) (clean _ List.mem_cons_self)
  | unclosed problem =>
    rw [content] at taken
    cases taken
  | unclosedComment before =>
    rw [content] at taken
    cases taken

/-- A token without errors is the end of the text, or sealed bytes behind a gap. -/
theorem cases_of_clean {cursor : Cursor} {breadcrumb : Breadcrumb} {token : Token}
    (taken : (cursor.nextToken breadcrumb).result = .ok token)
    (clean : ∀ report ∈ (cursor.nextToken breadcrumb).reports, ¬report.IsError) :
    (token.isEnd = true ∧ Trail cursor.rest) ∨ ∃ gap slice after : Bytes,
      cursor.rest = gap ++ (slice ++ after) ∧ Gap gap ∧ Sealed slice token.kind token.text ∧
        (cursor.nextToken breadcrumb).next = (cursor.advance gap.length).advance slice.length ∧
        token.span = (cursor.advance gap.length).spanTo
          ((cursor.advance gap.length).advance slice.length) breadcrumb := by
  -- By strong induction on the bytes left, since a gap takes several of them at once.
  induction size : cursor.rest.length using Nat.strongRecOn generalizing cursor with
  | ind count ih =>
    by_cases some : cursor.rest = []
    -- Without bytes the end is next.
    · obtain ⟨-, span, ended⟩ := nextToken_end some breadcrumb
      rw [taken] at ended
      obtain rfl := Except.ok.inj ended
      refine .inl ⟨rfl, ?_⟩
      rw [some]
      exact Gap.none.trail
    · rcases exists_front some with ⟨front, more, found, some', gap⟩ | trail |
        ⟨first, rest, found, start, other⟩
      · -- Behind a gap it goes on as if the gap were not there.
        rw [nextToken_gap gap found] at taken clean ⊢
        have next : (cursor.advance front.length).rest = more := by
          rw [rest_advance, found, List.drop_left]
        have fewer : (cursor.advance front.length).rest.length < count := by
          have more' := List.length_pos_iff.mpr some'
          rw [next, ← size, found, List.length_append]
          omega
        -- The token that is found there is found here, with the gap in front.
        rcases ih _ fewer taken clean rfl with ⟨ended, trail⟩ | ⟨gap', slice, after, same, second,
          whole, stop, span⟩
        · refine .inl ⟨ended, ?_⟩
          rw [found]
          exact .behind gap (next ▸ trail)
        · refine .inr ⟨front ++ gap', slice, after, ?_, gap.append second, whole, ?_, ?_⟩
          · rw [found, ← next, same, List.append_assoc]
          · rw [List.length_append, advance_add]
            exact stop
          · rw [List.length_append, advance_add]
            exact span
      -- What is never closed at the end of the text is part of the trail.
      · obtain ⟨-, span, ended⟩ := nextToken_trail trail breadcrumb
        rw [taken] at ended
        obtain rfl := Except.ok.inj ended
        exact .inl ⟨rfl, trail⟩
      -- Anything else is a token, as a lexeme that is none would be reported.
      · obtain ⟨kind, text, warning?, content⟩ :=
          exists_token_of_clean found start other taken clean
        obtain ⟨body, after, rfl, length, whole⟩ := Sealed.of_recognize start content
        rw [nextToken_of_token found start content, length] at taken ⊢
        obtain rfl := Except.ok.inj taken
        exact .inr ⟨[], first :: body, after, found, .none, whole, rfl, rfl⟩

end Cursor

end ArgSchema
