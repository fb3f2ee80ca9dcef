import ArgSchema.Preprocessor.Frame
import ArgSchema.Proofs.Lexer.Reads

/-! Raw texts: all that a lexer brings, and what taking, putting back and skipping do with it. -/

namespace ArgSchema

/-- The tokens of a text, each behind the reports made on the way, up to the end or a failure. -/
inductive RawText where
  /-- A token in front of the rest. -/
  | token (reports : List Diagnostic) (token : Token) (rest : RawText)
  /-- The end token. -/
  | ending (reports : List Diagnostic) (last : Token)
  /-- A failure that cuts the text short. -/
  | failure (reports : List Diagnostic) (why : Failure)

namespace RawText

/-- Number of tokens in front of the end or the failure. -/
def count : RawText → Nat
  | .token _ _ rest => rest.count + 1
  | .ending .. | .failure .. => 0

/-- The text with a token put back in front of it; nothing follows the end. -/
def back (token : Token) (rest : RawText) : RawText :=
  if token.isEnd then .ending [] token else .token [] token rest

/-- A token in front of the end is put back in front of the rest. -/
theorem back_of_inside {found : Token} (inside : found.isEnd = false) (rest : RawText) :
    rest.back found = .token [] found rest := by
  rw [back, if_neg (by simp [inside])]

/-- Nothing follows an end that is put back. -/
theorem back_of_end {last : Token} (ended : last.isEnd = true) (rest : RawText) :
    rest.back last = .ending [] last := by
  rw [back, if_pos ended]

/-- The report that a directive is followed by something else than it expects. -/
def misplaced (directive : Token) (found : TokenKind) (expected : String) (place : Span) :
    Diagnostic :=
  .located (.directive (.illegalArgument directive.text found.describe expected)) place

/-- Takes the token behind a directive; one of the wrong kind is reported and stays. -/
def argument (directive : Token) (expected : String) (accepts : TokenKind → Bool) :
    RawText → List Diagnostic × Except Failure (Option Token × RawText)
  | .token reports found rest =>
    if accepts found.kind then (reports, .ok (some found, rest))
    else (reports ++ [misplaced directive found.kind expected found.span],
      .ok (none, .token [] found rest))
  -- At the end of the text there is nothing to show but the directive.
  | .ending reports last =>
    (reports ++ [misplaced directive last.kind expected directive.span], .ok (none, .ending [] last))
  | .failure reports why => (reports, .error why)

/-- Whether a token opens a conditional. -/
def opensConditional (token : Token) : Bool :=
  token.kind = .directive && (token.text = "ifdef" || token.text = "ifndef")

/-- Whether a token closes a conditional. -/
def closesConditional (token : Token) : Bool := token.kind = .directive && token.text = "endif"

/-- What follows a conditional whose text does not count, and whether it was closed at all.

The conditionals inside count, but no other directive does anything, and nothing is reported. -/
def skip (depth : Nat) : RawText → Except Failure (Bool × RawText)
  | .failure _ why => .error why
  -- The end is not skipped, and its reports were made.
  | .ending _ last => .ok (false, .ending [] last)
  | .token _ found rest =>
    if opensConditional found then rest.skip (depth + 1)
    else if closesConditional found then
      match depth with
      | 0 => .ok (true, rest)
      | depth + 1 => rest.skip depth
    else rest.skip depth

/-- Each token that is skipped opens a conditional, closes one, or does neither. -/
theorem skip_token (depth : Nat) (reports : List Diagnostic) (found : Token) (rest : RawText) :
    (RawText.token reports found rest).skip depth =
      if opensConditional found then rest.skip (depth + 1)
      else if closesConditional found then
        match depth with
        | 0 => .ok (true, rest)
        | depth + 1 => rest.skip depth
      else rest.skip depth := by
  rw [skip.eq_def]

/-- Going on in a text leads to another: tokens are left behind, or only what was reported in front of
the first one. -/
inductive Onward : RawText → RawText → Prop
  /-- The first token was taken. -/
  | next {reports found rest} : Onward (.token reports found rest) rest
  /-- The first token stays. -/
  | still {reports found rest} : Onward (.token reports found rest) (.token [] found rest)
  /-- The end stays. -/
  | ended {reports last} : Onward (.ending reports last) (.ending [] last)
  /-- Going on behind the first token goes on in the text. -/
  | later {reports found rest more} : Onward rest more → Onward (.token reports found rest) more

/-- Going on leaves no more tokens. -/
theorem Onward.count_le {raw rest : RawText} (onward : raw.Onward rest) : rest.count ≤ raw.count := by
  -- By induction on what is passed.
  induction onward with
  | next => exact Nat.le_succ _
  | still | ended => exact Nat.le_refl _
  | later _ ih => exact Nat.le_succ_of_le ih

/-- Going on twice is going on. -/
theorem Onward.trans {raw middle rest : RawText} (first : raw.Onward middle)
    (second : middle.Onward rest) : raw.Onward rest := by
  induction first with
  | next => exact .later second
  | later _ ih => exact .later (ih second)
  -- A token that stayed is still in front, so the second part decides what becomes of it.
  | still =>
    cases second with
    | next => exact .next
    | still => exact .still
    | later more => exact .later more
  | ended =>
    cases second
    exact .ended

/-- A conditional that is skipped is gone over. -/
theorem onward_skip {depth : Nat} {raw rest : RawText} {closed : Bool}
    (skipped : raw.skip depth = .ok (closed, rest)) : raw.Onward rest := by
  induction raw generalizing depth with
  | failure reports why => cases skipped
  | ending reports last =>
    cases skipped
    exact .ended
  | token reports found more ih =>
    rw [skip_token] at skipped
    -- Only the token that closes the conditional is the last one to be left behind.
    split at skipped
    · exact .later (ih skipped)
    · split at skipped
      · cases depth with
        | zero =>
          cases skipped
          exact .next
        | succ depth => exact .later (ih skipped)
      · exact .later (ih skipped)

/-- A directive's argument is taken, or it is reported and stays. -/
theorem onward_argument {directive : Token} {expected : String} {accepts : TokenKind → Bool}
    {raw rest : RawText} {reports : List Diagnostic} {name? : Option Token}
    (taken : raw.argument directive expected accepts = (reports, .ok (name?, rest))) :
    raw.Onward rest := by
  -- The next token is taken, or the text stays where it is.
  cases raw with
  | token before found more =>
    rw [argument] at taken
    split at taken
    · cases taken
      exact .next
    · cases taken
      exact .still
  | ending before last =>
    cases taken
    exact .ended
  | failure before why => cases taken

end RawText

/-- All that is read from a cursor on. -/
def Cursor.raw (breadcrumb : Breadcrumb) (cursor : Cursor) : RawText :=
  match _taken : (cursor.nextToken breadcrumb).result with
  | .error why => .failure (cursor.nextToken breadcrumb).reports why
  | .ok token =>
    if _inside : token.isEnd then .ending (cursor.nextToken breadcrumb).reports token
    else .token (cursor.nextToken breadcrumb).reports token
      (raw breadcrumb (cursor.nextToken breadcrumb).next)
termination_by cursor.rest.length
decreasing_by exact nextToken_length _taken (by simpa using _inside)

namespace Lexer

/-- All that a lexer brings: what was put back, and then its source. -/
def raw (lexer : Lexer) : RawText :=
  lexer.pushed.foldr RawText.back (lexer.cursor.raw lexer.breadcrumb)

/-- Putting a token back puts it in front of what the lexer brings. -/
theorem raw_push (lexer : Lexer) (token : Token) :
    (lexer.push token).raw = lexer.raw.back token := rfl

/-- Taking a token stays in the same file. -/
theorem breadcrumb_pop (lexer : Lexer) : lexer.pop.next.breadcrumb = lexer.breadcrumb := by
  unfold pop
  split <;> rfl

variable {lexer : Lexer}

/-- A failure is all that a lexer brings. -/
theorem raw_of_failure {why : Failure} (failed : lexer.pop.result = .error why) :
    lexer.raw = .failure lexer.pop.reports why := by
  obtain ⟨cursor, breadcrumb, pushed, exhausted⟩ := lexer
  -- A token that was put back is no failure.
  cases pushed with
  | cons first pushed => cases failed
  | nil =>
    show cursor.raw breadcrumb = _
    rw [Cursor.raw]
    split
    · next other same =>
      cases failed.symm.trans same
      rfl
    · next token taken => cases failed.symm.trans taken

/-- A token stands in front of what a lexer brings behind it. -/
theorem raw_of_token {found : Token} (taken : lexer.pop.result = .ok found)
    (inside : found.isEnd = false) :
    lexer.raw = .token lexer.pop.reports found lexer.pop.next.raw := by
  obtain ⟨cursor, breadcrumb, pushed, exhausted⟩ := lexer
  -- A token that was put back is in front; otherwise the cursor is read.
  cases pushed with
  | cons first pushed =>
    cases taken
    exact RawText.back_of_inside inside _
  | nil =>
    show cursor.raw breadcrumb = _
    rw [Cursor.raw]
    split
    · next why failed => cases taken.symm.trans failed
    · next token same =>
      cases taken.symm.trans same
      rw [dif_neg (by simp [inside])]
      rfl

/-- The end is all that a lexer brings. -/
theorem raw_of_end {last : Token} (taken : lexer.pop.result = .ok last)
    (ended : last.isEnd = true) : lexer.raw = .ending lexer.pop.reports last := by
  -- A token that was put back comes first, and otherwise the cursor is read.
  obtain ⟨cursor, breadcrumb, pushed, exhausted⟩ := lexer
  cases pushed with
  | cons first pushed =>
    cases taken
    exact RawText.back_of_end ended _
  | nil =>
    show cursor.raw breadcrumb = _
    rw [Cursor.raw]
    split
    · next why failed => cases taken.symm.trans failed
    · next token same =>
      cases taken.symm.trans same
      rw [dif_pos ended]
      rfl

variable {reports : List Diagnostic}

/-- A lexer that brings a failure fails at once. -/
theorem pop_of_failure {why : Failure} (brings : lexer.raw = .failure reports why) :
    lexer.pop.reports = reports ∧ lexer.pop.result = .error why := by
  -- What the lexer takes decides what it brings, and only a failure brings one.
  cases taken : lexer.pop.result with
  | error other =>
    cases (raw_of_failure taken).symm.trans brings
    exact ⟨rfl, rfl⟩
  | ok token =>
    cases inside : token.isEnd with
    | true => cases (raw_of_end taken inside).symm.trans brings
    | false => cases (raw_of_token taken inside).symm.trans brings

/-- A lexer that brings the end ends at once. -/
theorem pop_of_ending {last : Token} (brings : lexer.raw = .ending reports last) :
    lexer.pop.reports = reports ∧ lexer.pop.result = .ok last ∧ last.isEnd = true := by
  -- Whatever is taken decides what the lexer brings, and only an end fits.
  cases taken : lexer.pop.result with
  | error other => cases (raw_of_failure taken).symm.trans brings
  | ok token =>
    cases inside : token.isEnd with
    | true =>
      cases (raw_of_end taken inside).symm.trans brings
      exact ⟨rfl, rfl, inside⟩
    | false => cases (raw_of_token taken inside).symm.trans brings

/-- A lexer that brings a token in front of others takes it and then brings the others. -/
theorem pop_of_token {found : Token} {rest : RawText}
    (brings : lexer.raw = .token reports found rest) :
    lexer.pop.reports = reports ∧ lexer.pop.result = .ok found ∧ found.isEnd = false ∧
      lexer.pop.next.raw = rest := by
  -- Only a token in front of the end is brought as one.
  cases taken : lexer.pop.result with
  | error other => cases (raw_of_failure taken).symm.trans brings
  | ok token =>
    cases inside : token.isEnd with
    | true => cases (raw_of_end taken inside).symm.trans brings
    | false =>
      cases (raw_of_token taken inside).symm.trans brings
      exact ⟨rfl, rfl, inside, rfl⟩

end Lexer

/-- At the end of a file the directive is shown in place of its argument. -/
theorem Frame.illegalArgument_of_end {directive last : Token} (ended : last.isEnd = true)
    (expected : String) : illegalArgument directive last expected =
      RawText.misplaced directive last.kind expected directive.span := by
  rw [illegalArgument, if_pos ended]
  rfl

/-- A token of the wrong kind is shown itself. -/
theorem Frame.illegalArgument_of_inside {directive found : Token} (inside : found.isEnd = false)
    (expected : String) : illegalArgument directive found expected =
      RawText.misplaced directive found.kind expected found.span := by
  rw [illegalArgument, if_neg (by simp [inside])]
  rfl

/-- Taking a directive's argument from a file takes it from what the file's lexer brings. -/
theorem Frame.argument_raw (directive : Token) (expected : String) {accepts : TokenKind → Bool}
    (wanted : accepts .endOfFile = false) (frame : Frame) :
    let taken := frame.lexer.raw.argument directive expected accepts
    ∃ lexer, frame.argument directive expected accepts =
        ⟨taken.1, taken.2.map Prod.fst, frame.withLexer lexer⟩ ∧
      lexer.breadcrumb = frame.lexer.breadcrumb ∧
      ∀ name? rest, taken.2 = .ok (name?, rest) → lexer.raw = rest := by
  have same := frame.lexer.breadcrumb_pop
  unfold argument Frame.pop Reading.andThen
  simp only [Reading.mapNext]
  cases taken : frame.lexer.pop.result with
  | error why =>
    rw [Lexer.raw_of_failure taken]
    exact ⟨frame.lexer.pop.next, rfl, same, by rintro _ _ ⟨⟩⟩
  | ok found =>
    -- The end of the file is never an argument, and it is given back.
    cases inside : found.isEnd with
    | true =>
      have other : accepts found.kind = false := by rw [of_decide_eq_true inside, wanted]
      rw [Lexer.raw_of_end taken inside]
      simp only [RawText.argument, other, Bool.false_eq_true, if_false,
        illegalArgument_of_end inside]
      refine ⟨frame.lexer.pop.next.push found, rfl, same, ?_⟩
      rintro name? rest ⟨⟩
      rw [Lexer.raw_push, RawText.back_of_end inside]
    | false =>
      rw [Lexer.raw_of_token taken inside]
      simp only [RawText.argument, illegalArgument_of_inside inside]
      -- A token that is not accepted is given back.
      split
      · refine ⟨frame.lexer.pop.next, by simp [Reading.ok, Reading.after, Except.map], same, ?_⟩
        rintro name? rest ⟨⟩
        rfl
      · refine ⟨frame.lexer.pop.next.push found, rfl, same, ?_⟩
        rintro name? rest ⟨⟩
        rw [Lexer.raw_push, RawText.back_of_inside inside]

/-- Skipping the text of a conditional in a lexer skips it in what the lexer brings. -/
theorem Lexer.skipConditional_raw (depth : Nat) (lexer : Lexer) :
    ∃ later, lexer.skipConditional depth = ⟨[], (lexer.raw.skip depth).map Prod.fst, later⟩ ∧
      later.breadcrumb = lexer.breadcrumb ∧
      ∀ closed rest, lexer.raw.skip depth = .ok (closed, rest) → later.raw = rest := by
  have same := fun lexer : Lexer => lexer.breadcrumb_pop
  -- The raw text is skipped by the same tests of each token as the lexer.
  fun_induction Lexer.skipConditional depth lexer with
  | case1 depth lexer why failed =>
    rw [raw_of_failure failed]
    exact ⟨_, rfl, same lexer, by rintro _ _ ⟨⟩⟩
  | case2 depth lexer token taken ended =>
    rw [raw_of_end taken ended]
    refine ⟨_, rfl, same lexer, ?_⟩
    rintro closed rest ⟨⟩
    rw [raw_push, RawText.back_of_end ended]
  -- A conditional inside is skipped with what it holds.
  | case3 depth lexer token taken inside opening ih =>
    have opens : RawText.opensConditional token = true := by
      simpa [RawText.opensConditional] using opening
    rw [raw_of_token taken (by simpa using inside), RawText.skip_token, if_pos opens]
    obtain ⟨later, read, crumbs, left⟩ := ih
    exact ⟨later, read, crumbs.trans (same lexer), left⟩
  -- The end of the conditional that is skipped.
  | case4 lexer token taken inside opening closing =>
    have opens : ¬RawText.opensConditional token = true := by
      simpa [RawText.opensConditional] using opening
    have closes : RawText.closesConditional token = true := by
      simpa [RawText.closesConditional] using closing
    rw [raw_of_token taken (by simpa using inside), RawText.skip_token, if_neg opens, if_pos closes]
    refine ⟨_, rfl, same lexer, ?_⟩
    rintro closed rest ⟨⟩
    rfl
  -- The end of one that is inside.
  | case5 lexer token taken inside opening closing depth ih =>
    have opens : ¬RawText.opensConditional token = true := by
      simpa [RawText.opensConditional] using opening
    have closes : RawText.closesConditional token = true := by
      simpa [RawText.closesConditional] using closing
    rw [raw_of_token taken (by simpa using inside), RawText.skip_token, if_neg opens, if_pos closes]
    obtain ⟨later, read, crumbs, left⟩ := ih
    exact ⟨later, read, crumbs.trans (same lexer), left⟩
  | case6 depth lexer token taken inside opening closing ih =>
    have opens : ¬RawText.opensConditional token = true := by
      simpa [RawText.opensConditional] using opening
    have closes : ¬RawText.closesConditional token = true := by
      simpa [RawText.closesConditional] using closing
    rw [raw_of_token taken (by simpa using inside), RawText.skip_token, if_neg opens, if_neg closes]
    obtain ⟨later, read, crumbs, left⟩ := ih
    exact ⟨later, read, crumbs.trans (same lexer), left⟩

/-- The text of tokens that nothing is reported for, with their contents and their places. -/
def RawText.ofContents (spans : Nat → Span) (last : Token) : List (TokenKind × String) → RawText
  | [] => .ending [] last
  | (kind, text) :: rest =>
    .token [] ⟨kind, text, spans 0⟩ (ofContents (fun i => spans (i + 1)) last rest)

/-- A source that is read to its end brings the tokens that are read, and nothing is reported. -/
theorem Reads.raw (cursor : Cursor) {contents : List (TokenKind × String)}
    (reads : Reads cursor.rest contents []) (inside : ∀ content ∈ contents, content.1 ≠ .endOfFile)
    (breadcrumb : Breadcrumb) :
    ∃ spans last, cursor.raw breadcrumb = .ofContents spans last contents ∧ last.isEnd = true := by
  generalize bytes : cursor.rest = text at reads
  generalize left : ([] : Bytes) = rest at reads
  induction reads generalizing cursor with
  | none =>
    subst left
    obtain ⟨reports, span, result⟩ := Cursor.nextToken_end bytes breadcrumb
    have ends := @Lexer.raw_of_end ⟨cursor, breadcrumb, [], false⟩ _ result rfl
    exact ⟨fun _ => span, _, ends.trans (congrArg (RawText.ending · _) reports), rfl⟩
  -- A blank is skipped in front of the next token.
  | @blank b more _ _ space _ ih =>
    have next : cursor.step.rest = more := by simp [Cursor.rest_step, bytes]
    obtain ⟨spans, last, same, ended⟩ := ih cursor.step inside next left
    refine ⟨spans, last, ?_, ended⟩
    rw [← same, Cursor.raw, Cursor.raw.eq_def breadcrumb cursor.step,
      Cursor.nextToken_blank bytes space]
  -- A token is read, and the rest behind it.
  | @token first more kind text tail contents _ start recognized _ ih =>
    obtain ⟨reports, ⟨span, result⟩, next⟩ :=
      Cursor.nextToken_token bytes start recognized breadcrumb
    obtain ⟨spans, last, same, ended⟩ :=
      ih _ (fun content member => inside content (by simp [member])) next left
    -- The token is not the end, which stands behind all of them.
    have other : kind ≠ .endOfFile := inside (kind, text) (by simp)
    have brings := @Lexer.raw_of_token ⟨cursor, breadcrumb, [], false⟩ _ result
      (by simpa [Token.isEnd] using other)
    refine ⟨fun | 0 => span | i + 1 => spans i, last, brings.trans ?_, ended⟩
    show RawText.token (cursor.nextToken breadcrumb).reports _ _ = _
    rw [reports]
    exact congrArg (RawText.token [] _) same

end ArgSchema
