import ArgSchema.Proofs.Lexer.Order
import ArgSchema.Proofs.Preprocessor.Streams

/-! Order: a source that includes no file brings its reports and tokens in the order of their places. -/

namespace ArgSchema

namespace RawText

/-- The tokens of a text in front of its end. -/
def tokens : RawText → List Token
  | .token _ found rest => found :: rest.tokens
  | .ending .. | .failure .. => []

/-- No token of a text asks for another file. -/
def IncludeFree (raw : RawText) : Prop :=
  ∀ token ∈ raw.tokens, token.kind = .directive → token.text ≠ "include"

/-- The tokens of a text start in order and behind a position, reports no later than the tokens that
they stand in front of. -/
def Ordered (position : Position) : RawText → Prop
  -- Reports start no later than their token, and tokens in the order of the text.
  | .token reports found rest => found.span.start.reaches position ∧
    (∀ report ∈ reports, report.StartsBy found.span.start) ∧
    found.span.stop.reaches found.span.start ∧ rest.Ordered found.span.start
  | .ending reports last => last.span.start.reaches position ∧
    ∀ report ∈ reports, report.StartsBy last.span.start
  | .failure .. => True

/-- Reports are followed by a text without includes that starts no earlier than they do. -/
def Continues (position : Position) (reports : List Diagnostic) (rest : RawText) : Prop :=
  ∃ here : Position, here.reaches position ∧ (∀ report ∈ reports, report.StartsBy here) ∧
    rest.Ordered here ∧ rest.IncludeFree

variable {position : Position} {reports : List Diagnostic} {raw rest : RawText}

/-- A text that starts behind a position starts behind earlier ones. -/
theorem Ordered.earlier {earlier : Position} (ordered : raw.Ordered position)
    (reaches : position.reaches earlier) : raw.Ordered earlier := by
  -- Only the first place is compared with the position, so an earlier one will do.
  cases raw with
  | token reports found rest =>
    exact ⟨Position.reaches_trans ordered.1 reaches, ordered.2⟩
  | ending reports last => exact ⟨Position.reaches_trans ordered.1 reaches, ordered.2⟩
  | failure => trivial

/-- Behind the first token nothing is included either. -/
theorem IncludeFree.tail {found : Token}
    (free : (RawText.token reports found rest).IncludeFree) : rest.IncludeFree :=
  fun token member => free token (.tail _ member)

/-- Reports in front of a text that goes on can be followed by more of them. -/
theorem Continues.after {earlier : Position} {first : List Diagnostic}
    (continues : rest.Continues position reports) (reaches : position.reaches earlier)
    (starts : ∀ report ∈ first, report.StartsBy position) :
    rest.Continues earlier (first ++ reports) := by
  obtain ⟨here, later, given, ordered⟩ := continues
  refine ⟨here, Position.reaches_trans later reaches, ?_, ordered⟩
  -- The first reports start where reading went on, and the others behind them.
  intro report member
  rcases List.mem_append.mp member with member | member
  · exact (starts report member).later later
  · exact given report member

/-- Taking a directive's argument goes on in order, no earlier than the argument. -/
theorem continues_argument {directive : Token} {expected : String} {accepts : TokenKind → Bool}
    {name? : Option Token} (ordered : raw.Ordered position) (free : raw.IncludeFree)
    (front : position.reaches directive.span.start)
    (taken : raw.argument directive expected accepts = (reports, .ok (name?, rest))) :
    ∃ here : Position, here.reaches position ∧ (∀ report ∈ reports, report.StartsBy here) ∧
      rest.Ordered here ∧ rest.IncludeFree ∧ ∀ name, name? = some name → here = name.span.start := by
  -- An argument of the wrong kind is reported at its own place, or at the directive.
  have illegal : ∀ {first : List Diagnostic} {kind : TokenKind} {place : Span} {here : Position},
      here.reaches place.start → (∀ report ∈ first, report.StartsBy here) →
      ∀ report ∈ first ++ [misplaced directive kind expected place], report.StartsBy here := by
    intro first kind place here reaches starts report member
    rcases List.mem_append.mp member with member | member
    · exact starts report member
    · rw [List.mem_singleton.mp member]
      rintro span ⟨⟩
      exact reaches
  -- A token is taken as the name or left where it is, and the end of the file is left as well.
  cases raw with
  | token first found more =>
    obtain ⟨start, starts, stop, later⟩ := ordered
    rw [argument] at taken
    split at taken
    · cases taken
      refine ⟨found.span.start, start, starts, later, free.tail, ?_⟩
      rintro name ⟨⟩
      rfl
    · cases taken
      exact ⟨found.span.start, start, illegal (Position.reaches_refl _) starts,
        ⟨Position.reaches_refl _, by simp, stop, later⟩, free, by simp⟩
  | ending first last =>
    cases taken
    exact ⟨last.span.start, ordered.1,
      illegal (Position.reaches_trans ordered.1 front) ordered.2,
      ⟨Position.reaches_refl _, by simp⟩, free, by simp⟩
  | failure first why => cases taken

/-- Going on in a text that is in order goes on in order. -/
theorem Onward.ordered (onward : raw.Onward rest) (ordered : raw.Ordered position)
    (free : raw.IncludeFree) : rest.Ordered position ∧ rest.IncludeFree := by
  induction onward with
  -- Tokens that are left behind only move the position on.
  | next => exact ⟨ordered.2.2.2.earlier ordered.1, free.tail⟩
  | later _ ih => exact ih (ordered.2.2.2.earlier ordered.1) free.tail
  | still => exact ⟨⟨ordered.1, by simp, ordered.2.2⟩, free⟩
  | ended => exact ⟨⟨ordered.1, by simp⟩, free⟩

end RawText

/-- What a lexer reads from a cursor on is in order. -/
theorem Cursor.raw_ordered (breadcrumb : Breadcrumb) (cursor : Cursor) :
    (cursor.raw breadcrumb).Ordered cursor.position := by
  fun_induction Cursor.raw breadcrumb cursor with
  | case1 cursor why failed => trivial
  | case2 cursor last taken ended =>
    have ordered := nextToken_ordered taken
    exact ⟨ordered.start, ordered.reports⟩
  -- Each token starts behind the cursor, and what follows it behind its end.
  | case3 cursor found taken inside ih =>
    have ordered := nextToken_ordered taken
    exact ⟨ordered.start, ordered.reports, ordered.stop, ih.earlier ordered.next⟩

/-- The tokens of a source that is read to its end without a failure are those that are read. -/
theorem Cursor.tokens_raw {breadcrumb : Breadcrumb} {cursor : Cursor} {reports : List Diagnostic}
    {tokens : List Token} (read : cursor.tokens breadcrumb = (reports, .ok tokens)) :
    (cursor.raw breadcrumb).tokens = tokens := by
  fun_induction Cursor.tokens breadcrumb cursor generalizing reports tokens with
  | case1 cursor why failed => cases read
  | case2 cursor last taken ended =>
    cases read
    rw [raw]
    -- Both read the same token, which is no failure and the end.
    split
    · next why failed => cases taken.symm.trans failed
    · next token same =>
      cases taken.symm.trans same
      rw [dif_pos ended]
      rfl
  | case3 cursor token taken inside more rest below ih =>
    obtain ⟨-, same⟩ := Prod.mk.inj read
    cases rest with
    | error why => cases same
    | ok rest =>
      have same : token :: rest = tokens := Except.ok.inj same
      rw [raw]
      -- Both read the same token and go on behind it.
      split
      · next why failed => cases taken.symm.trans failed
      · next other given =>
        cases taken.symm.trans given
        rw [dif_neg inside, ← same, RawText.tokens, ih below]

/-- A deed goes on in order in the same file. -/
def Deed.Continues (position : Position) (reports : List Diagnostic) : Deed → Prop
  | .fails _ => True
  | .goes _ _ rest => rest.Continues position reports
  | .enters .. => False

namespace Splicing

variable {disk : Disk} {place : TextPlace} {scope : Scope} {opens : List Conditional}
  {directive : Token} {raw : RawText} {position : Position}

/-- A directive that goes on in order with each argument goes on in order. -/
theorem continues_withArgument {expected : String} {accepts : TokenKind → Bool}
    {told : Token → RawText → List Diagnostic × Deed} {names : Finset String}
    (ordered : raw.Ordered position) (free : raw.IncludeFree)
    (front : position.reaches directive.span.start)
    (later : ∀ (name : Token) (rest : RawText), rest.Ordered name.span.start → rest.IncludeFree →
      name.span.start.reaches directive.span.start →
      (told name rest).2.Continues name.span.start (told name rest).1) :
    let answer := withArgument directive expected accepts opens names raw told
    answer.2.Continues position answer.1 := by
  unfold withArgument
  dsimp only
  rcases taken : raw.argument directive expected accepts with ⟨reports, why | ⟨name?, rest⟩⟩
  · trivial
  · obtain ⟨here, reaches, starts, ordered, free, named⟩ :=
      RawText.continues_argument ordered free front taken
    -- Without a name the directive ends, and with one it goes on behind the name.
    cases name? with
    | none => exact ⟨here, reaches, starts, ordered, free⟩
    | some name =>
      obtain rfl := named name rfl
      have given := later name rest ordered free (Position.reaches_trans reaches front)
      dsimp only
      generalize (told name rest).2 = deed at given
      cases deed with
      | fails why => trivial
      | goes opens' names' after => exact given.after reaches starts
      | enters key inner source after => exact given

/-- One report no later than a text in order goes on with it. -/
theorem continues_report {diagnostic : Diagnostic} (ordered : raw.Ordered position)
    (free : raw.IncludeFree) (starts : diagnostic.StartsBy position) :
    raw.Continues position [diagnostic] :=
  ⟨position, Position.reaches_refl _, by simpa using starts, ordered, free⟩

/-- Without reports a text in order goes on. -/
theorem continues_silent (ordered : raw.Ordered position) (free : raw.IncludeFree) :
    raw.Continues position [] :=
  ⟨position, Position.reaches_refl _, by simp, ordered, free⟩

/-- A problem is reported where the token stands that has it. -/
theorem startsBy_located (problem : Problem) (token : Token) :
    (Diagnostic.located problem token.span).StartsBy token.span.start := by
  rintro span ⟨⟩
  exact Position.reaches_refl _

section Directives

variable {name : Token} {rest : RawText}

/-- Defining a name goes on in order behind it. -/
theorem continues_define (ordered : rest.Ordered name.span.start) (free : rest.IncludeFree) :
    let answer := define scope opens name rest
    answer.2.Continues name.span.start answer.1 := by
  unfold define
  dsimp only
  -- Only a name that is defined already is reported.
  split
  · exact continues_report ordered free (startsBy_located _ name)
  · exact continues_silent ordered free

/-- Taking a definition back goes on in order behind the name. -/
theorem continues_undefine (ordered : rest.Ordered name.span.start) (free : rest.IncludeFree) :
    let answer := undefine scope opens name rest
    answer.2.Continues name.span.start answer.1 := by
  unfold undefine
  dsimp only
  -- Only a name that is not defined is reported.
  split
  · exact continues_silent ordered free
  · exact continues_report ordered free (startsBy_located _ name)

/-- A conditional goes on in order behind its name, or behind the text that is dropped. -/
theorem continues_startConditional {wanted : Bool} (ordered : rest.Ordered name.span.start)
    (free : rest.IncludeFree) (behind : name.span.start.reaches directive.span.start) :
    let answer := startConditional directive wanted scope opens name rest
    answer.2.Continues name.span.start answer.1 := by
  unfold startConditional
  dsimp only
  split
  · exact continues_silent ordered free
  · rcases skipped : rest.skip 0 with why | ⟨closed, after⟩
    · trivial
    · obtain ⟨ordered, free⟩ := (RawText.onward_skip skipped).ordered ordered free
      -- A conditional that is not closed is reported at its directive, which stands in front.
      cases closed with
      | true => exact continues_silent ordered free
      | false => exact continues_report ordered free ((startsBy_located _ directive).later behind)

/-- Closing a conditional goes on in order. -/
theorem continues_endConditional (ordered : raw.Ordered position) (free : raw.IncludeFree)
    (front : position.reaches directive.span.start) :
    let answer := endConditional directive scope opens raw
    answer.2.Continues position answer.1 := by
  -- Nothing is read, so the rest of the file stays where it is.
  unfold endConditional
  dsimp only
  split
  · exact continues_report ordered free ((startsBy_located _ directive).later front)
  · exact continues_silent ordered free

end Directives

/-- A directive that includes no file goes on in order. -/
theorem continues_obey (ordered : raw.Ordered position) (free : raw.IncludeFree)
    (front : position.reaches directive.span.start) (other : directive.text ≠ "include") :
    let answer := obey disk place scope opens directive raw
    answer.2.Continues position answer.1 := by
  -- Whatever has a name goes on behind the name, and the rest behind the directive.
  unfold obey
  dsimp only
  rw [if_neg other]
  split
  · exact continues_withArgument ordered free front fun _ _ ordered free _ =>
      continues_define ordered free
  split
  · exact continues_withArgument ordered free front fun _ _ ordered free _ =>
      continues_undefine ordered free
  split
  · exact continues_withArgument ordered free front fun _ _ ordered free behind =>
      continues_startConditional ordered free behind
  split
  · exact continues_withArgument ordered free front fun _ _ ordered free behind =>
      continues_startConditional ordered free behind
  split
  · exact continues_endConditional ordered free front
  · exact continues_report ordered free ((startsBy_located _ directive).later front)

end Splicing

namespace Emitted

/-- Something that is brought starts no later than a position. -/
def StartsBy (position : Position) : Emitted → Prop
  | .report diagnostic => diagnostic.StartsBy position
  | .token found => position.reaches found.span.start

/-- Something stands no later than a token behind it. -/
def Precedes (first second : Emitted) : Prop :=
  ∀ token, second = .token token → first.StartsBy token.span.start

/-- What is brought is in order: nothing starts behind a later token, and no token in front of a
position. -/
structure InOrder (position : Position) (out : List Emitted) : Prop where
  /-- Nothing starts behind a later token. -/
  pairs : out.Pairwise Precedes
  /-- Tokens start no earlier than the position, and end no earlier than they start. -/
  tokens : ∀ token, .token token ∈ out → token.span.start.reaches position ∧
    token.span.stop.reaches token.span.start

/-- Reports alone are in order. -/
theorem inOrder_reports (position : Position) (reports : List Diagnostic) :
    InOrder position (reports.map .report) := by
  -- Only tokens are bound to an order, and there is none.
  have other : ∀ token, Emitted.token token ∉ reports.map .report := by simp
  refine ⟨List.pairwise_of_forall_mem_list fun first _ second member => ?_,
    fun token member => absurd member (other token)⟩
  rintro token rfl
  exact absurd member (other token)

/-- Reports can stand in front of what starts no earlier than they do. -/
theorem InOrder.behind {position here : Position} {reports : List Diagnostic} {out : List Emitted}
    (inOrder : InOrder here out) (reaches : here.reaches position)
    (starts : ∀ report ∈ reports, report.StartsBy here) :
    InOrder position (reports.map .report ++ out) := by
  -- The reports come in front, and no token is among them.
  refine ⟨List.pairwise_append.mpr
    ⟨(inOrder_reports here reports).pairs, inOrder.pairs, ?_⟩, ?_⟩
  · -- A report in front of a token starts no later than the token does.
    rintro first member second behind token rfl
    obtain ⟨report, reported, rfl⟩ := List.mem_map.mp member
    exact (starts report reported).later (inOrder.tokens token behind).1
  · intro token member
    rcases List.mem_append.mp member with member | member
    · simp at member
    · obtain ⟨start, stop⟩ := inOrder.tokens token member
      exact ⟨Position.reaches_trans start reaches, stop⟩

/-- A token can stand in front of what starts no earlier than it does. -/
theorem InOrder.token {token : Token} {out : List Emitted}
    (inOrder : InOrder token.span.start out) (stop : token.span.stop.reaches token.span.start) :
    InOrder token.span.start (.token token :: out) := by
  -- The token comes in front of what starts behind it.
  refine ⟨List.pairwise_cons.mpr ⟨?_, inOrder.pairs⟩, ?_⟩
  · -- The token is the first, so it is compared with all behind it.
    rintro second member other rfl
    exact (inOrder.tokens other member).1
  · intro other member
    rcases List.mem_cons.mp member with same | member
    · cases same
      exact ⟨Position.reaches_refl _, stop⟩
    · exact inOrder.tokens other member

end Emitted

open Emitted (InOrder)

/-- A text in order that includes no file brings its reports and tokens in order. -/
theorem Splices.inOrder {disk : Disk} {place : TextPlace} {opens : List Conditional}
    {scope : Scope} {raw : RawText} {out : List Emitted} {result : Except Failure (Scope × Token)}
    (splices : Splices disk place opens scope raw out result) {position : Position}
    (ordered : raw.Ordered position) (free : raw.IncludeFree) : InOrder position out := by
  -- What a directive reports stands where the directive does.
  have obeyed : ∀ {place : TextPlace} {opens : List Conditional} {scope : Scope} {found : Token}
      {reports more : List Diagnostic} {rest : RawText} {deed : Deed} {position : Position},
      found.kind = .directive → Splicing.obey disk place scope opens found rest = (more, deed) →
      (RawText.token reports found rest).Ordered position →
      (RawText.token reports found rest).IncludeFree → deed.Continues found.span.start more := by
    intro place opens scope found reports more rest deed position directive told ordered free
    have continues : (Splicing.obey disk place scope opens found rest).2.Continues _
        (Splicing.obey disk place scope opens found rest).1 :=
      Splicing.continues_obey ordered.2.2.2 free.tail (Position.reaches_refl _)
        (free found (List.mem_cons_self ..) directive)
    simpa [told] using continues
  induction splices generalizing position with
  | failure => exact Emitted.inOrder_reports _ _
  | ending => exact Emitted.inOrder_reports _ _
  | token plain rest ih =>
    obtain ⟨start, starts, stop, later⟩ := ordered
    exact ((ih later free.tail).token stop).behind start starts
  | fails => exact Emitted.inOrder_reports _ _
  -- Behind a directive the order goes on from where the directive stands.
  | goes directive told rest ih =>
    obtain ⟨here, reaches, given, later, free'⟩ := (obeyed directive told ordered free)
    refine (ih later free').behind (Position.reaches_trans reaches ordered.1) ?_
    intro report member
    rcases List.mem_append.mp member with member | member
    · exact (ordered.2.1 report member).later reaches
    · exact given report member
  -- No file is included.
  | enters directive told => exact (obeyed directive told ordered free).elim
  | cut directive told => exact (obeyed directive told ordered free).elim

/-- A stream that was not read from starts at the beginning of its root file. -/
theorem Preprocessor.Opens.reads {disk : Disk} {stream : Preprocessor}
    (opens : Opens disk stream) : ∃ place scope source, stream.Reads none place [] scope
      ((Cursor.ofSource source).raw place.breadcrumb) := by
  -- A stream is opened on a source or on a file, whose text is its source.
  cases opens with
  | source name text defines => exact ⟨_, _, text, reads_ofSource name text defines⟩
  | file opened =>
    unfold openFile at opened
    split at opened
    · cases opened
    · next source read =>
      cases opened
      exact ⟨_, _, source, rfl, rfl, rfl, rfl, rfl⟩

/-- A root file without includes is spliced from its start, where nothing is open. -/
theorem Preprocessor.Opens.splices {disk : Disk} {stream : Preprocessor}
    (opens : Opens disk stream) (free : stream.root.lexer.raw.IncludeFree) :
    ∃ place scope source result, Splices disk place [] scope
        ((Cursor.ofSource source).raw place.breadcrumb) (stream.drain disk).brought result ∧
      ((Cursor.ofSource source).raw place.breadcrumb).IncludeFree := by
  obtain ⟨place, scope, source, reads⟩ := opens.reads
  obtain ⟨result, splices, -⟩ := reads.outcome_iff.mp (rfl : stream.outcome disk = _)
  refine ⟨place, scope, source, result, splices, ?_⟩
  -- No file is included yet, so the current file is the root.
  have root : stream.current = stream.root := by
    have around := reads.around
    unfold surroundings at around
    unfold current
    split at around
    · next none => rw [none]; rfl
    · cases around
  rwa [← root, reads.raw] at free

/-- What a root file without includes brings in front of a token starts no later than the token. -/
theorem Preprocessor.Opens.drain_inOrder {disk : Disk} {stream : Preprocessor}
    (opens : Opens disk stream) (free : stream.root.lexer.raw.IncludeFree)
    {before after : List (List Diagnostic × Token)} {reports : List Diagnostic} {token : Token}
    (tokens : (stream.drain disk).tokens = before ++ (reports, token) :: after) :
    (∀ report ∈ before.flatMap (·.1) ++ reports, report.StartsBy token.span.start) ∧
      (∀ earlier ∈ before.map (·.2), token.span.start.reaches earlier.span.start) ∧
      token.span.stop.reaches token.span.start := by
  obtain ⟨place, scope, source, result, splices, free⟩ := opens.splices free
  have inOrder := splices.inOrder (Cursor.raw_ordered _ _) free
  -- All that is brought up to the token stands in front of it.
  have brought : (stream.drain disk).brought =
      (before.flatMap (fun step => step.1.map .report ++ [.token step.2]) ++
        reports.map .report) ++ .token token ::
      (after.flatMap (fun step => step.1.map .report ++ [.token step.2]) ++
        (stream.drain disk).ending.reports.map .report) := by
    simp [TokenStream.brought, tokens]
  rw [brought] at inOrder
  have front := fun first member => (List.pairwise_append.mp inOrder.pairs).2.2 first member
    (.token token) (List.mem_cons_self ..) token rfl
  refine ⟨fun report member => front (.report report) ?_,
    fun earlier member => front (.token earlier) ?_, (inOrder.tokens token (by simp)).2⟩
  · simpa using member
  · simpa using member

end ArgSchema
