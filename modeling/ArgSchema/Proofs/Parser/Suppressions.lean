import ArgSchema.Proofs.Compilation.Record
import ArgSchema.Proofs.Lexer.Reads
import ArgSchema.Proofs.Parser.Warnings
import ArgSchema.Proofs.Preprocessor.Order

/-! Suppressions: a class of warnings is dropped once the token behind the suppression was fetched. -/

namespace ArgSchema

namespace Diagnostics

variable {record : Diagnostics} {entry : Diagnostic} {kind : WarningClass}

/-- What is recorded of a class that is suppressed behind reports, and is not reported first, is
reported among them while the class is not dropped. -/
theorem mem_of_suppress {first rest : List Event} {reports : List Diagnostic}
    (of : entry.warningClass? = some kind) (new : .report entry ∉ first) :
    entry ∈ (empty.applyAll ((first ++ reports.map .report) ++ .suppress kind :: rest)).entries ↔
      entry ∈ reports ∧ .suppress kind ∉ first := by
  have split : empty.applyAll ((first ++ reports.map .report) ++ .suppress kind :: rest) =
      (((empty.applyAll first).applyAll (reports.map .report)).suppress kind).applyAll rest := by
    simp [applyAll, apply]
  have dropped : (((empty.applyAll first).applyAll (reports.map .report)).suppress
      kind).isSuppressed kind = true :=
    isSuppressed_applyAll [.suppress kind] |>.mpr (.inr (List.mem_singleton.mpr rfl))
  have absent : entry ∉ (empty.applyAll first).entries := fun member =>
    (mem_applyAll member).elim List.not_mem_nil new
  rw [split]
  calc entry ∈ ((((empty.applyAll first).applyAll (reports.map .report)).suppress
        kind).applyAll rest).entries
      ↔ entry ∈ ((empty.applyAll first).applyAll (reports.map .report)).entries := by
        -- Nothing of the class is entered once it is dropped.
        rw [← entries_suppress ((empty.applyAll first).applyAll (reports.map .report)) kind]
        exact ⟨mem_of_isSuppressed dropped of, mem_applyAll_of_mem⟩
    _ ↔ entry ∈ reports ∧ (empty.applyAll first).isSuppressed kind = false := by
        rw [mem_applyAll_reports of, or_iff_right absent]
    _ ↔ entry ∈ reports ∧ .suppress kind ∉ first := by
        rw [← Bool.not_eq_true, isSuppressed_applyAll]
        simp [empty, isSuppressed]

end Diagnostics

namespace Parser

variable {parser next : Parser} {phrases : List Phrase} {position : Position}

/-- Everything that a parser reported or has on top of its stack starts no later than a position. -/
structure StartsBy (parser : Parser) (position : Position) : Prop where
  /-- Reports start no later. -/
  reports : ∀ report, .report report ∈ parser.events → report.StartsBy position
  /-- A token on top of the stack starts no later. -/
  top : ∀ top below, parser.stack.symbols = .token top :: below → position.reaches top.span.start

/-- Reading a token that starts no later keeps everything in front of the position. -/
theorem StartsBy.read (starts : parser.StartsBy position) {reports : List Diagnostic}
    (given : ∀ report ∈ reports, report.StartsBy position)
    (done : (parser.record (reports.map .report)).reduce = .ok next) {token : Token}
    (reaches : position.reaches token.span.start) : (next.shift token).StartsBy position := by
  obtain ⟨more, added, placed⟩ := reports_of_reduce done
  refine ⟨fun report member => ?_, ?_⟩
  · rw [show (next.shift token).events = _ from added] at member
    -- A report is an earlier one, one of the token's, or one made at the old top of the stack.
    rcases List.mem_append.mp member with member | member
    · rcases List.mem_append.mp member with member | member
      · exact starts.reports report member
      · obtain ⟨report, member, ⟨⟩⟩ := List.mem_map.mp member
        exact given report member
    · obtain ⟨top, below, symbols, place⟩ := (placed report member).place
      intro span same
      cases place.symm.trans same
      exact starts.top top below symbols
  · rintro top below ⟨⟩
    exact reaches

/-- The parser that has read tokens, each behind the reports made on the way. -/
def readAll (parser : Parser) : List (List Diagnostic × Token) → Except TreeError Parser
  | [] => .ok parser
  | (reports, token) :: rest => (parser.read reports token).bind (·.readAll rest)

/-- Tokens that start no later than a position can be read, and a run goes on behind them. -/
theorem readAll_front (ending : Reading Preprocessor Token)
    (before rest : List (List Diagnostic × Token)) (shows : parser.Shows phrases)
    (starts : parser.StartsBy position)
    (given : ∀ report ∈ before.flatMap (·.1), report.StartsBy position)
    (reaches : ∀ token ∈ before.map (·.2), position.reaches token.span.start) :
    ∃ (later : Parser) (phrases' : List Phrase), parser.readAll before = .ok later ∧
      later.Shows phrases' ∧ later.StartsBy position ∧
      parser.run ending (before ++ rest) = later.run ending rest := by
  induction before generalizing parser phrases with
  | nil => exact ⟨parser, phrases, rfl, shows, starts, rfl⟩
  | cons first before ih =>
    obtain ⟨reports, token⟩ := first
    obtain ⟨next, done, shows'⟩ := reduce_yields (shows.record (reports.map .report))
    rw [List.flatMap_cons] at given
    have starts' := starts.read (fun report member => given report (List.mem_append_left _ member))
      done (reaches token (List.mem_cons_self ..))
    -- The rest is read by induction, from a parser that is still in front of the position.
    obtain ⟨later, phrases', read, shown, early, ran⟩ := ih (shows'.shift token) starts'
      (fun report member => given report (List.mem_append_right _ member))
      fun token member => reaches token (.tail _ member)
    refine ⟨later, phrases', ?_, shown, early, (run_cons done ..).trans ran⟩
    rw [readAll, read_of_reduce done]
    exact read

/-- A run only adds events. -/
theorem events_run (ending : Reading Preprocessor Token)
    (tokens : List (List Diagnostic × Token)) (shows : parser.Shows phrases) :
    parser.events <+: (parser.run ending tokens).events := by
  induction tokens generalizing parser phrases with
  | nil =>
    -- At the end there is a last reduction, and then the file is finished.
    obtain ⟨next, done, shows'⟩ := reduce_yields (shows.record (ending.reports.map .report))
    have recorded : parser.events <+: (parser.record (ending.reports.map .report)).events :=
      List.prefix_append ..
    unfold run conclude
    cases ends : ending.result with
    | error why => exact recorded
    | ok last =>
      obtain ⟨finished, finish, -⟩ := finish_of_shows shows' last.span
      simp only [done, Except.bind, finish]
      exact recorded.trans ((events_reduce done).trans (events_finish finish))
  | cons first rest ih =>
    obtain ⟨reports, token⟩ := first
    obtain ⟨next, done, shows'⟩ := reduce_yields (shows.record (reports.map .report))
    rw [run_cons done]
    exact ((List.prefix_append ..).trans (events_reduce done)).trans (ih (shows'.shift token))

/-- A suppression is carried out once the word is on top of the stack. -/
theorem events_of_suppression {modifier word : Token} {below : List Symbol} {kind : WarningClass}
    (symbols : parser.stack.symbols = .token word :: .token modifier :: below)
    (suppress : modifier.isSuppress = true) (identifier : word.kind = .identifier)
    (known : WarningClass.ofName? word.text = some kind) (done : parser.reduce = .ok next) :
    next.events = parser.events ++ [.suppress kind] := by
  unfold Token.isSuppress at suppress
  unfold reduce at done
  -- Of the rules for a word only that for a suppression applies.
  simp only [symbols, identifier, TokenKind.isValue, Bool.false_eq_true, if_false, readWord,
    suppress, if_true, known] at done
  exact events_place done

/-- The reports made on the way to the next token, or to the end if there is none. -/
def upcoming (ending : Reading Preprocessor Token) : List (List Diagnostic × Token) →
    List Diagnostic
  | [] => ending.reports
  | (reports, _) :: _ => reports

/-- A suppression on the stack is carried out behind the reports made on the way to the next token. -/
theorem events_behind_suppression {ending : Reading Preprocessor Token}
    {after : List (List Diagnostic × Token)} {modifier word : Token} {below : List Symbol}
    {kind : WarningClass} (shows : parser.Shows phrases)
    (symbols : parser.stack.symbols = .token word :: .token modifier :: below)
    (suppress : modifier.isSuppress = true) (identifier : word.kind = .identifier)
    (known : WarningClass.ofName? word.text = some kind)
    (reached : after ≠ [] ∨ ∃ last, ending.result = .ok last) :
    ∃ rest, (parser.run ending after).events =
      (parser.events ++ (upcoming ending after).map .report) ++ .suppress kind :: rest := by
  obtain ⟨next, done, shows'⟩ :=
    reduce_yields (shows.record ((upcoming ending after).map .report))
  have onTop : (parser.record ((upcoming ending after).map .report)).stack.symbols =
      .token word :: .token modifier :: below := symbols
  have reduced := events_of_suppression onTop suppress identifier known done
  -- The events of the reduction are the first of the run, and the others come behind them.
  have whole : next.events <+: (parser.run ending after).events := by
    cases after with
    | nil =>
      obtain ⟨last, ends⟩ := reached.resolve_left (fun other => other rfl)
      obtain ⟨finished, finish, -⟩ := finish_of_shows shows' last.span
      unfold upcoming at done
      rw [run_nil ends done finish]
      exact events_finish finish
    | cons first rest =>
      obtain ⟨reports, token⟩ := first
      unfold upcoming at done
      rw [run_cons done]
      exact events_run ending rest (shows'.shift token)
  obtain ⟨rest, whole⟩ := whole
  refine ⟨rest, ?_⟩
  rw [← whole, reduced, List.append_assoc, List.singleton_append]
  rfl

end Parser

/-- In a root file without includes, a warning behind a suppression of its class is recorded exactly
if it was reported on the way to the token behind the suppression and the class was not dropped
before: that token is fetched before the suppression is carried out. -/
theorem Preprocessor.recorded_behind_suppression {disk : Disk} {stream : Preprocessor}
    (opens : Opens disk stream) (free : stream.root.lexer.raw.IncludeFree)
    {before after : List (List Diagnostic × Token)} {reports : List Diagnostic}
    {modifier word : Token} {kind : WarningClass} {parser : Parser} {below : List Symbol}
    (tokens : (stream.drain disk).tokens = before ++ (reports, word) :: after)
    (read : Parser.start.readAll (before ++ [(reports, word)]) = .ok parser)
    (symbols : parser.stack.symbols = .token word :: .token modifier :: below)
    (suppress : modifier.isSuppress = true) (identifier : word.kind = .identifier)
    (known : WarningClass.ofName? word.text = some kind)
    (reached : after ≠ [] ∨ ∃ last, (stream.drain disk).ending.result = .ok last)
    {entry : Diagnostic} {span : Span} (of : entry.warningClass? = some kind)
    (place : entry.span? = some span) (behind : word.span.stop.before span.start) :
    entry ∈ (Diagnostics.empty.applyAll (stream.parse disk).events).entries ↔
      entry ∈ Parser.upcoming (stream.drain disk).ending after ∧
        .suppress kind ∉ parser.events := by
  obtain ⟨given, reaches, stop⟩ := opens.drain_inOrder free tokens
  have upTo : ∀ earlier ∈ (before ++ [(reports, word)]).map (·.2),
      word.span.start.reaches earlier.span.start := by
    intro earlier member
    rw [List.map_append] at member
    rcases List.mem_append.mp member with member | member
    · exact reaches earlier member
    · rw [List.mem_singleton.mp member]
      exact Position.reaches_refl _
  obtain ⟨later, phrases, same, shows, starts, ran⟩ := Parser.readAll_front
    (stream.drain disk).ending (before ++ [(reports, word)]) after
    (show Parser.start.Shows [] from Stacked.empty) ⟨nofun, nofun⟩ (by simpa using given) upTo
  cases same.symm.trans read
  obtain ⟨rest, events⟩ := Parser.events_behind_suppression shows symbols suppress identifier known
    reached
  -- What is reported earlier starts no later than the word.
  have new : .report entry ∉ parser.events := fun early =>
    absurd behind (Position.reaches_trans stop (starts.reports entry early span place))
  have parsed : stream.parse disk = parser.run (stream.drain disk).ending after := by
    rw [← ran, List.append_assoc, List.singleton_append, ← tokens]
    rfl
  rw [parsed, events]
  exact Diagnostics.mem_of_suppress of new

/-- A text whose directives are known includes no file if none of them does. -/
theorem Reads.includeFree {cursor : Cursor} {contents : List (TokenKind × String)}
    (reads : Reads cursor.rest contents []) (inside : ∀ token ∈ contents, token.1 ≠ .endOfFile)
    (others : ∀ text, (.directive, text) ∈ contents → text ≠ "include")
    (breadcrumb : Breadcrumb) : (cursor.raw breadcrumb).IncludeFree := by
  -- What the lexer brings are the tokens that are read.
  obtain ⟨list, read, same⟩ := reads.tokens cursor inside breadcrumb
  intro token member directive
  rw [Cursor.tokens_raw read] at member
  refine others token.text ?_
  rw [← same, ← directive]
  exact List.mem_map.mpr ⟨token, member, rfl⟩

/-- The tokens of a file that takes back a definition which it does not have, behind a suppression
of the warning about that. -/
theorem reads_undefining : Reads (Utf8.encode "@suppress missing-define\n#undef A\n<t> \x7b\x7d\n")
    [(.modifier, "suppress"), (.identifier, "missing-define"), (.directive, "undef"),
      (.identifier, "A"), (.type, "t"), (.openCurly, "\x7b"), (.closeCurly, "\x7d")] [] :=
  .of_scan 41 (by decide +kernel)

namespace Preprocessor

/-- The stream of that file. -/
def undefining : Preprocessor :=
  ofSource "schema" (Utf8.encode "@suppress missing-define\n#undef A\n<t> \x7b\x7d\n") []

/-- On the way to the third token the definition is taken back, with a warning. -/
theorem pop_undefining (disk : Disk) :
    (undefining.afterToken.afterToken.pop disk).result = .ok ⟨.type, "t",
      ⟨["schema"], ⟨3, 1⟩, ⟨3, 3⟩, ⟨1, ["<t> \x7b\x7d"]⟩⟩⟩ ∧
    (undefining.afterToken.afterToken.pop disk).reports = [.warning (.missingDefine "A")
      ⟨["schema"], ⟨2, 8⟩, ⟨2, 8⟩, ⟨1, ["#undef A"]⟩⟩] := by
  let directive : Token := ⟨.directive, "undef", ⟨["schema"], ⟨2, 1⟩, ⟨2, 6⟩, ⟨1, ["#undef A"]⟩⟩⟩
  -- The directive looks at no file, whatever the disk holds.
  have idle : ∀ stream : Preprocessor,
      stream.carryOut disk directive = stream.withName directive undefine := fun _ => rfl
  -- What the lexer and the directive do is computed; the stream goes on by the general lemmas.
  have steps :
      let stream := undefining.afterToken.afterToken
      let carried := stream.afterToken.withName directive undefine
      (stream.current.lexer.pop.result, stream.current.lexer.pop.reports, carried.result,
        carried.reports, carried.next.current.lexer.pop.result,
        carried.next.current.lexer.pop.reports) =
      (.ok directive, [], .ok (), [.warning (.missingDefine "A")
          ⟨["schema"], ⟨2, 8⟩, ⟨2, 8⟩, ⟨1, ["#undef A"]⟩⟩],
        .ok ⟨.type, "t", ⟨["schema"], ⟨3, 1⟩, ⟨3, 3⟩, ⟨1, ["<t> \x7b\x7d"]⟩⟩⟩, []) := by decide +kernel
  simp only [Prod.mk.injEq, ← idle] at steps
  obtain ⟨taken, quiet, done, warned, next, silent⟩ := steps
  rw [pop_of_carried taken rfl done, pop_of_plain disk next (by decide) rfl, quiet, warned, silent]
  exact ⟨rfl, rfl⟩

/-- The warning is recorded although its class is suppressed in front of it. -/
theorem missingDefine_recorded : ∃ entry ∈ (Diagnostics.empty.applyAll
    (undefining.parse .empty).events).entries, entry.warningClass? = some .missingDefine ∧
      ∃ span, entry.span? = some span ∧ (⟨1, 24⟩ : Position).before span.start := by
  let modifier : Token := ⟨.modifier, "suppress",
    ⟨["schema"], ⟨1, 1⟩, ⟨1, 9⟩, ⟨1, ["@suppress missing-define"]⟩⟩⟩
  let word : Token := ⟨.identifier, "missing-define",
    ⟨["schema"], ⟨1, 11⟩, ⟨1, 24⟩, ⟨1, ["@suppress missing-define"]⟩⟩⟩
  have words : (undefining.current.lexer.pop.result,
      undefining.afterToken.current.lexer.pop.result) = (.ok modifier, .ok word) := by decide +kernel
  obtain ⟨first, second⟩ := Prod.mk.inj words
  have popped := pop_of_plain .empty first (by decide) rfl
  have popped' := pop_of_plain .empty second (by decide) rfl
  obtain ⟨third, warned⟩ := pop_undefining .empty
  -- The third token comes behind the warning.
  have fetched : ∃ type rest, (undefining.drain .empty).tokens =
      [(undefining.current.lexer.pop.reports, modifier)] ++
        (undefining.afterToken.current.lexer.pop.reports, word) ::
          ([.warning (.missingDefine "A") ⟨["schema"], ⟨2, 8⟩, ⟨2, 8⟩, ⟨1, ["#undef A"]⟩⟩], type) ::
            rest := by
    rw [drain_of_token (congrArg Reading.result popped) rfl, popped,
      drain_of_token (congrArg Reading.result popped') rfl, popped', drain_of_token third rfl,
      warned]
    exact ⟨_, _, rfl⟩
  obtain ⟨type, rest, tokens⟩ := fetched
  have free : undefining.root.lexer.raw.IncludeFree := by
    refine reads_undefining.includeFree (by decide) (fun text member => ?_) ["schema"]
    -- The only directive takes a definition back.
    obtain rfl : text = "undef" := by simpa using member
    decide
  refine ⟨_, (recorded_behind_suppression (.source _ _ _) free tokens rfl rfl rfl rfl rfl
    (.inl (by simp)) rfl rfl (by decide)).mpr ⟨List.mem_singleton.mpr rfl, ?_⟩, rfl, _, rfl, by decide⟩
  simp [Parser.record, Parser.start, Parser.shift]

end Preprocessor

end ArgSchema
