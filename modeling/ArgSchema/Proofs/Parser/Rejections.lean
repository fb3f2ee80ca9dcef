import ArgSchema.Proofs.Compilation.Record
import ArgSchema.Proofs.Parser.Warnings
import ArgSchema.Proofs.Preprocessor.Reports
import ArgSchema.Proofs.Preprocessor.Steps
import Mathlib.Data.List.Basic

/-! Rejections: a parse is left without a root exactly if its tokens stand in no order of a file. -/

namespace ArgSchema

/-- A report that leaves a parse its root: if it is an error of the parser's own, it concerns a
suppression of a class that there is not. -/
def Diagnostic.Lenient (report : Diagnostic) : Prop :=
  ∀ problem, report.problem = .parse problem → ∃ name, problem = .unknownWarning name

/-- A report from in front of the parser is lenient. -/
theorem Diagnostic.Early.lenient {report : Diagnostic} (early : report.Early) : report.Lenient :=
  fun problem parse => absurd parse (early problem)

/-- A warning is lenient. -/
theorem Diagnostic.lenient_of_warning {report : Diagnostic} (warning : report.severity = .warning) :
    report.Lenient := by
  intro problem parse
  simp [severity, warningClass?, parse, Problem.warningClass?] at warning

/-- Errors about the order of symbols. -/
def Structural (errors : List SyntaxError) : Prop :=
  ∀ error ∈ errors, ∀ name, error.1 ≠ .unknownWarning name

/-- No errors are structural. -/
@[simp] theorem structural_nil : Structural [] := by simp [Structural]

/-- Errors are structural one by one. -/
@[simp] theorem structural_cons {error : SyntaxError} {rest : List SyntaxError} :
    Structural (error :: rest) ↔ (∀ name, error.1 ≠ .unknownWarning name) ∧ Structural rest := by
  simp [Structural]

/-- Errors of two kinds are structural if both are. -/
@[simp] theorem structural_append {first second : List SyntaxError} :
    Structural (first ++ second) ↔ Structural first ∧ Structural second := by
  simp only [Structural, List.forall_mem_append]

namespace Tree

variable (tree : Tree) (brackets : OpenBrackets) (before after : List Symbol)

/-- What is wrong with a header is its shape. -/
theorem structural_headerErrors (opened : OpenCurly) : Structural (tree.headerErrors opened) := by
  have untyped : ∀ token : Token, Structural
      (if token.kind = .identifier then [(.missingTypes token.text, token.span)] else []) := by
    intro token
    split <;> simp
  -- One case for each shape that a header can have instead of the right one.
  unfold headerErrors
  split
  · simp
  · dsimp only
    split <;> simp
  · split
    · simp
    · simp
    · split
      · exact untyped _
      · simp
    · exact untyped _

/-- What is wrong with a token is its place. -/
theorem structural_tokenErrors (token : Token) :
    Structural (tree.tokenErrors brackets before after token) := by
  -- Every message of a token is one about structure, whichever token it is.
  unfold tokenErrors
  split
  · -- A closing bracket, for which the header in front of it is searched.
    unfold closeCurlyErrors
    split
    · simp
    · dsimp only
      split
      · exact tree.structural_headerErrors _
      · simp
  · split <;> simp
  · -- A semicolon, which asks what it could have completed.
    unfold semicolonErrors
    split
    · simp
    · split
      · split <;> simp
      · split
        · split <;> simp
        · simp
      · simp
  -- The marks that are left look at one neighbour, or at none.
  · split <;> simp
  · split <;> simp
  · simp
  · simp

/-- What is wrong with a node is its place. -/
theorem structural_nodeErrors (node : Node) :
    Structural (tree.nodeErrors brackets before after node) := by
  -- A node is asked what it misses in front of it or behind it.
  unfold nodeErrors
  split
  · split <;> simp
  · split <;> simp
  · split <;> simp
  · split <;> simp
  · simp

/-- What is wrong with symbols is where they stand. -/
theorem structural_errorsFrom (symbols : List Symbol) :
    Structural (tree.errorsFrom brackets before symbols) := by
  induction symbols generalizing brackets before with
  | nil => simp [errorsFrom, OpenBrackets.unterminated, Structural, or_imp, forall_and]
  | cons symbol rest ih =>
    -- Each symbol adds its own errors to those of the rest.
    refine structural_append.mpr ⟨?_, ih _ _⟩
    unfold symbolErrors
    split
    · exact tree.structural_tokenErrors brackets before rest _
    · split
      · exact tree.structural_nodeErrors brackets before rest _
      · simp

/-- What is wrong with a stack is the order of its symbols. -/
theorem structural_syntaxErrors (symbols : List Symbol) (ending : Span) :
    Structural (tree.syntaxErrors symbols ending) := by
  -- The one message added where no symbol has any is about structure too.
  unfold syntaxErrors
  split
  · simp
  · next errors nonempty => exact tree.structural_errorsFrom .none [] symbols

end Tree

namespace Parser

variable {parser next : Parser} {phrases : List Phrase} {reports : List Diagnostic}

/-- Nothing that was reported keeps a parse from having a root. -/
def Lenient (parser : Parser) : Prop := ∀ report, .report report ∈ parser.events → report.Lenient

/-- Reports from in front of the parser leave a parse its root. -/
theorem Lenient.record (lenient : parser.Lenient) (early : ∀ report ∈ reports, report.Early) :
    (parser.record (reports.map .report)).Lenient := by
  -- What was recorded before stays lenient, and what is new is early.
  intro report member
  rcases List.mem_append.mp member with member | member
  · exact lenient report member
  · obtain ⟨other, member, ⟨⟩⟩ := List.mem_map.mp member
    exact (early _ member).lenient

/-- What a reduction reports leaves a parse its root. -/
theorem Remarks.lenient {report : Diagnostic} (remarks : parser.Remarks report) :
    report.Lenient := by
  intro problem parse
  -- An error of the parser is one of those that a reduction makes.
  obtain ⟨word, -, same⟩ := remarks.error (by
    simp [Diagnostic.severity, Diagnostic.warningClass?, parse, Problem.warningClass?])
  exact ⟨word.text, Problem.parse.inj (parse.symm.trans same)⟩

/-- A reduction leaves a parse its root. -/
theorem Lenient.reduce (lenient : parser.Lenient) (done : parser.reduce = .ok next) :
    next.Lenient := by
  obtain ⟨more, added, remarks⟩ := reports_of_reduce done
  -- What was reported before is lenient by assumption.
  intro report member
  rw [added] at member
  exact (List.mem_append.mp member).elim (lenient report) fun fresh => (remarks report fresh).lenient

/-- At the end of the tokens there is a root unless something that is reported excludes one. -/
theorem root_finish (lenient : parser.Lenient) (rootless : parser.tree.root? = none) {ending : Span}
    (done : parser.finish ending = .ok next) : next.tree.root? = none ↔ ¬next.Lenient := by
  -- Either the stack has become a file, or it is searched for errors.
  obtain ⟨rooted, more, added, warnings⟩ | rfl := finish_cases done
  · -- A root was set, and what is reported behind it are warnings.
    have kept : next.Lenient := by
      intro report member
      rw [added] at member
      exact (List.mem_append.mp member).elim (lenient report) fun fresh =>
        Diagnostic.lenient_of_warning (warnings report fresh)
    simpa [kept] using Option.isSome_iff_ne_none.mp rooted
  · -- At least one error is reported, and it is no unknown class.
    obtain ⟨error, member⟩ := List.exists_mem_of_ne_nil _
      (syntaxErrors_ne_nil parser.tree parser.stack.toList ending)
    refine ⟨fun _ kept => ?_, fun _ => rootless⟩
    obtain ⟨name, unknown⟩ := kept (.located (.parse error.1) error.2)
      (List.mem_append_right _ (List.mem_map.mpr ⟨error, member, rfl⟩)) error.1 rfl
    exact parser.tree.structural_syntaxErrors _ _ error member name unknown

/-- A run over the rest of the tokens that does not fail makes of them what it can, reports nothing
that keeps the parse from having a root, and then finishes. -/
theorem run_finishes {ending : Reading Preprocessor Token} (last : ending.Early)
    {tokens : List (List Diagnostic × Token)}
    (early : ∀ step ∈ tokens, ∀ report ∈ step.1, report.Early) (shows : parser.Shows phrases)
    (lenient : parser.Lenient) {tree : Tree} (done : (parser.run ending tokens).result = .ok tree) :
    ∃ (reduced finished : Parser) (token : Token),
      reduced.Shows (Phrase.readAll (Phrase.reduce phrases) (tokens.map (·.2))) ∧
      reduced.Lenient ∧ reduced.finish token.span = .ok finished ∧
      parser.run ending tokens = ⟨finished.events, .ok finished.tree⟩ ∧ finished.tree = tree := by
  induction tokens generalizing parser phrases with
  | nil =>
    -- The last token is not shifted: the parser reduces once more, and then finishes.
    obtain ⟨reduced, ready, shows'⟩ := reduce_yields (shows.record (ending.reports.map .report))
    have kept := (lenient.record last.reports).reduce ready
    simp only [run, conclude] at done ⊢
    cases ended : ending.result with
    | error failure => simp [ended] at done
    | ok token =>
      simp only [ended, ready, Except.bind] at done ⊢
      cases made : reduced.finish token.span with
      | error failure => simp [made] at done
      | ok finished =>
        simp only [made, Except.ok.injEq] at done
        exact ⟨reduced, finished, token, shows', kept, made, rfl, done⟩
  | cons first rest ih =>
    obtain ⟨reports, token⟩ := first
    obtain ⟨reduced, ready, shows'⟩ := reduce_yields (shows.record (reports.map .report))
    -- A step reports what leaves a parse its root, and shifting a token reports nothing.
    have kept : reduced.Lenient := (lenient.record (early _ (.head _))).reduce ready
    rw [run_cons ready] at done ⊢
    exact ih (fun step member => early step (.tail _ member)) (shows'.shift token) kept done

/-- A run over the rest of the tokens ends with a root unless something that is reported excludes
one. -/
theorem root_run {ending : Reading Preprocessor Token} (last : ending.Early)
    {tokens : List (List Diagnostic × Token)}
    (early : ∀ step ∈ tokens, ∀ report ∈ step.1, report.Early) (shows : parser.Shows phrases)
    (lenient : parser.Lenient) {tree : Tree} (done : (parser.run ending tokens).result = .ok tree) :
    tree.root? = none ↔
      ∃ report, .report report ∈ (parser.run ending tokens).events ∧ ¬report.Lenient := by
  obtain ⟨reduced, finished, token, shows', kept, made, ran, rfl⟩ :=
    run_finishes last early shows lenient done
  -- At the end only the reports of the whole run are left to speak about.
  rw [root_finish kept shows'.rootless made, ran]
  simp [Lenient]

end Parser

namespace Preprocessor

/-- A parse that does not fail leaves a tree without root exactly if it records an error of the
parser's own that does not merely concern a suppression of a class that there is not. -/
theorem parse_rootless_iff {disk : Disk} {stream : Preprocessor} {tree : Tree}
    (parsed : (stream.parse disk).result = .ok tree) (record : Diagnostics) :
    ∃ added, (record.applyAll (stream.parse disk).events).entries = record.entries ++ added ∧
      (tree.root? = none ↔ ∃ entry ∈ added, ∃ problem, entry.problem = .parse problem ∧
        ∀ name, problem ≠ .unknownWarning name) := by
  obtain ⟨added, entries, known⟩ := record.entries_applyAll (stream.parse disk).events
  obtain ⟨early, last⟩ := early_drain disk stream
  -- At the start nothing was reported.
  have start : Parser.start.Lenient := by simp [Parser.Lenient, Parser.start]
  have root := @Parser.root_run .start [] _ last _ early Stacked.empty start _ parsed
  refine ⟨added, entries, root.trans ⟨fun rejected => ?_, fun recorded => ?_⟩⟩
  · -- A report that excludes a root has no class, so it is entered.
    obtain ⟨entry, member, strict⟩ := rejected
    simp only [Diagnostic.Lenient, not_forall, not_exists] at strict
    obtain ⟨problem, parse, other⟩ := strict
    refine ⟨entry, (known entry).2 member ?_, problem, parse, other⟩
    simp [Diagnostic.warningClass?, parse, Problem.warningClass?]
  · obtain ⟨entry, member, problem, parse, other⟩ := recorded
    refine ⟨entry, (known entry).1 member, fun lenient => ?_⟩
    obtain ⟨name, unknown⟩ := lenient problem parse
    exact other name unknown

/-- A file that is nothing but a suppression of a class that there is not has a root, though it is
recorded that there is no such class. -/
theorem parse_rooted_unknown :
    ∃ stream tree entry, (parse .empty stream).result = .ok tree ∧
      (Diagnostics.empty.applyAll (parse .empty stream).events).entries = [entry] ∧
      entry.problem = .parse (.unknownWarning "loud") ∧ tree.root? ≠ none := by
  let stream := ofSource "schema" (Utf8.encode "@suppress loud") []
  let disk : Disk := .empty
  let text : Excerpt := ⟨1, ["@suppress loud"]⟩
  let modifier : Token := ⟨.modifier, "suppress", ⟨["schema"], ⟨1, 1⟩, ⟨1, 9⟩, text⟩⟩
  let word : Token := ⟨.identifier, "loud", ⟨["schema"], ⟨1, 11⟩, ⟨1, 14⟩, text⟩⟩
  let last : Token := ⟨.endOfFile, "", ⟨["schema"], ⟨1, 15⟩, ⟨1, 15⟩, text⟩⟩
  -- The words are read with the lexer, one after the other.
  obtain ⟨first, second, third⟩ : stream.current.lexer.pop.result = .ok modifier ∧
      stream.afterToken.current.lexer.pop.result = .ok word ∧
      stream.afterToken.afterToken.current.lexer.pop.result = .ok last := by decide +kernel
  obtain ⟨silent, silent', silent'', closed⟩ : stream.current.lexer.pop.reports = [] ∧
      stream.afterToken.current.lexer.pop.reports = [] ∧
      stream.afterToken.afterToken.current.lexer.pop.reports = [] ∧
      stream.afterToken.afterToken.openConditionals = [] := by decide +kernel
  have popped := pop_of_plain disk first (by decide) rfl
  have popped' := pop_of_plain disk second (by decide) rfl
  have ended := pop_of_end disk third rfl rfl
  rw [silent] at popped
  rw [silent'] at popped'
  rw [silent'', closed] at ended
  -- So the drained stream is known to its end.
  have drained : ∃ next, stream.drain disk = ⟨[([], modifier), ([], word)], [], .ok last, next⟩ := by
    rw [drain_of_token (congrArg Reading.result popped) rfl, popped,
      drain_of_token (congrArg Reading.result popped') rfl, popped',
      drain_of_last fun token taken => by cases (congrArg Reading.result ended).symm.trans taken; rfl,
      ended]
    exact ⟨_, rfl⟩
  obtain ⟨next, drained⟩ := drained
  -- Both symbols are dropped and nothing is left, which is a file.
  have parsed : stream.parse disk =
      ⟨[.report (.located (.parse (.unknownWarning "loud")) word.span)],
        .ok ⟨#[some ⟨.file, last.span, none, []⟩], some ⟨0⟩, .empty⟩⟩ := by
    rw [parse, drained]
    rfl
  obtain ⟨added, entries, rootless⟩ := parse_rootless_iff (congrArg Parsed.result parsed) .empty
  rw [parsed] at entries
  refine ⟨stream, _, _, congrArg Parsed.result parsed, by rw [parsed]; rfl, rfl, fun none => ?_⟩
  -- Only the unknown class is recorded, which leaves the tree its root.
  obtain ⟨entry, member, problem, parse, other⟩ := rootless.mp none
  obtain rfl : added = [.located (.parse (.unknownWarning "loud")) word.span] := entries.symm
  cases List.mem_singleton.mp member
  exact other "loud" (Problem.parse.inj parse).symm

end Preprocessor

end ArgSchema
