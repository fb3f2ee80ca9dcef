import ArgSchema.Proofs.Lexer.Reads
import ArgSchema.Proofs.Parser.Brackets
import ArgSchema.Proofs.Parser.Rejections
import ArgSchema.Proofs.Preprocessor.Plain

/-! Errors about brackets: they are at the brackets that matching leaves over among all tokens. -/

namespace ArgSchema

namespace Bracket

/-- The brackets of a shape that are open. -/
def openIn : Bracket → OpenBrackets → List Token
  | .curly, brackets => brackets.curlies.map (·.token)
  | .square, brackets => brackets.squares

/-- What is left over behind a symbol; nodes hold no brackets. -/
def passSymbol (bracket : Bracket) (left : Unmatched) : Symbol → Unmatched
  | .token token => bracket.pass left token
  | .node _ => left

/-- Whether a problem is one with a bracket of a shape. -/
def concerns (bracket : Bracket) (problem : ParseProblem) : Bool :=
  problem = bracket.unterminated || problem = bracket.unopened

/-- The errors at closing brackets that close nothing. -/
def unopenedErrors (bracket : Bracket) (tokens : List Token) : List SyntaxError :=
  tokens.map fun token => (bracket.unopened, token.span)

/-- The errors at opening brackets that are never closed. -/
def unterminatedErrors (bracket : Bracket) (tokens : List Token) : List SyntaxError :=
  tokens.map fun token => (bracket.unterminated, token.span)

variable (bracket : Bracket) (tree : Tree) (brackets : OpenBrackets) (before after : List Symbol)

/-- What is wrong with a header is none of its brackets. -/
theorem filter_headerErrors (opened : OpenCurly) :
    (tree.headerErrors opened).filter (bracket.concerns ·.1) = [] := by
  have untyped : ∀ token : Token, (if token.kind = .identifier then
      [((.missingTypes token.text, token.span) : SyntaxError)] else []).filter
        (bracket.concerns ·.1) = [] := by
    intro token
    split <;> cases bracket <;> rfl
  have nameless : ([(.namelessBody, opened.token.span)] : List SyntaxError).filter
      (bracket.concerns ·.1) = [] := by
    cases bracket <;> rfl
  unfold Tree.headerErrors
  -- By what stands in front of the bracket, as the header is judged.
  split
  · exact nameless
  · dsimp only
    split
    · exact nameless
    · rfl
  · split
    · exact nameless
    · exact nameless
    · split
      · exact untyped _
      · rfl
    · exact untyped _

/-- What is wrong with a semicolon is no bracket. -/
theorem filter_semicolonErrors (token : Token) :
    (tree.semicolonErrors brackets before token).filter (bracket.concerns ·.1) = [] := by
  -- Whatever is reported of a semicolon names no bracket.
  unfold Tree.semicolonErrors
  split
  · cases bracket <;> rfl
  · split
    · split <;> cases bracket <;> rfl
    · split
      · split <;> cases bracket <;> rfl
      · rfl
    · rfl

/-- What is wrong with a node is no bracket. -/
theorem filter_nodeErrors (node : Node) :
    (tree.nodeErrors brackets before after node).filter (bracket.concerns ·.1) = [] := by
  -- One case for each kind of node, and none of their errors names a bracket.
  unfold Tree.nodeErrors
  split
  · split <;> cases bracket <;> rfl
  · split <;> cases bracket <;> rfl
  · split <;> cases bracket <;> rfl
  · split <;> cases bracket <;> rfl
  · rfl

/-- The error about a bracket at a token says that it closes nothing. -/
theorem filter_tokenErrors (token : Token) :
    (tree.tokenErrors brackets before after token).filter (bracket.concerns ·.1) =
      if token.kind = bracket.closing ∧ bracket.openIn brackets = [] then
        [(bracket.unopened, token.span)]
      else [] := by
  cases kind : token.kind
  case closeCurly =>
    simp only [Tree.tokenErrors, kind, Tree.closeCurlyErrors]
    -- A body that is open is judged by its header, which is no error about a bracket.
    cases opened : brackets.curlies with
    | nil => cases bracket <;> simp [Bracket.closing, openIn, opened, concerns, unopened, unterminated]
    | cons first outer =>
      dsimp only
      split
      · rw [filter_headerErrors]
        cases bracket <;> simp [Bracket.closing, openIn, opened]
      · cases bracket <;> simp [Bracket.closing, openIn, opened]
  -- A square bracket is reported exactly if none is open.
  case closeSquare =>
    simp only [Tree.tokenErrors, kind]
    cases opened : brackets.squares <;> cases bracket <;>
      simp [Bracket.closing, openIn, opened, concerns, unopened, unterminated]
  -- A semicolon and the other tokens say nothing about brackets.
  case semicolon =>
    simp only [Tree.tokenErrors, kind, filter_semicolonErrors]
    cases bracket <;> rfl
  all_goals
    simp only [Tree.tokenErrors, kind]
    repeat' split
    all_goals cases bracket <;> simp_all [Bracket.closing, concerns, unopened, unterminated]

/-- Of the errors at a symbol, the ones about brackets say that it closes nothing. -/
theorem filter_symbolErrors (symbol : Symbol) (closing : List Token) :
    bracket.unopenedErrors closing ++
        (tree.symbolErrors brackets before after symbol).filter (bracket.concerns ·.1) =
      bracket.unopenedErrors (bracket.passSymbol ⟨closing, bracket.openIn brackets⟩ symbol).closing := by
  cases symbol with
  | node id =>
    -- A node changes nothing, and no error at it is about a bracket.
    simp only [Tree.symbolErrors, passSymbol]
    split
    · rw [filter_nodeErrors, List.append_nil]
    · rw [List.filter_nil, List.append_nil]
  | token token =>
    have distinct : bracket.opening ≠ bracket.closing := by cases bracket <;> decide
    simp only [Tree.symbolErrors, filter_tokenErrors, passSymbol, pass]
    by_cases opens : token.kind = bracket.opening
    · simp [opens, distinct]
    · by_cases closes : token.kind = bracket.closing
      · -- The token is the one left over if nothing of its shape is open.
        cases opened : bracket.openIn brackets with
        | nil => simp [distinct.symm, closes, unopenedErrors]
        | cons => simp [distinct.symm, closes]
      · simp [opens, closes]

/-- What is open behind a symbol is what matching leaves open. -/
theorem openIn_pass (symbol : Symbol) (closing : List Token) :
    bracket.openIn (brackets.pass before symbol) =
      (bracket.passSymbol ⟨closing, bracket.openIn brackets⟩ symbol).opening := by
  cases symbol with
  | node id => rfl
  | token token =>
    obtain ⟨curlies, squares⟩ := brackets
    -- Each kind of bracket changes the list of its own shape only.
    cases bracket <;> cases kind : token.kind <;>
      simp [OpenBrackets.pass, passSymbol, pass, openIn, Bracket.opening, Bracket.closing, kind]
    · cases curlies <;> rfl
    · cases squares <;> rfl

/-- Of the errors at the brackets that are still open at the end, the ones of a shape. -/
theorem filter_unterminated :
    brackets.unterminated.filter (bracket.concerns ·.1) =
      bracket.unterminatedErrors (bracket.openIn brackets).reverse := by
  -- Both shapes of brackets are checked, and each picks out its own errors.
  cases bracket <;>
    simp [OpenBrackets.unterminated, concerns, unterminatedErrors, openIn, unterminated, unopened,
      List.filter_map, Function.comp_def]

/-- The errors about the brackets that matching leaves over: first those that close nothing. -/
def errors (left : Unmatched) : List SyntaxError :=
  bracket.unopenedErrors left.closing ++ bracket.unterminatedErrors left.opening.reverse

/-- The errors about brackets at symbols, behind those at closing brackets in front of them, are the
ones about what matching leaves over. -/
theorem filter_errorsFrom (symbols : List Symbol) (closing : List Token) :
    bracket.unopenedErrors closing ++
        (tree.errorsFrom brackets before symbols).filter (bracket.concerns ·.1) =
      bracket.errors (symbols.foldl bracket.passSymbol ⟨closing, bracket.openIn brackets⟩) := by
  induction symbols generalizing brackets before closing with
  | nil => rw [Tree.errorsFrom, filter_unterminated]; rfl
  | cons symbol rest ih =>
    -- The errors at the symbol are joined to the ones in front of it.
    rw [Tree.errorsFrom, List.filter_append, ← List.append_assoc, filter_symbolErrors, ih,
      openIn_pass, List.foldl_cons]

/-- The errors about brackets of a stack are those about what matching leaves over among its
symbols. -/
theorem filter_syntaxErrors (symbols : List Symbol) (ending : Span) :
    (tree.syntaxErrors symbols ending).filter (bracket.concerns ·.1) =
      bracket.errors (symbols.foldl bracket.passSymbol ⟨[], []⟩) := by
  -- The scan from the first symbol starts with no bracket open.
  have none : bracket.openIn .none = [] := by cases bracket <;> rfl
  have whole := bracket.filter_errorsFrom tree .none [] symbols []
  rw [none] at whole
  rw [← whole]
  unfold Tree.syntaxErrors
  split
  · -- That symbols are unexpected says nothing about brackets.
    next empty =>
    rw [empty]
    cases bracket <;> rfl
  · rfl

variable {bracket tree}

/-- What matching leaves over among symbols is what it leaves over among the phrases that they show. -/
theorem foldr_shows {symbols : List Symbol} {phrases : List Phrase}
    (shown : List.Forall₂ tree.Shows symbols (phrases.map Phrase.piece)) :
    symbols.foldr (fun symbol left => bracket.passSymbol left symbol) ⟨[], []⟩ =
      bracket.among phrases := by
  induction phrases generalizing symbols with
  | nil => cases shown; rfl
  | cons phrase rest ih =>
    obtain ⟨symbol, below, first, others, rfl⟩ := List.forall₂_cons_right_iff.mp shown
    rw [List.foldr_cons, ih others]
    -- A symbol and the phrase that it shows are both tokens or both nodes.
    cases symbol with
    | token given =>
      cases phrase with
      | token => cases first; rfl
      | _ => cases first
    | node id =>
      cases phrase with
      | token => cases first
      | _ => rfl

end Bracket

/-- Whether a diagnostic is about a bracket of a shape. -/
def Diagnostic.concerns (bracket : Bracket) (diagnostic : Diagnostic) : Bool :=
  match diagnostic.problem with
  | .parse problem => bracket.concerns problem
  | _ => false

namespace Diagnostic

variable {bracket : Bracket} {report : Diagnostic}

/-- What is about a bracket belongs to no class of warnings. -/
theorem classless_of_concerns (concerns : report.concerns bracket = true) :
    report.warningClass? = none := by
  -- An error about a bracket is one of parsing, which has no class.
  unfold Diagnostic.concerns at concerns
  split at concerns
  · next problem parse => simp [warningClass?, parse, Problem.warningClass?]
  · cases concerns

/-- What leaves a parse its root is about no bracket. -/
theorem Lenient.not_concerns (lenient : report.Lenient) : report.concerns bracket = false := by
  -- What is lenient about parsing names a class, and no bracket.
  unfold Diagnostic.concerns
  split
  · next problem parse =>
    obtain ⟨name, rfl⟩ := lenient problem parse
    cases bracket <;> rfl
  · rfl

end Diagnostic

namespace Parser

variable {parser next : Parser} {phrases : List Phrase} {bracket : Bracket}

/-- Reports that leave a parse its root are about no bracket. -/
theorem filter_lenient {events : List Event}
    (lenient : ∀ report, .report report ∈ events → report.Lenient) :
    (events.filterMap Event.report?).filter (·.concerns bracket) = [] := by
  refine List.filter_eq_nil_iff.mpr fun report member => ?_
  obtain ⟨event, member, same⟩ := List.mem_filterMap.mp member
  -- Suppressions are no reports, and a lenient report is about no bracket.
  cases event with
  | suppress => cases same
  | report other =>
    cases same
    simp [(lenient report member).not_concerns]

/-- The reports that are made of errors are about brackets as the errors are. -/
theorem filter_reported (errors : List SyntaxError) :
    ((errors.map fun error => Event.report (.located (.parse error.1) error.2)).filterMap
      Event.report?).filter (·.concerns bracket) =
      (errors.filter (bracket.concerns ·.1)).map fun error => .located (.parse error.1) error.2 := by
  -- Each event is the report of one error, so filtering reports is filtering errors.
  rw [List.filterMap_map]
  have reported : errors.filterMap (some ∘ fun error => .located (.parse error.1) error.2) =
      errors.map fun error => Diagnostic.located (.parse error.1) error.2 :=
    congrFun List.filterMap_eq_map errors
  exact (congrArg _ reported).trans List.filter_map

/-- The end of the tokens reports the brackets that matching leaves over among them. -/
theorem filter_finish (shows : parser.Shows phrases) (lenient : parser.Lenient) {ending : Span}
    (done : parser.finish ending = .ok next) :
    (next.events.filterMap Event.report?).filter (·.concerns bracket) =
      (bracket.errors (bracket.among phrases)).map fun error => .located (.parse error.1) error.2 := by
  -- Either the stack is made the root, or its errors are added to the record.
  obtain ⟨finished, done', finishes⟩ := finish_of_shows shows ending
  obtain rfl : finished = next := Except.ok.inj (done'.symm.trans done)
  obtain ⟨rooted, more, added, warnings⟩ | rfl := finish_cases done
  · -- With a root there is a file and nothing else, in which no bracket is left over.
    have file : bracket.errors (bracket.among phrases) = [] := by
      have root := finishes.root
      unfold Phrase.items? at root
      split at root
      · next items shape =>
        split at shape
        · rfl
        · rfl
        · cases shape
      · rw [root] at rooted
        cases rooted
    -- Everything recorded so far is lenient, so none of it is about a bracket.
    have quiet : ∀ report, .report report ∈ finished.events → report.Lenient := by
      intro report member
      rw [added] at member
      exact (List.mem_append.mp member).elim (lenient report) fun fresh =>
        Diagnostic.lenient_of_warning (warnings report fresh)
    rw [file, filter_lenient quiet, List.map_nil]
  · -- Without a root the errors of the stack are reported behind everything else.
    -- The brackets left over on the stack are those among the phrases.
    have symbols : parser.stack.toList.foldl bracket.passSymbol ⟨[], []⟩ = bracket.among phrases := by
      rw [SymbolStack.toList, List.foldl_reverse]
      exact Bracket.foldr_shows shows.shown
    have explained := bracket.filter_syntaxErrors parser.tree parser.stack.toList ending
    rw [symbols] at explained
    rw [← explained]
    simp only [record, List.filterMap_append, List.filter_append, filter_lenient lenient,
      List.nil_append]
    exact filter_reported _

end Parser

namespace Preprocessor

/-- The errors about brackets that a parse records are those about the brackets that matching leaves
over among all tokens of the stream: each closing bracket in front of which none is open, in order,
and then each opening bracket that is never closed, in order. -/
theorem bracket_errors {disk : Disk} {stream : Preprocessor} {tree : Tree}
    (parsed : (stream.parse disk).result = .ok tree) (record : Diagnostics) (bracket : Bracket) :
    (record.applyAll (stream.parse disk).events).entries.filter (·.concerns bracket) =
      record.entries.filter (·.concerns bracket) ++
        (bracket.errors (bracket.unmatched (stream.drain disk).toList)).map
          fun error => .located (.parse error.1) error.2 := by
  obtain ⟨early, last⟩ := early_drain disk stream
  -- At the start nothing was reported, and nothing is on the stack.
  have start : Parser.start.Lenient := by simp [Parser.Lenient, Parser.start]
  obtain ⟨reduced, finished, token, shows, lenient, made, ran, -⟩ :=
    Parser.run_finishes last early (show Parser.start.Shows [] from Stacked.empty) start parsed
  have events : (stream.parse disk).events = finished.events := congrArg Parsed.events ran
  rw [record.filter_applyAll fun entry => entry.classless_of_concerns, events,
    Parser.filter_finish shows lenient made, Bracket.among_readAll]
  rfl

/-- The tokens of an option and two brackets that belong to nothing. -/
theorem reads_strayBrackets :
    ArgSchema.Reads (Utf8.encode "-a\x7b\x7d\x7d[") [(.shortlabel, "a"), (.openCurly, "\x7b"),
      (.closeCurly, "\x7d"), (.closeCurly, "\x7d"), (.openSquare, "[")] [] :=
  .of_scan 6 (by decide +kernel)

/-- Behind an option a closing curly bracket and an opening square bracket are reported, while the
brackets of the option's body are not. -/
theorem bracket_errors_behind_option :
    ∃ (disk : Disk) (stream : Preprocessor) (tree : Tree) (label opening closing stray square : Token),
      (stream.parse disk).result = .ok tree ∧
      (stream.drain disk).toList = [label, opening, closing, stray, square] ∧
      [label, opening, closing, stray, square].map (·.kind) =
        [.shortlabel, .openCurly, .closeCurly, .closeCurly, .openSquare] ∧
      (Diagnostics.empty.applyAll (stream.parse disk).events).entries.filter (·.concerns .curly) =
        [.located (.parse .unmatchedCloseCurly) stray.span] ∧
      (Diagnostics.empty.applyAll (stream.parse disk).events).entries.filter (·.concerns .square) =
        [.located (.parse .unterminatedSquare) square.span] := by
  -- The tokens are known up to their spans, which is all that matching needs.
  let disk : Disk := .empty
  let stream := ofSource "schema" (Utf8.encode "-a\x7b\x7d\x7d[") []
  obtain ⟨same, ⟨last, ends⟩, -⟩ :=
    drain_of_reads disk "schema" (Utf8.encode "-a\x7b\x7d\x7d[") [] reads_strayBrackets (by decide)
  change (stream.drain disk).toList.map _ = _ at same
  generalize tokens : (stream.drain disk).toList = list at same
  simp only [List.map_eq_cons_iff, List.map_eq_nil_iff, Prod.mk.injEq] at same
  obtain ⟨label, _, rfl, ⟨short, _⟩, opening, _, rfl, ⟨opens, _⟩, closing, _, rfl, ⟨closes, _⟩,
    stray, _, rfl, ⟨again, _⟩, square, _, rfl, ⟨opens', _⟩, rfl⟩ := same
  obtain ⟨finished, -, parsed⟩ := TokenStream.parse_finishes ends
  have parsed : (stream.parse disk).result = .ok finished.tree := congrArg Parsed.result parsed
  have curly := bracket_errors parsed .empty .curly
  have squares := bracket_errors parsed .empty .square
  -- Matching takes the brackets of the body away.
  rw [tokens] at curly squares
  refine ⟨disk, stream, _, label, opening, closing, stray, square, parsed, tokens, ?_, ?_, ?_⟩
  · simp [short, opens, closes, again, opens']
  · rw [curly]
    simp [Bracket.unmatched, Bracket.pass, Bracket.opening, Bracket.closing, Bracket.errors,
      Bracket.unopenedErrors, Bracket.unterminatedErrors, Bracket.unopened, short, opens, closes,
      again, opens', Diagnostics.empty]
  · rw [squares]
    simp [Bracket.unmatched, Bracket.pass, Bracket.opening, Bracket.closing, Bracket.errors,
      Bracket.unopenedErrors, Bracket.unterminatedErrors, Bracket.unterminated, short, opens, closes,
      again, opens', Diagnostics.empty]

end Preprocessor

end ArgSchema
