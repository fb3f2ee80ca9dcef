import ArgSchema.Parser.Basic
import ArgSchema.Proofs.Parser.Closing

/-! Parsing never fails by itself, and its tree is the syntax that its tokens are read as. -/

namespace ArgSchema

/-- A tree's root draws the file of some items. -/
def Tree.Describes (tree : Tree) (items : List Item) : Prop :=
  ∃ root, tree.root? = some root ∧ tree.Draws root (fileOutline items)

/-- Whether an event reports an error. -/
def Event.isError : Event → Bool
  | .report diagnostic => diagnostic.severity = .error
  | .suppress _ => false

/-- The tokens that a stream brings in front of its end. -/
def TokenStream.toList (stream : TokenStream) : List Token := stream.tokens.map (·.2)

namespace Parser

variable {parser : Parser} {phrases : List Phrase}

/-- A reduction succeeds and does to a stack what phrases tell. -/
theorem reduce_yields (shows : parser.Shows phrases) :
    Yields parser.reduce (Phrase.reduce phrases) := by
  have same := yields_of_shows shows
  unfold reduce
  cases top : parser.stack.symbols with
  | nil =>
    have stacked : Stacked parser.tree [] phrases := top ▸ shows
    obtain rfl := stacked.nil
    exact same
  | cons symbol below =>
    have stacked : Stacked parser.tree (symbol :: below) phrases := top ▸ shows
    obtain ⟨phrase, rest, rfl⟩ := stacked.uncons
    -- A symbol and the phrase that it shows are both tokens or both nodes.
    have shown := stacked.head
    cases symbol with
    | node id =>
      cases phrase with
      | token => cases shown
      | _ => exact same
    | token token =>
      cases phrase with
      | token given =>
        cases shown
        simp only [Phrase.reduce]
        -- A token reduces what is below it, each kind in its own way.
        by_cases value : token.kind.isValue = true
        · simp only [value, if_true]
          exact readValue_yields stacked.tail token value
        · simp only [value, Bool.false_eq_true, if_false]
          cases kind : token.kind with
          | semicolon => exact readSemicolon_yields shows top
          | type => exact readType_yields shows top kind
          | identifier => exact readWord_yields shows top
          | closeCurly => exact readCloseCurly_yields shows top
          | _ => exact same
      | _ => cases shown

/-- Recording events changes nothing on the stack. -/
theorem Shows.record (shows : parser.Shows phrases) (events : List Event) :
    (parser.record events).Shows phrases := shows

/-- A shifted token is shown on top. -/
theorem Shows.shift (shows : parser.Shows phrases) (token : Token) :
    (parser.shift token).Shows (.token token :: phrases) := Stacked.token shows token

/-- A file of its own is the root of a tree without one. -/
theorem setRoot_describes {tree : Tree} {file : NodeId} {items : List Item} (forest : tree.Forest)
    (rootless : tree.root? = none) (stands : tree.Stands file (fileOutline items)) :
    ∃ rooted, tree.setRoot file = .ok rooted ∧ rooted.Forest ∧ rooted.Describes items := by
  obtain ⟨node, found, kind, alone⟩ := stands.live
  have type : node.type = .file := by
    rw [Node.type, kind]
    rfl
  -- Only the root was set, so every drawing stays.
  have drawn : ∀ outline, tree.Draws file outline →
      Tree.Draws { tree with root? := some file } file outline := by
    rintro ⟨kind, below⟩ drawn
    have kept : ∀ {id : NodeId} {node : Node}, tree.get? id = some node →
        (Tree.get? { tree with root? := some file } id).map Node.contents = some node.contents :=
      fun live => congrArg (Option.map Node.contents) live
    exact Tree.Draws.congr forest (fun live _ => kept live) found (kept found) _ drawn
  refine ⟨{ tree with root? := some file }, ?_, forest.root found type alone, file, rfl,
    drawn _ stands.draws⟩
  simp [Tree.setRoot, found, type, alone, rootless]

/-- A stack that is no file has a syntax error. -/
theorem syntaxErrors_ne_nil (tree : Tree) (symbols : List Symbol) (ending : Span) :
    tree.syntaxErrors symbols ending ≠ [] := by
  -- Where no symbol has anything to report, the input is unexpected as a whole.
  unfold Tree.syntaxErrors
  split
  · simp
  · next errors nonempty => exact nonempty

/-- A parser that has made of phrases what it can. -/
structure Finishes (finished : Parser) (phrases : List Phrase) : Prop where
  /-- The tree is well formed. -/
  forest : finished.tree.Forest
  /-- The root is the file that the phrases are, if they are one. -/
  root : match Phrase.items? phrases with
    | some items => finished.tree.Describes items
    | none => finished.tree.root? = none
  /-- There is an error unless the phrases are a file. -/
  error : Phrase.items? phrases = none → ∃ event ∈ finished.events, event.isError = true

/-- Phrases that are no file are refused with an error. -/
theorem finishes_refused (shows : parser.Shows phrases) (none : Phrase.items? phrases = none)
    (ending : Span) :
    Finishes (parser.record ((parser.tree.syntaxErrors parser.stack.toList ending).map
      fun (problem, span) => .report (.located (.parse problem) span))) phrases := by
  refine ⟨shows.forest, ?_, fun _ => ?_⟩
  · rw [none]
    exact shows.rootless
  · -- There is always something to report.
    obtain ⟨⟨problem, span⟩, member⟩ := List.exists_mem_of_ne_nil _
      (syntaxErrors_ne_nil parser.tree parser.stack.toList ending)
    exact ⟨_, List.mem_append_right _ (List.mem_map.mpr ⟨_, member, rfl⟩), rfl⟩

/-- At the end of the tokens a file becomes the root, and anything else is refused. -/
theorem finish_of_shows (shows : parser.Shows phrases) (ending : Span) :
    ∃ finished, parser.finish ending = .ok finished ∧ finished.Finishes phrases := by
  have refused := fun none => finishes_refused shows none ending
  unfold finish
  cases top : parser.stack.symbols with
  -- Without symbols an empty file is made.
  | nil =>
    have stacked : Stacked parser.tree [] phrases := top ▸ shows
    obtain rfl := stacked.nil
    have made := Tree.Keeps.alloc stacked.forest .file ending
    obtain ⟨rooted, done, forest, describes⟩ := @setRoot_describes _ _ [] made.forest
      shows.rootless (Tree.stands_alloc parser.tree .file ending)
    simp only [done]
    exact ⟨_, rfl, forest, describes, fun none => by cases none⟩
  | cons first rest =>
    have stacked : Stacked parser.tree (first :: rest) phrases := top ▸ shows
    obtain ⟨phrase, others, rfl⟩ := stacked.uncons
    cases first with
    | token token =>
      cases phrase with
      | token given => exact ⟨_, rfl, refused rfl⟩
      | _ => cases stacked.head
    | node file =>
      cases rest with
      -- More than one symbol is no file, whatever the symbols are.
      | cons second rest =>
        obtain ⟨other, others, rfl⟩ := stacked.tail.uncons
        refine ⟨_, rfl, refused ?_⟩
        cases phrase <;> rfl
      | nil =>
        obtain rfl := stacked.tail.nil
        simp only [stacked.head.isOfType]
        -- A single node becomes the root if it is a file.
        by_cases typed : phrase.piece.type? = some .file
        · obtain ⟨items, rfl⟩ := Phrase.of_type? typed
          obtain ⟨rooted, done, forest, describes⟩ :=
            setRoot_describes shows.forest shows.rootless stacked.head
          simp only [typed, decide_true, if_true, done]
          exact ⟨_, rfl, forest, describes, fun none => by cases none⟩
        · simp only [typed, decide_false, Bool.false_eq_true, if_false]
          refine ⟨_, rfl, refused ?_⟩
          cases phrase with
          | file => exact absurd rfl typed
          | _ => rfl

/-- Reading a token shifts it behind the reduction that it brings about. -/
theorem read_of_reduce {next : Parser} {reports : List Diagnostic}
    (done : (parser.record (reports.map .report)).reduce = .ok next) (token : Token) :
    parser.read reports token = .ok (next.shift token) := by
  simp [Parser.read, done, bind, Except.bind, pure, Except.pure]

/-- A run without tokens is the reduction that the end brings about, and the finish behind it. -/
theorem run_nil {ending : Reading Preprocessor Token} {last : Token} {next finished : Parser}
    (ends : ending.result = .ok last)
    (done : (parser.record (ending.reports.map .report)).reduce = .ok next)
    (finish : next.finish last.span = .ok finished) :
    parser.run ending [] = ⟨finished.events, .ok finished.tree⟩ := by
  simp only [run, conclude, ends, done, Except.bind, finish]

/-- A run goes on behind the reduction that a token brings about, with the token shifted. -/
theorem run_cons {next : Parser} {reports : List Diagnostic}
    (done : (parser.record (reports.map .report)).reduce = .ok next) (token : Token)
    (ending : Reading Preprocessor Token) (rest : List (List Diagnostic × Token)) :
    parser.run ending ((reports, token) :: rest) = (next.shift token).run ending rest := by
  simp only [run, read_of_reduce done]

/-- Tokens that are read without a report and leave a file are run to its tree, whatever ends them. -/
theorem run_of_file {ending : Reading Preprocessor Token} {last : Token} {tokens : List Token}
    {reduced : Parser} {file : NodeId} {tree : Tree} (quiet : ending.reports = [])
    (ends : ending.result = .ok last)
    (grown : tokens.foldlM (fun (parser : Parser) token => parser.read [] token) parser >>= reduce =
      .ok reduced)
    (single : reduced.stack.symbols = [.node file])
    (isFile : reduced.tree.isOfType (.only .file) file = true)
    (rooted : reduced.tree.setRoot file = .ok tree) :
    (parser.run ending (tokens.map ([], ·))).result = .ok tree := by
  induction tokens generalizing parser with
  | nil =>
    have done : parser.reduce = .ok reduced := grown
    have same : parser.record [] = parser := by simp [record]
    simp [run, conclude, quiet, ends, same, done, Except.bind, finish, single, isFile, rooted, bind,
      pure, Except.pure]
  | cons token rest ih =>
    -- The fold reads the first token as the run does, and fails if that fails.
    rw [List.foldlM_cons] at grown
    cases first : parser.read [] token with
    | error error => simp [first, bind, Except.bind] at grown
    | ok read =>
      rw [first] at grown
      simpa only [List.map_cons, run, first] using ih grown

/-- The rest of a run: tokens are read, and what they leave is finished. -/
theorem run_of_shows {ending : Reading Preprocessor Token} {last : Token}
    (ends : ending.result = .ok last) (tokens : List (List Diagnostic × Token)) {read : List Phrase}
    (shows : parser.Shows phrases) (reduced : Phrase.reduce phrases = read) :
    ∃ finished : Parser, finished.Finishes (Phrase.readAll read (tokens.map (·.2))) ∧
      parser.run ending tokens = ⟨finished.events, .ok finished.tree⟩ := by
  -- A token is reduced when the next one arrives, so the last reduction is left to the end.
  induction tokens generalizing parser phrases read with
  | nil =>
    obtain ⟨next, done, shows'⟩ := reduce_yields (shows.record (ending.reports.map .report))
    rw [reduced] at shows'
    obtain ⟨finished, finish, final⟩ := finish_of_shows shows' last.span
    exact ⟨finished, final, run_nil ends done finish⟩
  | cons first rest ih =>
    obtain ⟨reports, token⟩ := first
    obtain ⟨next, done, shows'⟩ := reduce_yields (shows.record (reports.map .report))
    rw [reduced] at shows'
    obtain ⟨finished, final, ran⟩ := ih (shows'.shift token) rfl
    exact ⟨finished, final, (run_cons done token ending rest).trans ran⟩

end Parser

/-- Parsing the tokens of a stream that does not fail leaves the syntax that they are read as. -/
theorem TokenStream.parse_finishes {stream : TokenStream} {last : Token}
    (ends : stream.ending.result = .ok last) :
    ∃ finished : Parser, finished.Finishes (Phrase.readAll [] stream.toList) ∧
      stream.parse = ⟨finished.events, .ok finished.tree⟩ :=
  Parser.run_of_shows ends stream.tokens Stacked.empty rfl

end ArgSchema
