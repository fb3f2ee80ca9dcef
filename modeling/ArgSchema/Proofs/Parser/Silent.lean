import ArgSchema.Proofs.Parser.Completeness
import ArgSchema.Proofs.Parser.Warnings
import Mathlib.Data.List.Chain

/-! Silent parses: tokens of a file are read without an error of the parser's own. -/

namespace ArgSchema

namespace Token

/-- A word behind a suppression names a class of warnings that there is. -/
def Suits (modifier word : Token) : Prop :=
  modifier.isSuppress = true → word.kind = .identifier →
    (WarningClass.ofName? word.text).isSome = true

/-- Tokens that suppress known classes only and leave no suppression open. -/
structure Settled (tokens : List Token) : Prop where
  /-- What stands behind a suppression suits it. -/
  chain : tokens.IsChain Suits
  /-- No suppression is the last token. -/
  closed : ∀ last ∈ tokens.getLast?, last.isSuppress = false

variable {tokens more : List Token}

/-- Settled tokens stay so with others behind them. -/
theorem Settled.append (first : Settled tokens) (second : Settled more) :
    Settled (tokens ++ more) where
  chain := List.isChain_append.mpr ⟨first.chain, second.chain, fun last member _ _ suppress =>
    absurd suppress (by simp [first.closed last member])⟩
  closed last member := by
    rw [List.getLast?_append] at member
    -- The last token is that of the second part, unless the second part is empty.
    cases found : more.getLast? with
    | none => exact first.closed last (by simpa [found] using member)
    | some other => exact second.closed last (by simpa [found] using member)

/-- Tokens without suppressions are settled. -/
theorem settled_of_plain (plain : ∀ token ∈ tokens, token.isSuppress = false) : Settled tokens where
  chain := by
    -- Nothing needs settling where there is no suppression.
    refine List.Pairwise.isChain (List.pairwise_of_forall_mem_list fun token member _ _ suppress => ?_)
    rw [plain token member] at suppress
    cases suppress
  closed last member := plain last (List.mem_of_getLast? member)

/-- A token of another kind is no suppression. -/
theorem plain_of_kind {token : Token} {kind : TokenKind} (same : token.kind = kind)
    (other : kind ≠ .modifier) : token.isSuppress = false := by
  simp [Token.isSuppress, same, other]

/-- Settled tokens suppress known classes only. -/
theorem Settled.allKnown (settled : Settled tokens) : AllKnown tokens :=
  fun _ _ inside => by
    -- Neighbours are next to each other in the chain.
    have pair := List.IsChain.infix settled.chain inside
    exact List.isChain_pair.mp pair

end Token

namespace Grammar

open Token (Settled settled_of_plain plain_of_kind)

variable {tokens : List Token}

/-- A sequence of settled phrases is settled. -/
theorem Sequence.settled {α : Type} {Phrase : α → List Token → Prop} {items : List α}
    (written : Sequence Phrase items tokens)
    (each : ∀ {item tokens}, Phrase item tokens → Settled tokens) : Settled tokens := by
  -- By induction on the sequence: each phrase adds tokens that are settled.
  induction written with
  | none => exact settled_of_plain nofun
  | more _ last ih => exact ih.append (each last)

/-- A suppression is settled. -/
theorem Suppression.settled {kind : WarningClass} (written : Suppression kind tokens) :
    Settled tokens := by
  cases written with
  | pair _ word known =>
    -- The word behind the modifier names a class, and the word is last.
    refine ⟨List.isChain_pair.mpr fun _ _ => by rw [known]; rfl, ?_⟩
    rintro _ ⟨⟩
    exact plain_of_kind word nofun

/-- A value is settled. -/
theorem Value.settled {leaf : NodeKind} (written : Value leaf tokens) : Settled tokens := by
  -- A value is a single token, and no suppression is one.
  cases written with
  | @token token _ given =>
    obtain ⟨value, -⟩ := Token.value?_eq_some_iff.mp given
    refine settled_of_plain fun other member => ?_
    rw [List.mem_singleton.mp member]
    refine plain_of_kind rfl fun modifier => ?_
    rw [modifier] at value
    cases value

/-- Semicolons are settled. -/
theorem Strays.settled (strays : Strays tokens) : Settled tokens :=
  settled_of_plain fun token member => plain_of_kind (strays token member) nofun

/-- A property is settled. -/
theorem Config.settled {statement : Statement} (written : Config statement tokens) :
    Settled tokens := by
  cases written with
  | @statement _ _ _ marks word literals closing strays marked named _ written kind stray =>
    -- What heads a property is a word, and no suppression.
    have keyword : Settled [word] := by
      refine settled_of_plain fun other member => ?_
      rw [List.mem_singleton.mp member]
      refine plain_of_kind rfl fun modifier => ?_
      simp [Token.keyword?, Token.isKeyword, modifier] at named
    have ended : Settled [closing] := Strays.settled (by simpa [Strays] using kind)
    -- Part by part, none of which leaves a suppression open.
    have whole := (marked.settled Suppression.settled).append (keyword.append
      ((written.settled Value.settled).append (ended.append (Strays.settled stray))))
    simpa using whole

/-- A body is settled. -/
theorem Body.settled {body : List Statement} (written : Body body tokens) : Settled tokens := by
  -- The braces are plain tokens, and between them every statement is settled.
  cases written with
  | @braces opening strays tokens closing curly stray written kind =>
    have opened : Settled [opening] := settled_of_plain (by simpa using plain_of_kind curly nofun)
    have closed : Settled [closing] := settled_of_plain (by simpa using plain_of_kind kind nofun)
    have whole := opened.append ((Strays.settled stray).append
      ((written.settled Config.settled).append closed))
    simpa using whole

/-- A phrase in brackets holds no suppression if the phrase holds none. -/
theorem Bracketed.plain {Phrase : List Token → Prop} {optional : Bool}
    (written : Bracketed Phrase optional tokens)
    (inner : ∀ {tokens}, Phrase tokens → ∀ token ∈ tokens, token.isSuppress = false) :
    ∀ token ∈ tokens, token.isSuppress = false := by
  cases written with
  | bare given => exact inner given
  | @brackets opening tokens closing square given kind =>
    -- Brackets are no suppressions.
    have opened := plain_of_kind square nofun
    have closed := plain_of_kind kind nofun
    simpa [or_imp, forall_and, opened, closed] using inner given

/-- A type list holds no suppression. -/
theorem TypeList.plain {names : List String} {variadic : Bool}
    (written : TypeList names variadic tokens) : ∀ token ∈ tokens, token.isSuppress = false := by
  -- Each type is a name in angle brackets.
  have types : ∀ {names tokens}, Sequence TypeName names tokens →
      ∀ token ∈ tokens, token.isSuppress = false := by
    intro names tokens written
    induction written with
    | none => exact nofun
    | more _ last ih =>
      obtain ⟨kind⟩ := last
      simpa [or_imp, forall_and, plain_of_kind kind nofun] using ih
  cases written with
  | once _ written => exact types written
  | variadic _ written kind =>
    simpa [or_imp, forall_and, plain_of_kind kind nofun] using types written

/-- A heading holds no suppression. -/
theorem Header.plain {heading : Heading} (written : Header heading tokens) :
    ∀ token ∈ tokens, token.isSuppress = false := by
  -- Labels are no modifiers either.
  have labels : ∀ {labels tokens}, Labels labels tokens →
      ∀ token ∈ tokens, token.isSuppress = false := by
    intro labels tokens written
    cases written with
    | short kind | long kind => simpa using plain_of_kind kind nofun
    | both kind kind' => simpa using ⟨plain_of_kind kind nofun, plain_of_kind kind' nofun⟩
  cases written with
  | metadata kind _ => simpa using plain_of_kind kind nofun
  | typeDefinition name =>
    obtain ⟨kind⟩ := name
    simpa using plain_of_kind kind nofun
  | positional word list =>
    have named := word.plain fun {tokens} given => by
      obtain ⟨kind, _⟩ := given
      simpa using plain_of_kind kind nofun
    exact List.forall_mem_append.mpr ⟨named, list.plain TypeList.plain⟩
  | flag named => exact named.plain labels
  | option named list => exact List.forall_mem_append.mpr ⟨named.plain labels, list.plain TypeList.plain⟩

/-- A file is settled. -/
theorem File.settled {items : List Item} (written : File items tokens) : Settled tokens := by
  cases written with
  | items _ written =>
    refine written.settled fun {item tokens} given => ?_
    cases given with
    | suppress pair => exact pair.settled
    | definition given =>
      cases given with
      -- A header suppresses nothing, and its body is settled.
      | definition written enclosed =>
        exact (settled_of_plain written.plain).append enclosed.settled

end Grammar

/-- A suppression on top of what was read is the last token, if all suppressed classes are known. -/
theorem Phrase.last_of_readAll {tokens : List Token} (known : Token.AllKnown tokens)
    {modifier : Token} {below : List Phrase} (top : readAll [] tokens = .token modifier :: below)
    (suppress : modifier.isSuppress = true) : ∃ before, tokens = before ++ [modifier] := by
  -- What was read spells the phrases, of which the modifier is the last.
  obtain ⟨kept, _, all, spelled⟩ := readAll_spells tokens
  rw [all known, top] at spelled
  obtain ⟨before, same, _⟩ := spelled.pop_token fun curly => by
    rw [Token.plain_of_kind curly nofun] at suppress
    cases suppress
  exact ⟨before, same⟩

namespace Parser

variable {parser next : Parser} {phrases : List Phrase}

/-- What rejects a suppression shows the word and the modifier. -/
theorem Shows.rejects (shows : parser.Shows phrases) {word : Token}
    (rejects : parser.Rejects word) :
    ∃ modifier below, phrases = .token word :: .token modifier :: below ∧
      modifier.isSuppress = true ∧ word.kind = .identifier ∧
      WarningClass.ofName? word.text = none := by
  obtain ⟨modifier, symbols, top, suppress, kind, unknown⟩ := rejects
  have stacked : Stacked parser.tree (.token word :: .token modifier :: symbols) phrases :=
    top ▸ shows
  -- The two symbols show two phrases, which are the same tokens.
  obtain ⟨first, rest, rfl⟩ := stacked.uncons
  obtain ⟨second, below, rfl⟩ := stacked.tail.uncons
  cases first with
  | token given =>
    cases stacked.head
    cases second with
    | token given' =>
      cases stacked.tail.head
      exact ⟨modifier, below, rfl, suppress, kind, unknown⟩
    | _ => cases stacked.tail.head
  | _ => cases stacked.head

/-- Making a file the root reports no error. -/
theorem errors_finish (shows : parser.Shows phrases) {items : List Item}
    (file : Phrase.items? phrases = some items) {ending : Span}
    (done : parser.finish ending = .ok next) {event : Event} (member : event ∈ next.events)
    (error : event.isError = true) : event ∈ parser.events := by
  -- Naming the root reports nothing.
  have rooted : ∀ {parser : Parser} {tree : Tree} {file : NodeId},
      (do return { parser with tree := ← tree.setRoot file } : Except TreeError Parser) = .ok next →
        next.events = parser.events := by
    intro parser tree file done
    obtain ⟨tree, -, done⟩ := ok_of_bind done
    cases done
    rfl
  unfold finish at done
  cases top : parser.stack.symbols with
  | nil =>
    simp only [top] at done
    exact rooted done ▸ member
  | cons symbol below =>
    have stacked : Stacked parser.tree (symbol :: below) phrases := top ▸ shows
    obtain ⟨phrase, rest, rfl⟩ := stacked.uncons
    -- Phrases that are a file are one phrase, which is shown as a node.
    obtain ⟨rfl, rfl⟩ : phrase = .file items ∧ rest = [] := by
      unfold Phrase.items? at file
      split at file
      · next none => cases none
      · next given same =>
        cases file
        exact List.cons.inj same
      · cases file
    cases symbol with
    | token => cases stacked.head
    | node file =>
      cases below with
      | cons =>
        obtain ⟨_, _, same⟩ := stacked.tail.uncons
        cases same
      | nil =>
        -- The node on the stack is a file, so it becomes the root.
        have type : parser.tree.isOfType (.only .file) file = true := by
          rw [stacked.head.isOfType]
          rfl
        simp only [top, type, if_true] at done
        rw [rooted done] at member
        unfold warnTrailing at member
        split at member
        · split at member
          · -- A suppression at the end is worth a warning, which is no error.
            refine (List.mem_append.mp member).resolve_right fun fresh => ?_
            rw [List.mem_singleton.mp fresh] at error
            cases error
          · exact member
        · exact member

/-- A reduction reports an error only for an unknown class behind a suppression. -/
theorem errors_reduce {seen : List Token} (known : Token.AllKnown seen)
    (shows : parser.Shows phrases)
    (pending : ∀ word modifier below, phrases = .token word :: .token modifier :: below →
      modifier.isSuppress = true → [modifier, word] <:+: seen)
    {reports : List Diagnostic} (done : (parser.record (reports.map .report)).reduce = .ok next)
    {event : Event} (member : event ∈ next.events) (error : event.isError = true) :
    event ∈ parser.events ++ reports.map .report := by
  obtain ⟨more, added, placed⟩ := reports_of_reduce done
  rw [added] at member
  refine (List.mem_append.mp member).resolve_right fun fresh => ?_
  cases event with
  | suppress => cases error
  | report report =>
    -- The only error is the one at a word that names no class.
    obtain ⟨word, rejects, -⟩ := (placed report fresh).error (by simpa [Event.isError] using error)
    obtain ⟨modifier, below, rfl, suppress, kind, unknown⟩ := (shows.record _).rejects rejects
    have named := known modifier word (pending word modifier below rfl suppress) suppress kind
    rw [unknown] at named
    cases named

/-- The errors of a run over the tokens of a file are those that the tokens brought. -/
theorem errors_run {ending : Reading Preprocessor Token} {last : Token}
    (ends : ending.result = .ok last) {items : List Item} {event : Event}
    (error : event.isError = true) (rest : List (List Diagnostic × Token)) {seen : List Token}
    (known : Token.AllKnown (seen ++ rest.map (·.2)))
    (file : Phrase.items? (Phrase.readAll [] (seen ++ rest.map (·.2))) = some items)
    (shows : parser.Shows phrases) (reduced : Phrase.reduce phrases = Phrase.readAll [] seen)
    (pending : ∀ word modifier below, phrases = .token word :: .token modifier :: below →
      modifier.isSuppress = true → [modifier, word] <:+: seen)
    (member : event ∈ (parser.run ending rest).events) :
    event ∈ parser.events ++ (rest.flatMap (·.1) ++ ending.reports).map .report := by
  induction rest generalizing parser phrases seen with
  | nil =>
    -- Behind the last token there is one more reduction, and then the file is made the root.
    obtain ⟨next, done, shows'⟩ := reduce_yields (shows.record (ending.reports.map .report))
    obtain ⟨finished, finish, -⟩ := finish_of_shows shows' last.span
    rw [run_nil ends done finish] at member
    rw [reduced] at shows'
    rw [List.map_nil, List.append_nil] at file
    exact errors_reduce known.front shows pending done (errors_finish shows' file finish member error)
      error
  | cons first rest ih =>
    obtain ⟨reports, token⟩ := first
    obtain ⟨next, done, shows'⟩ := reduce_yields (shows.record (reports.map .report))
    rw [reduced] at shows'
    rw [run_cons done] at member
    -- The token is one of those that were seen from here on.
    have split : seen ++ ((reports, token) :: rest).map (·.2) =
        (seen ++ [token]) ++ rest.map (·.2) := by simp
    rw [split] at known file
    have read : Phrase.reduce (.token token :: Phrase.readAll [] seen) =
        Phrase.readAll [] (seen ++ [token]) := by simp [Phrase.readAll, Phrase.read]
    -- A suppression on the stack is the token just before.
    have behind : ∀ word modifier below,
        Phrase.token token :: Phrase.readAll [] seen = .token word :: .token modifier :: below →
        modifier.isSuppress = true → [modifier, word] <:+: seen ++ [token] := by
      intro word modifier below same suppress
      obtain ⟨first, top⟩ := List.cons.inj same
      cases first
      obtain ⟨before, rfl⟩ := Phrase.last_of_readAll known.front.front top suppress
      exact ⟨before, [], by simp⟩
    -- An error is reported behind this token, or it was there before.
    have early := ih known file (shows'.shift token) read behind member
    simp only [List.flatMap_cons, List.append_assoc, List.map_append] at early ⊢
    rw [← List.append_assoc]
    refine (List.mem_append.mp early).elim (fun early => ?_) (List.mem_append_right _)
    exact List.mem_append_left _ (errors_reduce known.front.front shows pending done early error)

end Parser

/-- Parsing the tokens of a file records no errors but those that the stream brings. -/
theorem TokenStream.errors_parse {stream : TokenStream} {last : Token}
    (ends : stream.ending.result = .ok last) {items : List Item}
    (file : (items = [] ∧ stream.toList = []) ∨ Grammar.File items stream.toList) {event : Event}
    (member : event ∈ stream.parse.events) (error : event.isError = true) :
    event ∈ (stream.tokens.flatMap (·.1) ++ stream.ending.reports).map .report := by
  -- The tokens of a file are all known, so reading them is as the grammar has it.
  have known : Token.AllKnown stream.toList := by
    rcases file with ⟨_, empty⟩ | written
    · rw [empty]
      exact (Token.settled_of_plain (by simp)).allKnown
    · exact written.settled.allKnown
  have early := @Parser.errors_run .start [] _ _ ends items event error stream.tokens [] known
    ((Phrase.items?_readAll_iff known).mpr file) Stacked.empty rfl (by simp) member
  simpa [Parser.start] using early

end ArgSchema
