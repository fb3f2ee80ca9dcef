import ArgSchema.Proofs.Parser.Refinement
import ArgSchema.Proofs.Parser.Soundness
import ArgSchema.Proofs.Tree.Moves

/-! Warnings: a semicolon that is dropped is reported, and one that closes nothing is never dropped. -/

namespace ArgSchema

/-- A sequence of operations succeeds when each of them does. -/
theorem ok_of_bind {ε α β : Type} {first : Except ε α} {rest : α → Except ε β} {result : β}
    (done : first.bind rest = .ok result) :
    ∃ middle, first = .ok middle ∧ rest middle = .ok result := by
  cases first with
  | error => cases done
  | ok middle => exact ⟨middle, rfl, done⟩

namespace Parser

variable {parser next : Parser}

/-- Collecting a symbol reports nothing. -/
theorem events_collect {tree : Tree} {list : NodeKind} {below : List Symbol} {symbol : Symbol}
    {span : Span} (done : parser.collect tree list below symbol span = .ok next) :
    next.events = parser.events := by
  unfold collect at done
  -- The symbol joins the list or begins one, and only the tree changes.
  split at done
  · obtain ⟨grown, _, done⟩ := ok_of_bind done
    cases done
    rfl
  · obtain ⟨grown, _, done⟩ := ok_of_bind done
    cases done
    rfl

/-- Placing an item reports nothing. -/
theorem events_place {tree : Tree} {below : List Symbol} {id : NodeId} {span : Span}
    (done : parser.place tree below id span = .ok next) : next.events = parser.events := by
  -- Both ways to place a node leave the record alone.
  unfold place at done
  simp only at done
  split at done
  · exact events_collect done
  · cases done
    rfl

/-- Closing a property reports nothing. -/
theorem events_closeProperty {keyword semicolon : Token} {values : NodeId} {below : List Symbol}
    (done : parser.closeProperty keyword values semicolon below = .ok next) :
    next.events = parser.events := by
  obtain ⟨grown, _, done⟩ := ok_of_bind done
  exact events_collect done

/-- Closing a definition reports nothing. -/
theorem events_closeDefinition {header : Header} {opening closing : Token} {body : Option NodeId}
    {below : List Symbol}
    (done : parser.closeDefinition header opening body closing below = .ok next) :
    next.events = parser.events := by
  obtain ⟨named, _, done⟩ := ok_of_bind done
  -- With or without properties, the definition is placed as an item.
  cases body with
  | none | some configs =>
    obtain ⟨grown, _, done⟩ := ok_of_bind done
    exact events_place done

/-- A suppression on top of the stack drops no class that there is, as its word names none. -/
def Rejects (parser : Parser) (word : Token) : Prop :=
  ∃ modifier below, parser.stack.symbols = .token word :: .token modifier :: below ∧
    modifier.isSuppress = true ∧ word.kind = .identifier ∧ WarningClass.ofName? word.text = none

/-- What a reduction can report. -/
structure Remarks (parser : Parser) (report : Diagnostic) : Prop where
  /-- It concerns the token on top of the stack. -/
  place : ∃ top below, parser.stack.symbols = .token top :: below ∧ report.span? = some top.span
  /-- It is an error only about a suppression of an unknown class. -/
  error : report.severity = .error →
    ∃ word, parser.Rejects word ∧ report.problem = .parse (.unknownWarning word.text)

/-- A step only adds events, and what it reports is what a reduction can report. -/
def AddsRemarks (parser next : Parser) : Prop :=
  ∃ more, next.events = parser.events ++ more ∧
    ∀ report, .report report ∈ more → parser.Remarks report

section AddsRemarks

variable {top : Token} {below : List Symbol}

/-- A step that keeps the events reports nothing. -/
theorem addsRemarks_of_events (equal : next.events = parser.events) : parser.AddsRemarks next :=
  ⟨[], by rw [equal, List.append_nil], by simp⟩

/-- A parser that stays as it is reports nothing. -/
theorem addsRemarks_of_same (done : Except.ok parser = (Except.ok next : Except TreeError Parser)) :
    parser.AddsRemarks next := by
  cases done
  exact addsRemarks_of_events rfl

/-- A step can add a single event, if that is no report or one that a reduction can make. -/
theorem addsRemarks_of_event {event : Event} (equal : next.events = parser.events ++ [event])
    (remarks : ∀ report, event = .report report → parser.Remarks report) :
    parser.AddsRemarks next :=
  ⟨[event], equal, fun report member => remarks report (List.mem_singleton.mp member).symm⟩

/-- A reduction can warn at the token on top of the stack. -/
theorem remarks_warning (symbols : parser.stack.symbols = .token top :: below) (warning : Warning) :
    parser.Remarks (.warning warning top.span) :=
  ⟨⟨top, below, symbols, rfl⟩, by rintro ⟨⟩⟩

/-- A semicolon that is dropped is warned about, and any other reports nothing. -/
theorem addsRemarks_readSemicolon (symbols : parser.stack.symbols = .token top :: below)
    (done : parser.readSemicolon top below = .ok next) : parser.AddsRemarks next := by
  -- The cases are those of the reduction: what lies below the semicolon.
  simp only [readSemicolon] at done
  split at done
  · -- Behind an opening bracket the semicolon is dropped, and else nothing happens.
    split at done
    · cases done
      exact addsRemarks_of_event rfl (by rintro report ⟨⟩; exact remarks_warning symbols _)
    · exact addsRemarks_of_same done
  · split at done
    · -- Behind properties it is dropped as well.
      cases done
      exact addsRemarks_of_event rfl (by rintro report ⟨⟩; exact remarks_warning symbols _)
    · split at done
      · -- Behind values a property is closed, if a keyword heads it.
        split at done
        · exact addsRemarks_of_events (events_closeProperty done)
        · exact addsRemarks_of_same done
      · exact addsRemarks_of_same done
  · exact addsRemarks_of_same done

/-- A type reports nothing. -/
theorem addsRemarks_readType (done : parser.readType top below = .ok next) :
    parser.AddsRemarks next := by
  -- A type is collected or left, and neither is reported.
  simp only [readType] at done
  split at done
  · exact addsRemarks_of_events (events_collect done)
  · exact addsRemarks_of_same done

/-- A word behind a suppression is that of a class, or it is reported that there is none. -/
theorem addsRemarks_readWord (symbols : parser.stack.symbols = .token top :: below)
    (word : top.kind = .identifier) (done : parser.readWord top below = .ok next) :
    parser.AddsRemarks next := by
  -- Only a class that does not exist is warned of.
  unfold readWord at done
  split at done
  · next modifier rest =>
    split at done
    · next suppress =>
      split at done
      · -- A class that there is makes an event, which is no report.
        exact addsRemarks_of_event (events_place done) (by rintro report ⟨⟩)
      · next unknown =>
        cases done
        refine addsRemarks_of_event rfl ?_
        rintro report ⟨⟩
        exact ⟨⟨top, _, symbols, rfl⟩,
          fun _ => ⟨top, ⟨modifier, rest, symbols, suppress, word, unknown⟩, rfl⟩⟩
    · exact addsRemarks_of_same done
  · exact addsRemarks_of_same done

/-- A closing bracket reports nothing. -/
theorem addsRemarks_readCloseCurly (done : parser.readCloseCurly top below = .ok next) :
    parser.AddsRemarks next := by
  -- Closing a definition reports nothing.
  unfold readCloseCurly at done
  simp only at done
  split at done
  · split at done
    · -- Only a header that fits closes a definition.
      split at done
      · exact addsRemarks_of_events (events_closeDefinition done)
      · exact addsRemarks_of_same done
    · exact addsRemarks_of_same done
  · exact addsRemarks_of_same done

end AddsRemarks

/-- What a reduction reports, it reports at the token on top of the stack, and an error only for a
suppression of an unknown class. -/
theorem reports_of_reduce (done : parser.reduce = .ok next) : parser.AddsRemarks next := by
  -- One case for each kind of token that brings about a reduction.
  unfold reduce at done
  split at done
  · next top below symbols =>
    split at done
    · -- A value reports nothing.
      exact addsRemarks_of_events (events_collect done)
    · split at done
      · exact addsRemarks_readSemicolon symbols done
      · exact addsRemarks_readType done
      · next word => exact addsRemarks_readWord symbols word done
      · exact addsRemarks_readCloseCurly done
      · exact addsRemarks_of_same done
  · exact addsRemarks_of_same done

/-- A reduction only adds events. -/
theorem events_reduce (done : parser.reduce = .ok next) : parser.events <+: next.events := by
  obtain ⟨more, added, -⟩ := reports_of_reduce done
  exact ⟨more, added.symm⟩

/-- The end of the tokens makes the stack the root with nothing but a warning, or leaves the tree and
reports why. -/
theorem finish_cases {ending : Span} (done : parser.finish ending = .ok next) :
    (next.tree.root?.isSome = true ∧ ∃ more, next.events = parser.events ++ more ∧
        ∀ report, .report report ∈ more → report.severity = .warning) ∨
      next = parser.record ((parser.tree.syntaxErrors parser.stack.toList ending).map
        fun error => .report (.located (.parse error.1) error.2)) := by
  have rooted : ∀ {tree after : Tree} {file : NodeId}, tree.setRoot file = .ok after →
      after.root?.isSome = true := by
    intro tree after file done
    obtain ⟨_, -, -, -, rfl | ⟨old, -, -, rfl⟩⟩ := Tree.setRoot_ok done <;> rfl
  unfold finish at done
  simp only at done
  -- An empty stack is an empty file, a single node that is a file is the root.
  split at done
  · obtain ⟨tree, made, done⟩ := ok_of_bind done
    cases done
    exact .inl ⟨rooted made, [], (List.append_nil _).symm, by simp⟩
  · split at done
    · obtain ⟨tree, made, done⟩ := ok_of_bind done
      cases done
      refine .inl ⟨rooted made, ?_⟩
      -- Without a suppression at its end a file is worth no warning.
      have quiet : ∃ more, parser.events = parser.events ++ more ∧
          ∀ report, .report report ∈ more → report.severity = .warning :=
        ⟨[], (List.append_nil _).symm, by simp⟩
      unfold warnTrailing
      split
      · split
        · refine ⟨_, rfl, fun report member => ?_⟩
          cases List.mem_singleton.mp member
          rfl
        · exact quiet
      · exact quiet
    · cases done
      exact .inr rfl
  · cases done
    exact .inr rfl

/-- The end of the tokens only adds events. -/
theorem events_finish {ending : Span} (done : parser.finish ending = .ok next) :
    parser.events <+: next.events := by
  -- The file is made with more events, or nothing is done but to report.
  obtain ⟨-, more, added, -⟩ | rfl := finish_cases done
  · exact ⟨more, added.symm⟩
  · exact List.prefix_append ..

end Parser

/-- The warning about a semicolon behind phrases, if it is dropped there. -/
def Phrase.drops? : List Phrase → Option Warning
  | .token opening :: _ => if opening.kind = .openCurly then some .emptyStatement else none
  | .configs _ :: _ => some .straySemicolon
  | _ => none

namespace Parser

variable {parser next : Parser} {phrases read : List Phrase}

/-- A semicolon that is dropped is reported. -/
theorem reports_drop {semicolon : Token} {warning : Warning}
    (shows : parser.Shows (.token semicolon :: phrases)) (kind : semicolon.kind = .semicolon)
    (drops : Phrase.drops? phrases = some warning) (done : parser.reduce = .ok next) :
    .report (.warning warning semicolon.span) ∈ next.events := by
  unfold reduce at done
  -- The stack shows the phrases, so the semicolon is its top.
  cases top : parser.stack.symbols with
  | nil =>
    have stacked : Stacked parser.tree [] (.token semicolon :: phrases) := top ▸ shows
    cases stacked.nil
  | cons symbol below =>
    have stacked : Stacked parser.tree (symbol :: below) (.token semicolon :: phrases) := top ▸ shows
    cases symbol with
    | node => cases stacked.head
    | token given =>
      obtain rfl : given = semicolon := stacked.head
      simp only [top, kind, TokenKind.isValue, Bool.false_eq_true, if_false] at done
      unfold Phrase.drops? at drops
      split at drops
      · next opening rest =>
        split at drops
        · next curly =>
          cases drops
          -- The symbol below shows the opening bracket.
          cases below with
          | nil => cases stacked.tail.nil
          | cons symbol below =>
            cases symbol with
            | node => cases stacked.tail.head
            | token other =>
              obtain rfl : other = opening := stacked.tail.head
              simp only [readSemicolon, curly, if_true] at done
              cases done
              exact List.mem_append_right _ (List.mem_singleton.mpr rfl)
        · cases drops
      · cases drops
        cases below with
        | nil => cases stacked.tail.nil
        | cons symbol below =>
          cases symbol with
          | token => cases stacked.tail.head
          -- The node below shows the properties that are already closed.
          | node id =>
            have configs := stacked.tail.head.isOfType .configs
            simp only [Phrase.piece, Piece.type?, configsOutline, Outline.type, Outline.kind,
              NodeKind.type, decide_true] at configs
            simp only [readSemicolon, configs, if_true] at done
            cases done
            exact List.mem_append_right _ (List.mem_singleton.mpr rfl)
      · cases drops

/-- What a run reports about semicolons, and what was reported before it. -/
structure Reports (parser : Parser) (phrases read : List Phrase) (tokens : List Token)
    (events : List Event) : Prop where
  /-- Earlier events stay. -/
  earlier : parser.events <+: events
  /-- The semicolon on top of the stack is reported if it is dropped. -/
  pending : ∀ semicolon below warning, phrases = .token semicolon :: below →
    semicolon.kind = .semicolon → Phrase.drops? below = some warning →
    .report (.warning warning semicolon.span) ∈ events
  /-- Semicolons that are still to be read are reported if they are dropped. -/
  later : ∀ before semicolon after warning, tokens = before ++ semicolon :: after →
    semicolon.kind = .semicolon → Phrase.drops? (Phrase.readAll read before) = some warning →
    .report (.warning warning semicolon.span) ∈ events

/-- A run reports every semicolon that it drops. -/
theorem run_reports {ending : Reading Preprocessor Token} {last : Token}
    (ends : ending.result = .ok last) (tokens : List (List Diagnostic × Token))
    (shows : parser.Shows phrases) (reduced : Phrase.reduce phrases = read) :
    Reports parser phrases read (tokens.map (·.2)) (parser.run ending tokens).events := by
  induction tokens generalizing parser phrases read with
  | nil =>
    -- Behind the last token there is a reduction, and then the stack becomes a file.
    obtain ⟨next, done, shows'⟩ := reduce_yields (shows.record (ending.reports.map .report))
    obtain ⟨finished, finish, _⟩ := finish_of_shows shows' last.span
    have grown := events_reduce done
    have final := events_finish finish
    rw [run_nil ends done finish]
    refine ⟨((List.prefix_append ..).trans grown).trans final, ?_, by simp⟩
    rintro semicolon below warning rfl kind drops
    exact final.subset (reports_drop (shows.record _) kind drops done)
  -- One token is reduced for and shifted, and the rest follows.
  | cons first rest ih =>
    obtain ⟨reports, token⟩ := first
    obtain ⟨next, done, shows'⟩ := reduce_yields (shows.record (reports.map .report))
    rw [reduced] at shows'
    have grown := events_reduce done
    rw [run_cons done]
    have further := ih (shows'.shift token) rfl
    refine ⟨((List.prefix_append ..).trans grown).trans further.earlier, ?_, ?_⟩
    · rintro semicolon below warning rfl kind drops
      -- What is dropped now was reported by this reduction.
      have reported := reports_drop (shows.record (reports.map .report)) kind drops done
      exact further.earlier.subset reported
    · intro before semicolon after warning same kind drops
      -- Either the semicolon is the token just read, or it comes later.
      cases before with
      | nil =>
        cases same
        exact further.pending _ _ warning rfl kind drops
      | cons given before =>
        obtain ⟨rfl, rest⟩ := List.cons.inj same
        exact further.later before semicolon after warning rest kind drops

end Parser

namespace Phrase

section Stuck

variable {semicolon : Token} {phrases : List Phrase}

/-- A semicolon on the stack is not in the way of an item. -/
theorem mem_addItem (member : .token semicolon ∈ phrases) (item : Item) :
    .token semicolon ∈ addItem item phrases := by
  unfold addItem
  split <;> simp_all

/-- Brackets and what is between them are parts of a header. -/
theorem InSquares.parts {Front : List Phrase → Prop} {optional : Bool} {front : List Phrase}
    (given : InSquares Front optional front)
    (inner : ∀ {front}, Front front → ∀ phrase ∈ front, phrase.part ≠ .foreign) :
    ∀ phrase ∈ front, phrase.part ≠ .foreign := by
  cases given with
  | bare written => exact inner written
  -- Both brackets are parts, and so is what they enclose.
  | @brackets closing front opening close written opened =>
    intro phrase member
    rcases List.mem_append.mp member with member | member
    · rcases List.mem_cons.mp member with rfl | member
      · simp [part, HeaderPart.ofToken, close]
      · exact inner written phrase member
    · rw [List.mem_singleton.mp member]
      simp [part, HeaderPart.ofToken, opened]

/-- The phrases of a header are parts of one. -/
theorem Headed.parts {heading : Heading} {front : List Phrase} (headed : Headed heading front) :
    ∀ phrase ∈ front, phrase.part ≠ .foreign := by
  -- Each token of names is a part, and so is each of types.
  have names : ∀ {labelled optional labels front},
      InSquares (NamesFront labelled labels) optional front →
        ∀ phrase ∈ front, phrase.part ≠ .foreign := fun given =>
    given.parts fun inner => by
      cases inner <;> simp_all [part, HeaderPart.ofToken, Token.isWord]
  have types : ∀ {names variadic optional front},
      InSquares (TypesFront names variadic) optional front →
        ∀ phrase ∈ front, phrase.part ≠ .foreign := fun given =>
    given.parts fun inner => by
      cases inner <;> simp_all [part, HeaderPart.ofToken]
  cases headed with
  | metadata kind text => simp [part, HeaderPart.ofToken, Token.isWord, kind, text]
  | typeDefinition kind => simp [part, HeaderPart.ofToken, kind]
  | flag written => exact names written
  | positional written list | option written list =>
    intro phrase member
    rcases List.mem_append.mp member with member | member
    · exact types list phrase member
    · exact names written phrase member

/-- A semicolon on the stack is not in the way of a property. -/
theorem mem_closeProperty (member : .token semicolon ∈ phrases) (keyword : Label)
    (given : List NodeKind) : .token semicolon ∈ closeProperty keyword given phrases := by
  unfold closeProperty
  rw [List.span_eq_takeWhile_dropWhile]
  rw [← List.takeWhile_append_dropWhile (p := fun phrase => phrase.suppression?.isSome)
    (l := phrases)] at member
  -- A semicolon is no suppression, so it is below those of the property.
  rcases List.mem_append.mp member with mark | rest
  · have suppresses := List.mem_takeWhile_imp mark
    cases suppresses
  · simp only
    unfold addStatement
    split <;> simp_all

/-- A semicolon on the stack is not in the way of a definition. -/
theorem mem_readCloseCurly (member : .token semicolon ∈ phrases)
    (kind : semicolon.kind = .semicolon) (closing : Token) :
    .token semicolon ∈ readCloseCurly closing phrases := by
  -- The body takes nothing but properties.
  have outer : .token semicolon ∈ (splitBody phrases).2 := by
    unfold splitBody
    split <;> simp_all
  have stays : Phrase.token semicolon ∈ .token closing :: phrases := .tail _ member
  unfold readCloseCurly
  split
  · next opening rest front =>
    split
    · next curly =>
      split
      · next header found =>
        rw [front] at outer
        have other : semicolon ≠ opening := by
          rintro rfl
          rw [kind] at curly
          cases curly
        have below : .token semicolon ∈ rest := by simpa [other] using outer
        obtain ⟨heading, used, others, rfl, length, _, headed⟩ := headed_of_parts found
        -- The semicolon stands below the header, which contains none.
        rcases List.mem_append.mp below with used | rest
        · exact absurd (by simp [part, HeaderPart.ofToken, kind]) (headed.parts _ used)
        · simp only [length, List.drop_left]
          exact mem_addItem rest _
      · exact stays
    · exact stays
  · exact stays

/-- A semicolon that completed nothing stays on the stack. -/
theorem mem_read (member : .token semicolon ∈ phrases) (kind : semicolon.kind = .semicolon)
    (token : Token) : .token semicolon ∈ read phrases token := by
  -- What a reduction takes off the stack is never a semicolon, so it stays where it is.
  unfold read reduce
  simp only
  -- A value, or one of the kinds of tokens that complete something.
  split
  · unfold addValues
    split <;> simp_all
  · split
    case h_1 =>
      unfold readSemicolon
      split
      · split <;> simp_all
      · simp_all
      · split
        · -- The word that is closed is not the semicolon, which lies below it.
          next word rest _ keyword named =>
          have other : semicolon ≠ word := by
            rintro rfl
            simp [Token.keyword?, Token.isKeyword, kind] at named
          have below : .token semicolon ∈ rest := by simpa [other] using member
          exact mem_closeProperty below keyword _
        · simp_all
      · simp_all
    -- A type joins the list on top, and the symbols below are kept.
    case h_2 =>
      unfold readType
      split
      · unfold addType
        split <;> simp_all
      · simp_all
    case h_3 =>
      unfold readWord
      split
      · split
        · -- Neither is the modifier that a word takes.
          next modifier rest suppress =>
          have other : semicolon ≠ modifier := by
            rintro rfl
            simp [Token.isSuppress, kind] at suppress
          have below : .token semicolon ∈ rest := by simpa [other] using member
          split
          · exact mem_addItem below _
          · exact below
        · simp_all
      · simp_all
    case h_4 => exact mem_readCloseCurly member kind token
    -- Every other token is put on top.
    case h_5 => simp_all

/-- A semicolon that completed nothing keeps the stack from becoming a file. -/
theorem items?_eq_none_of_mem (member : .token semicolon ∈ phrases)
    (kind : semicolon.kind = .semicolon) (tokens : List Token) :
    items? (readAll phrases tokens) = none := by
  induction tokens generalizing phrases with
  | nil =>
    -- The stack of a file is empty or a single phrase that is no token.
    unfold items?
    simp only [readAll, List.foldl_nil]
    split <;> simp_all
  | cons token tokens ih => exact ih (mem_read member kind token)

/-- In a file, a semicolon behind an opening bracket or another semicolon is dropped. -/
theorem drops?_of_previous {before after : List Token} {previous : Token} {items : List Item}
    (file : items? (readAll [] (before ++ previous :: after)) = some items)
    (kind : previous.kind = .openCurly ∨ previous.kind = .semicolon) :
    ∃ warning ∈ [Warning.emptyStatement, .straySemicolon],
      drops? (readAll [] (before ++ [previous])) = some warning := by
  -- What is left of the tokens up to the previous one decides.
  have split : ∀ tokens, readAll [] (before ++ previous :: tokens) =
      readAll (read (readAll [] before) previous) tokens := by
    intro tokens
    simp [readAll]
  rw [split] at file ⊢
  generalize readAll [] before = phrases at file ⊢
  show ∃ warning ∈ _, drops? (read phrases previous) = some warning
  rcases kind with kind | kind
  · -- The bracket is on top of the stack, so what is behind it is dropped.
    exact ⟨.emptyStatement, by simp, by
      simp [read, reduce, kind, TokenKind.isValue, drops?]⟩
  · -- The semicolon before was dropped itself or closed a property, since it is not on the stack.
    have stuck : .token previous ∉ read phrases previous := by
      intro member
      rw [items?_eq_none_of_mem member kind after] at file
      cases file
    have step : read phrases previous = readSemicolon previous phrases := by
      simp [read, reduce, kind, TokenKind.isValue]
    rw [step] at stuck ⊢
    -- Of the ways to read a semicolon, two leave it on the stack.
    unfold readSemicolon at stuck ⊢
    -- Behind a bracket it is dropped as an empty statement.
    split at stuck
    · split at stuck
      · next curly => exact ⟨.emptyStatement, by simp, by simp [drops?, curly]⟩
      · exact absurd (List.mem_cons_self ..) stuck
    · exact ⟨.straySemicolon, by simp, rfl⟩
    · split at stuck
      · next keyword named =>
        -- It closed a property, and one more would be a stray one.
        refine ⟨.straySemicolon, by simp, ?_⟩
        simp only [closeProperty, addStatement]
        split <;> rfl
      · exact absurd (List.mem_cons_self ..) stuck
    · exact absurd (List.mem_cons_self ..) stuck

end Stuck

end Phrase

/-- A dropped semicolon of a file is reported. -/
theorem TokenStream.reports_dropped {stream : TokenStream} {last : Token} {items : List Item}
    (ends : stream.ending.result = .ok last)
    (file : Phrase.items? (Phrase.readAll [] stream.toList) = some items)
    {before after : List Token} {previous semicolon : Token}
    (place : stream.toList = before ++ previous :: semicolon :: after)
    (front : previous.kind = .openCurly ∨ previous.kind = .semicolon)
    (kind : semicolon.kind = .semicolon) :
    ∃ warning ∈ [Warning.emptyStatement, .straySemicolon],
      .report (.warning warning semicolon.span) ∈ stream.parse.events := by
  rw [place] at file
  obtain ⟨warning, member, drops⟩ := Phrase.drops?_of_previous file front
  -- The run reports what each step drops, wherever that step stands.
  have reports := Parser.run_reports ends stream.tokens
    (show Parser.start.Shows [] from Stacked.empty) rfl
  exact ⟨warning, member,
    reports.later (before ++ [previous]) semicolon after warning (by simpa [toList] using place)
      kind drops⟩

end ArgSchema
