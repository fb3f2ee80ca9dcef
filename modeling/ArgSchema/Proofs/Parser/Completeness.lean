import ArgSchema.Proofs.Parser.Soundness

/-! Completeness: tokens that spell a file are read as that file. -/

namespace ArgSchema

namespace Phrase

open Grammar

/-- Reading no tokens changes nothing. -/
@[simp] theorem readAll_nil (phrases : List Phrase) : readAll phrases [] = phrases := rfl

/-- The first token is read first. -/
@[simp] theorem readAll_cons (phrases : List Phrase) (token : Token) (tokens : List Token) :
    readAll phrases (token :: tokens) = readAll (read phrases token) tokens := rfl

/-- Tokens are read in order. -/
@[simp] theorem readAll_append (phrases : List Phrase) (tokens more : List Token) :
    readAll phrases (tokens ++ more) = readAll (readAll phrases tokens) more :=
  List.foldl_append

/-- A token that completes nothing stays on top. -/
theorem read_quiet {token : Token} (phrases : List Phrase)
    (quiet : token.kind ∈ [.shortlabel, .longlabel, .property, .openSquare, .closeSquare,
      .openCurly, .ellipsis, .modifier]) :
    read phrases token = .token token :: phrases := by
  -- No rule applies to a token of these kinds.
  unfold read reduce
  simp only [List.mem_cons, List.not_mem_nil, or_false] at quiet
  rcases quiet with kind | kind | kind | kind | kind | kind | kind | kind <;>
    simp [kind, TokenKind.isValue]

/-- A word stays on top unless a suppression is open in front of it. -/
theorem read_word {word : Token} {phrases : List Phrase} (kind : word.kind = .identifier)
    (calm : ∀ modifier rest, phrases = .token modifier :: rest → modifier.isSuppress = false) :
    read phrases word = .token word :: phrases := by
  -- A word is taken only by a suppression.
  unfold read reduce
  simp only [kind, TokenKind.isValue, Bool.false_eq_true, if_false]
  unfold readWord
  split
  · -- The token below would have to be a suppression.
    next modifier rest =>
    rw [calm modifier rest rfl]
    simp
  · rfl

/-- A list of some items on top, or nothing if there are no items. -/
def listed {α : Type} (wrap : List α → Phrase) (items : List α) (below : List Phrase) :
    List Phrase :=
  if items.isEmpty then below else wrap items :: below

/-- Phrases that a repetition of phrases is read as. -/
theorem readAll_sequence {α : Type} {Written : α → List Token → Prop} {wrap : List α → Phrase}
    {below : List Phrase} {items : List α} {tokens : List Token}
    (written : Sequence Written items tokens)
    (step : ∀ before item last, Written item last →
      readAll (listed wrap before below) last = wrap (before ++ [item]) :: below) :
    readAll below tokens = listed wrap items below := by
  induction written with
  | none => rfl
  | more _ last ih =>
    -- One more phrase is read behind those that are listed already.
    rw [readAll_append, ih, step _ _ _ last]
    simp [listed]

/-- A suppression is read as an item. -/
theorem readAll_suppression {kind : WarningClass} {tokens : List Token}
    (written : Suppression kind tokens) (below : List Phrase) :
    readAll below tokens = addItem (.suppress kind) below := by
  cases written with
  | @pair modifier word kind suppress identifier known =>
    have quiet : modifier.kind = .modifier := by
      simp only [Token.isSuppress, Bool.and_eq_true, decide_eq_true_eq] at suppress
      exact suppress.1
    -- The modifier waits, and the word makes an item of both.
    rw [readAll_cons, read_quiet below (by simp [quiet]), readAll_cons, readAll_nil]
    simp [read, reduce, identifier, TokenKind.isValue, readWord, suppress, known]

/-- Suppressions inside a body stay one above the other. -/
theorem readAll_suppressions {kinds : List WarningClass} {tokens : List Token}
    {below : List Phrase} (written : Sequence Suppression kinds tokens)
    (blocked : ∀ item, addItem item below = .item item :: below) :
    readAll below tokens = (kinds.map fun kind => .item (.suppress kind)).reverse ++ below := by
  induction written with
  | none => rfl
  | @more kinds kind tokens last before pair ih =>
    rw [readAll_append, ih, readAll_suppression pair]
    -- Suppressions in front of this one keep the body open.
    cases kinds using List.reverseRecOn with
    | nil => simp [blocked]
    | append_singleton kinds kind => simp [addItem]

/-- Values are read as a list. -/
theorem readAll_values {values : List NodeKind} {tokens : List Token} {below : List Phrase}
    (written : Sequence Value values tokens) (fresh : ∀ given rest, below ≠ .values given :: rest) :
    readAll below tokens = listed .values values below := by
  refine readAll_sequence written fun before value last spelled => ?_
  cases spelled with
  | @token token _ given =>
    obtain ⟨isValue, leaf⟩ := Token.value?_eq_some_iff.mp given
    simp only [readAll_cons, readAll_nil, read, reduce, isValue, if_true, leaf, Option.toList_some]
    unfold listed addValues
    cases before with
    | nil =>
      -- The first value begins a list, as there is none, and the others join it.
      split
      · next given rest same => exact absurd same (fresh given rest)
      · rfl
    | cons => rfl

/-- Semicolons behind an opening bracket are dropped. -/
theorem readAll_strays {strays : List Token} (dropped : Strays strays) {top : Phrase}
    (below : List Phrase) (drops : (∃ opening, top = .token opening ∧ opening.kind = .openCurly) ∨
      ∃ statements, top = .configs statements) :
    readAll (top :: below) strays = top :: below := by
  induction strays with
  | nil => rfl
  | cons semicolon strays ih =>
    have kind := dropped semicolon (by simp)
    have step : read (top :: below) semicolon = top :: below := by
      -- Behind a bracket and behind properties a semicolon changes nothing.
      rcases drops with ⟨opening, rfl, curly⟩ | ⟨statements, rfl⟩
      · simp [read, reduce, kind, TokenKind.isValue, readSemicolon, curly]
      · simp [read, reduce, kind, TokenKind.isValue, readSemicolon]
    rw [readAll_cons, step]
    exact ih fun token member => dropped token (by simp [member])

/-- A body is open: properties go on top of its bracket. -/
def InBody (below : List Phrase) : Prop :=
  (∃ opening rest, below = .token opening :: rest ∧ opening.kind = .openCurly) ∨
    ∃ statements rest, below = .configs statements :: rest

/-- Suppressions in front of an open body are the ones on top. -/
theorem span_suppressions_of_inBody (kinds : List WarningClass) {below : List Phrase}
    (inBody : InBody below) :
    ((kinds.map fun kind => Phrase.item (.suppress kind)).reverse ++ below).span
        (fun phrase => phrase.suppression?.isSome) =
      ((kinds.map fun kind => Phrase.item (.suppress kind)).reverse, below) := by
  -- All the suppressions are taken, and then the body is met, which is none.
  have all : ∀ phrase ∈ (kinds.map fun kind => Phrase.item (.suppress kind)).reverse,
      phrase.suppression?.isSome = true := by
    intro phrase member
    obtain ⟨kind, _, rfl⟩ := List.mem_map.mp (List.mem_reverse.mp member)
    rfl
  have none : below.takeWhile (fun phrase => phrase.suppression?.isSome) = [] ∧
      below.dropWhile (fun phrase => phrase.suppression?.isSome) = below := by
    rcases inBody with ⟨opening, rest, rfl, _⟩ | ⟨statements, rest, rfl⟩ <;> exact ⟨rfl, rfl⟩
  rw [List.span_eq_takeWhile_dropWhile, List.takeWhile_append_of_pos all,
    List.dropWhile_append_of_pos all, none.1, none.2, List.append_nil]

/-- Only items of a file that is not open go into it. -/
theorem InBody.blocked {below : List Phrase} (inBody : InBody below) (item : Item) :
    addItem item below = .item item :: below := by
  rcases inBody with ⟨opening, rest, rfl, _⟩ | ⟨statements, rest, rfl⟩ <;> rfl

/-- A keyword stays on top of suppressions and of an open body. -/
theorem read_keyword {word : Token} {keyword : Label} (named : word.keyword? = some keyword)
    (kinds : List WarningClass) {below : List Phrase} (inBody : InBody below) :
    let phrases := (kinds.map fun kind => Phrase.item (.suppress kind)).reverse ++ below
    read phrases word = .token word :: phrases := by
  intro phrases
  -- A keyword is a word or a property.
  have kind : word.kind = .identifier ∨ word.kind = .property := by
    unfold Token.keyword? Token.isKeyword at named
    split at named
    · next keyword => simpa using keyword
    · cases named
  rcases kind with kind | kind
  · refine read_word kind fun modifier rest top => ?_
    -- What is on top is a suppression, the bracket or the properties of the body.
    unfold phrases at top
    cases kinds using List.reverseRecOn with
    | append_singleton kinds last => simp at top
    | nil =>
      rcases inBody with ⟨opening, rest, rfl, curly⟩ | ⟨statements, rest, rfl⟩
      · cases top
        simp [Token.isSuppress, curly]
      · cases top
  · exact read_quiet phrases (by simp [kind])

/-- A property is read as the last one of its body. -/
theorem readAll_config {statement : Statement} {tokens : List Token} {below : List Phrase}
    (written : Config statement tokens) (inBody : InBody below) :
    readAll below tokens = addStatement statement below := by
  cases written with
  | @statement kinds keyword values marks word literals closing strays marked named some written
      close dropped =>
    rw [readAll_append, readAll_append, readAll_suppressions marked inBody.blocked,
      readAll_cons _ closing, readAll_cons _ word, read_keyword named kinds inBody,
      readAll_values written (by simp)]
    -- The semicolon takes the values, the keyword and the suppressions in front of it.
    have closed : read (listed .values values (.token word ::
        ((kinds.map fun kind => Phrase.item (.suppress kind)).reverse ++ below))) closing =
        addStatement ⟨kinds, keyword, values⟩ below := by
      have held : ((kinds.map fun kind => Phrase.item (.suppress kind)).filterMap suppression?) =
          kinds := by
        rw [List.filterMap_map]
        exact List.filterMap_some
      simp only [listed, List.isEmpty_iff, some, if_false, read, reduce, close, TokenKind.isValue,
        Bool.false_eq_true, readSemicolon, named, closeProperty,
        span_suppressions_of_inBody kinds inBody, List.reverse_reverse, held]
    rw [closed]
    -- What stands on the stack now are properties, behind which semicolons are dropped.
    obtain ⟨statements, rest, same⟩ : ∃ statements rest,
        addStatement ⟨kinds, keyword, values⟩ below = .configs statements :: rest := by
      unfold addStatement
      split <;> exact ⟨_, _, rfl⟩
    rw [same]
    exact readAll_strays dropped rest (.inr ⟨statements, rfl⟩)

/-- Properties are read as a list on top of their bracket. -/
theorem readAll_configs {statements : List Statement} {tokens : List Token} {opening : Token}
    {below : List Phrase} (written : Sequence Config statements tokens)
    (curly : opening.kind = .openCurly) :
    readAll (.token opening :: below) tokens =
      listed .configs statements (.token opening :: below) := by
  -- By induction on the properties, each read behind those before.
  refine readAll_sequence written fun before statement last spelled => ?_
  rw [readAll_config spelled]
  · -- Behind other properties the new one joins them, and the body is open all the time.
    cases before <;> rfl
  · cases before with
    | nil => exact .inl ⟨opening, below, rfl, curly⟩
    | cons => exact .inr ⟨_, _, rfl⟩

/-- A body is read as its properties on top of its bracket, and closes what is in front of them. -/
theorem readAll_body {statements : List Statement} {tokens : List Token} {below : List Phrase}
    {header : ArgSchema.Header} (written : Body statements tokens)
    (found : ArgSchema.Header.ofParts? (below.map part) = some header) :
    readAll below tokens =
      addItem (.definition ⟨heading header.kind (below.take header.length).reverse, statements⟩)
        (below.drop header.length) := by
  cases written with
  | @braces opening strays tokens closing curly dropped written close =>
    rw [readAll_append, readAll_append, readAll_cons _ opening, read_quiet below (by simp [curly]),
      readAll_strays dropped below (.inl ⟨opening, rfl, curly⟩), readAll_configs written curly]
    simp only [readAll_cons, readAll_nil, read, reduce, close, TokenKind.isValue,
      Bool.false_eq_true, if_false]
    unfold readCloseCurly listed
    -- A body without properties has only its bracket on the stack.
    cases statements with
    | nil => simp [splitBody, curly, found]
    | cons => simp [splitBody, curly, found]

/-- In front of an item stands nothing, or the file so far. -/
def Ground (below : List Phrase) : Prop := below = [] ∨ ∃ items, below = [.file items]

/-- A word stays on top of the file so far. -/
theorem Ground.calm {below : List Phrase} (ground : Ground below) {modifier : Token}
    {rest : List Phrase} (top : below = .token modifier :: rest) : modifier.isSuppress = false := by
  rcases ground with rfl | ⟨items, rfl⟩ <;> cases top

/-- Names in brackets or without them are read as what stands in front of a type list. -/
theorem readAll_bracketed {Written : List Token → Prop} {Front : List Phrase → Prop}
    {optional : Bool} {tokens : List Token} {below : List Phrase}
    (written : Bracketed Written optional tokens)
    (bare : ∀ {tokens}, Written tokens → ∃ front, readAll below tokens = front ++ below ∧ Front front)
    (bracketed : ∀ {opening tokens}, opening.kind = .openSquare → Written tokens →
      ∃ front, readAll (.token opening :: below) tokens = front ++ .token opening :: below ∧
        Front front) :
    ∃ front, readAll below tokens = front ++ below ∧ InSquares Front optional front := by
  cases written with
  | bare inner =>
    obtain ⟨front, done, shape⟩ := bare inner
    exact ⟨front, done, .bare shape⟩
  -- The brackets wait around what stands between them.
  | @brackets opening tokens closing opened inner close =>
    obtain ⟨front, done, shape⟩ := bracketed opened inner
    refine ⟨.token closing :: front ++ [.token opening], ?_, .brackets close shape opened⟩
    rw [readAll_append, readAll_cons _ opening, read_quiet below (by simp [opened]), done,
      readAll_cons, readAll_nil, read_quiet _ (by simp [close])]
    simp

/-- A word is read as itself. -/
theorem readAll_word {name : String} {tokens : List Token} {below : List Phrase}
    (written : Word name tokens)
    (calm : ∀ modifier rest, below = .token modifier :: rest → modifier.isSuppress = false) :
    ∃ front, readAll below tokens = front ++ below ∧
      NamesFront false [⟨name, .identifier⟩] front := by
  cases written with
  | @token word kind text => exact ⟨[.token word], read_word kind calm, .word kind text⟩

/-- Labels are read as themselves. -/
theorem readAll_labels {labels : List Label} {tokens : List Token} (below : List Phrase)
    (written : Labels labels tokens) :
    ∃ front, readAll below tokens = front ++ below ∧ NamesFront true labels front := by
  -- Each form leaves its tokens on the stack, as no label closes anything.
  cases written with
  | @short token kind => exact ⟨[.token token], read_quiet below (by simp [kind]), .short kind⟩
  | @long token kind => exact ⟨[.token token], read_quiet below (by simp [kind]), .long kind⟩
  | @both short long kind kind' =>
    refine ⟨[.token long, .token short], ?_, .both kind kind'⟩
    rw [readAll_cons, read_quiet below (by simp [kind]), readAll_cons, readAll_nil,
      read_quiet _ (by simp [kind'])]
    rfl

/-- Type names behind something that takes types are read as a list. -/
theorem readAll_types {names : List String} {tokens : List Token} {given : Token}
    {below : List Phrase} (written : Sequence TypeName names tokens)
    (takes : (Phrase.token given).takesTypes = true) :
    readAll (.token given :: below) tokens = listed .types names (.token given :: below) := by
  refine readAll_sequence written fun before name last spelled => ?_
  cases spelled with
  | @token token kind =>
    simp only [readAll_cons, readAll_nil, read, reduce, kind, TokenKind.isValue,
      Bool.false_eq_true, if_false]
    unfold readType listed
    -- The first type begins a list because of what it stands behind, and the others join it.
    cases before with
    | nil => simp [takes, addType]
    | cons => simp [takesTypes, addType]

/-- A type list behind something that takes types is read as one. -/
theorem readAll_typeList {names : List String} {variadic : Bool} {tokens : List Token}
    {given : Token} {below : List Phrase} (written : TypeList names variadic tokens)
    (takes : (Phrase.token given).takesTypes = true) :
    ∃ front, readAll (.token given :: below) tokens = front ++ .token given :: below ∧
      TypesFront names variadic front := by
  -- The types are collected in one list; the dots stay a token behind it.
  cases written with
  | once some written =>
    refine ⟨[.types names], ?_, .once⟩
    rw [readAll_types written takes]
    simp [listed, some]
  | @variadic tokens dots some written kind =>
    refine ⟨[.token dots, .types names], ?_, .variadic kind⟩
    rw [readAll_append, readAll_types written takes, readAll_cons, readAll_nil,
      read_quiet _ (by simp [kind])]
    simp [listed, some]

/-- Names end with something that takes types behind it. -/
theorem InSquares.takesTypes {labelled optional : Bool} {labels : List Label} {front : List Phrase}
    (given : InSquares (NamesFront labelled labels) optional front) :
    ∃ last rest, front = .token last :: rest ∧ (Phrase.token last).takesTypes = true := by
  -- The last token of a name or the closing bracket.
  cases given with
  | bare inner =>
    cases inner with
    | word kind => exact ⟨_, _, rfl, by simp [Phrase.takesTypes, kind]⟩
    | short kind => exact ⟨_, _, rfl, by simp [Phrase.takesTypes, kind]⟩
    | long kind => exact ⟨_, _, rfl, by simp [Phrase.takesTypes, kind]⟩
    | both _ kind => exact ⟨_, _, rfl, by simp [Phrase.takesTypes, kind]⟩
  | brackets close => exact ⟨_, _, rfl, by simp [Phrase.takesTypes, close]⟩

/-- A type list in brackets or without them is read behind names. -/
theorem readAll_typesPart {names : List String} {variadic optional : Bool} {tokens : List Token}
    {given : Token} (below : List Phrase)
    (written : Bracketed (TypeList names variadic) optional tokens)
    (takes : (Phrase.token given).takesTypes = true) :
    ∃ front, readAll (.token given :: below) tokens = front ++ .token given :: below ∧
      InSquares (TypesFront names variadic) optional front :=
  readAll_bracketed written (fun inner => readAll_typeList inner takes) fun opened inner =>
    readAll_typeList inner (by simp [takesTypes, opened])

/-- A header is read as the phrases of a header. -/
theorem readAll_header {heading : Heading} {tokens : List Token} {below : List Phrase}
    (written : Grammar.Header heading tokens) (ground : Ground below) :
    ∃ front, readAll below tokens = front ++ below ∧ Headed heading front := by
  -- Nothing in front of a header is a suppression that waits for a word.
  have calm := fun modifier rest => @Ground.calm below ground modifier rest
  have word : ∀ {name optional tokens}, Bracketed (Word name) optional tokens →
      ∃ front, readAll below tokens = front ++ below ∧
        InSquares (NamesFront false [⟨name, .identifier⟩]) optional front := fun written =>
    readAll_bracketed written (fun inner => readAll_word inner calm) fun opened inner =>
      readAll_word inner fun modifier rest top => by
        cases top
        simp [Token.isSuppress, opened]
  -- Labels are read whatever stands in front of them.
  have labels : ∀ {labels optional tokens}, Bracketed (Labels labels) optional tokens →
      ∃ front, readAll below tokens = front ++ below ∧
        InSquares (NamesFront true labels) optional front := fun written =>
    readAll_bracketed written (readAll_labels below) fun _ => readAll_labels _
  cases written with
  | @metadata token kind text => exact ⟨[.token token], read_word kind calm, .metadata kind text⟩
  | typeDefinition name =>
    cases name with
    | @token token kind =>
      refine ⟨[.token token], ?_, .typeDefinition kind⟩
      simp only [readAll_cons, readAll_nil, read, reduce, kind, TokenKind.isValue,
        Bool.false_eq_true, if_false]
      -- Neither the start nor the file so far takes types.
      rcases ground with rfl | ⟨items, rfl⟩ <;> rfl
  -- Behind the word the types are read, and both together are the header.
  | positional name list =>
    obtain ⟨front, done, shape⟩ := word name
    obtain ⟨last, rest, rfl, takes⟩ := shape.takesTypes
    obtain ⟨types, read, typed⟩ := readAll_typesPart (rest ++ below) list takes
    refine ⟨types ++ .token last :: rest, ?_, .positional shape typed⟩
    rw [readAll_append, done, List.cons_append, read]
    simp
  | flag names =>
    obtain ⟨front, done, shape⟩ := labels names
    exact ⟨front, done, .flag shape⟩
  | option names list =>
    obtain ⟨front, done, shape⟩ := labels names
    obtain ⟨last, rest, rfl, takes⟩ := shape.takesTypes
    obtain ⟨types, read, typed⟩ := readAll_typesPart (rest ++ below) list takes
    refine ⟨types ++ .token last :: rest, ?_, .option shape typed⟩
    rw [readAll_append, done, List.cons_append, read]
    simp

/-- Parts of types in front of others are a form of types. -/
theorem typesForm_of_front {names : List String} {variadic optional : Bool} {front : List Phrase}
    (given : InSquares (TypesFront names variadic) optional front) (below : List Phrase) :
    TypesForm.ofParts ((front ++ below).map part) = ⟨front.length, optional, variadic⟩ := by
  cases given with
  -- All shapes of a type list are told apart by their last parts.
  | bare inner =>
    cases inner with
    | once => rfl
    | variadic kind => simp [part, HeaderPart.ofToken, kind, TypesForm.ofParts]
  | brackets close inner opened =>
    cases inner with
    | once => simp [part, HeaderPart.ofToken, close, opened, TypesForm.ofParts]
    | variadic kind => simp [part, HeaderPart.ofToken, close, kind, opened, TypesForm.ofParts]

/-- Parts of names behind the start or the file so far are a form of names, and none of types. -/
theorem namesForm_of_front {labelled optional : Bool} {labels : List Label}
    {front below : List Phrase} (given : InSquares (NamesFront labelled labels) optional front)
    (ground : Ground below) :
    NamesForm.ofParts? ((front ++ below).map part) = some ⟨front.length, optional, labelled⟩ ∧
      TypesForm.ofParts ((front ++ below).map part) = ⟨0, false, false⟩ := by
  -- What stands in front of the names is neither a label nor a bracket.
  rcases ground with rfl | ⟨items, rfl⟩ <;>
    cases given with
    | bare inner =>
      cases inner <;>
        simp_all [part, HeaderPart.ofToken, Token.isWord, TypesForm.ofParts, NamesForm.ofParts?]
    | brackets close inner opened =>
      cases inner <;>
        simp_all [part, HeaderPart.ofToken, Token.isWord, TypesForm.ofParts, NamesForm.ofParts?]

/-- Parts that end with neither a type's name nor the word for the schema are names and types. -/
theorem ofParts?_of_head {parts : List HeaderPart} (type : parts.head? ≠ some .type)
    (metadata : parts.head? ≠ some .metadata) :
    ArgSchema.Header.ofParts? parts =
      (NamesForm.ofParts? (parts.drop (TypesForm.ofParts parts).length)).bind
        (ArgSchema.Header.ofForms? · (TypesForm.ofParts parts)) := by
  unfold ArgSchema.Header.ofParts?
  -- The first two forms begin with a part that is excluded.
  split
  · exact absurd rfl type
  · exact absurd rfl metadata
  · rfl

/-- Names end with neither a type's name nor the word for the schema. -/
theorem head?_of_names {labelled optional : Bool} {labels : List Label} {front : List Phrase}
    (given : InSquares (NamesFront labelled labels) optional front) (below : List Phrase) :
    ((front ++ below).map part).head? ≠ some .type ∧
      ((front ++ below).map part).head? ≠ some .metadata := by
  -- In brackets the last part is the closing one, and without them it is a name or its mark.
  cases given with
  | bare inner => cases inner <;> simp_all [part, HeaderPart.ofToken, Token.isWord]
  | brackets close => simp [part, HeaderPart.ofToken, close]

/-- Types end with neither a type's name nor the word for the schema. -/
theorem head?_of_types {names : List String} {variadic optional : Bool} {front : List Phrase}
    (given : InSquares (TypesFront names variadic) optional front) (below : List Phrase) :
    ((front ++ below).map part).head? ≠ some .type ∧
      ((front ++ below).map part).head? ≠ some .metadata := by
  -- In brackets the last part is the closing one, and without them it is a type or its mark.
  cases given with
  | bare inner => cases inner <;> simp_all [part, HeaderPart.ofToken]
  | brackets close => simp [part, HeaderPart.ofToken, close]

/-- Parts of names and types have the forms of both. -/
theorem ofParts?_of_fronts {labelled optional variadic typesOptional : Bool} {labels : List Label}
    {names : List String} {list front below : List Phrase}
    (written : InSquares (NamesFront labelled labels) optional front)
    (types : InSquares (TypesFront names variadic) typesOptional list) (ground : Ground below) :
    ArgSchema.Header.ofParts? (((list ++ front) ++ below).map part) =
      ArgSchema.Header.ofForms? ⟨front.length, optional, labelled⟩
        ⟨list.length, typesOptional, variadic⟩ := by
  -- The types come off, and then the names are found.
  rw [List.append_assoc]
  obtain ⟨type, metadata⟩ := head?_of_types types (front ++ below)
  rw [ofParts?_of_head type metadata, typesForm_of_front types, List.map_append,
    List.drop_left' (List.length_map _), (namesForm_of_front written ground).1]
  rfl

/-- The phrases of a header are found by their parts. -/
theorem ofParts?_of_headed {heading : Heading} {front below : List Phrase}
    (headed : Headed heading front) (ground : Ground below) :
    ∃ header, ArgSchema.Header.ofParts? ((front ++ below).map part) = some header ∧
      header.length = front.length ∧ header.kind = heading.form.kind := by
  -- Each form of a heading is found by the parts that it consists of.
  cases headed with
  | @metadata word kind text =>
    refine ⟨⟨.metadata .empty, 1⟩, ?_, rfl, rfl⟩
    simp [part, HeaderPart.ofToken, Token.isWord, kind, text, ArgSchema.Header.ofParts?]
  | @typeDefinition type kind =>
    refine ⟨⟨.typeDefinition .empty, 1⟩, ?_, rfl, rfl⟩
    simp [part, HeaderPart.ofToken, kind, ArgSchema.Header.ofParts?]
  | @positional optional typesOptional variadic names types front list written typed =>
    rw [ofParts?_of_fronts written typed ground]
    -- At least one type is named, which tells a value from a flag.
    have some : list.length ≠ 0 := by
      cases typed with
      | bare inner => cases inner <;> simp
      | brackets => simp
    refine ⟨⟨.positional (optional || typesOptional) variadic .empty,
      front.length + list.length⟩, ?_, by simp [Nat.add_comm], rfl⟩
    simp only [ArgSchema.Header.ofForms?, Bool.false_eq_true, if_false, some]
  | @flag optional names front written =>
    obtain ⟨type, metadata⟩ := head?_of_names written below
    obtain ⟨form, none⟩ := namesForm_of_front written ground
    rw [ofParts?_of_head type metadata, none, List.drop_zero, form]
    exact ⟨_, rfl, rfl, rfl⟩
  | @option optional valueOptional variadic names types front list written typed =>
    rw [ofParts?_of_fronts written typed ground]
    exact ⟨_, rfl, by simp [Nat.add_comm], rfl⟩

/-- An item is read as the last one of the file. -/
theorem readAll_item {item : Item} {tokens : List Token} {below : List Phrase}
    (written : FileItem item tokens) (ground : Ground below) :
    readAll below tokens = addItem item below := by
  cases written with
  | suppress pair => exact readAll_suppression pair below
  | definition defines =>
    cases defines with
    | @definition heading body header tokens written enclosed =>
      -- The header is read, then the body, which finds the header in front of it.
      obtain ⟨front, read, headed⟩ := readAll_header written ground
      obtain ⟨found, parts, length, kind⟩ := ofParts?_of_headed headed ground
      rw [readAll_append, read, readAll_body enclosed parts, length, kind, List.take_left,
        List.drop_left, headed.heading_eq]

/-- Items are read as a file. -/
theorem readAll_items {items : List Item} {tokens : List Token}
    (written : Sequence FileItem items tokens) : readAll [] tokens = listed .file items [] := by
  -- By induction on the items, each read behind those before.
  refine readAll_sequence written fun before item last spelled => ?_
  rw [readAll_item spelled]
  · -- In front of an item is nothing or the file so far.
    cases before <;> rfl
  · cases before with
    | nil => exact .inl rfl
    | cons => exact .inr ⟨_, rfl⟩

end Phrase

/-- Tokens that spell a file are read as it. -/
theorem Phrase.items?_readAll {items : List Item} {tokens : List Token}
    (written : Grammar.File items tokens) : items? (readAll [] tokens) = some items := by
  -- The items are read into a file, which is then the only phrase.
  cases written with
  | items some written =>
    rw [readAll_items written]
    simp [listed, some, items?]

/-- Tokens are read as a file exactly when there are none or they spell it. -/
theorem Phrase.items?_readAll_iff {items : List Item} {tokens : List Token}
    (known : Token.AllKnown tokens) :
    items? (readAll [] tokens) = some items ↔
      (items = [] ∧ tokens = []) ∨ Grammar.File items tokens := by
  constructor
  · -- What is read is spelled by the tokens, and what they spell is read.
    intro file
    obtain ⟨kept, _, same, spelled⟩ := readAll_spells tokens
    rw [same known] at spelled
    exact spelled.items file
  · rintro (⟨rfl, rfl⟩ | written)
    · rfl
    · exact items?_readAll written

end ArgSchema
