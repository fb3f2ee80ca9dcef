import ArgSchema.Proofs.Parser.Phrase

/-! The shapes of headers: which phrases in front of a body make which heading. -/

namespace ArgSchema

/-- The kind of the tokens that are a part of a header, if the part is one token. -/
def HeaderPart.kind? : HeaderPart → Option TokenKind
  | .word | .metadata => some .identifier
  | .shortlabel => some .shortlabel
  | .longlabel => some .longlabel
  | .type => some .type
  | .openSquare => some .openSquare
  | .closeSquare => some .closeSquare
  | .ellipsis => some .ellipsis
  | .types | .foreign => none

/-- A token that is a part of a header is of that part's kind. -/
theorem HeaderPart.kind_of_ofToken {token : Token} {part : HeaderPart} {kind : TokenKind}
    (same : ofToken token = part) (known : part.kind? = some kind) : token.kind = kind := by
  subst same
  unfold ofToken at known
  cases shown : token.kind <;> simp only [shown] at known
  case identifier =>
    -- Both parts that a word can be are words.
    split at known <;> exact Option.some.inj known
  all_goals simp_all [HeaderPart.kind?]

namespace Phrase

/-- A phrase that is a part of a header made of one token is that token. -/
theorem token_of_part {phrase : Phrase} {part : HeaderPart} {kind : TokenKind}
    (same : phrase.part = part) (known : part.kind? = some kind) :
    ∃ given, phrase = .token given ∧ given.kind = kind ∧ HeaderPart.ofToken given = part := by
  -- Nodes make parts that have no kind of token.
  cases phrase with
  | token given => exact ⟨given, rfl, HeaderPart.kind_of_ofToken same known, same⟩
  | _ => subst same; simp [Phrase.part, HeaderPart.kind?] at known

/-- A phrase that is a type list in a header is one. -/
theorem types_of_part {phrase : Phrase} (same : phrase.part = .types) :
    ∃ names, phrase = .types names := by
  -- Only a list of types reads like one in a header.
  cases phrase with
  | types names => exact ⟨names, rfl⟩
  | token given =>
    simp only [Phrase.part, HeaderPart.ofToken] at same
    split at same <;> (try split at same) <;> cases same
  | _ => cases same

/-- Phrases that stand in square brackets, or stand alone; the last one comes first. -/
inductive InSquares (Front : List Phrase → Prop) : Bool → List Phrase → Prop
  /-- The phrases alone. -/
  | bare {front} : Front front → InSquares Front false front
  /-- The phrases in brackets. -/
  | brackets {closing front opening} : closing.kind = .closeSquare → Front front →
      opening.kind = .openSquare → InSquares Front true (.token closing :: front ++ [.token opening])

/-- The names in front of a body; labels are told apart from a word. -/
inductive NamesFront : Bool → List Label → List Phrase → Prop
  /-- A word that is not the one for the schema itself. -/
  | word {name} : name.kind = .identifier → name.text ≠ "meta" →
      NamesFront false [⟨name.text, .identifier⟩] [.token name]
  /-- A shortlabel. -/
  | short {name} : name.kind = .shortlabel →
      NamesFront true [⟨name.text, .shortlabel⟩] [.token name]
  /-- A longlabel. -/
  | long {name} : name.kind = .longlabel → NamesFront true [⟨name.text, .longlabel⟩] [.token name]
  /-- A longlabel behind a shortlabel. -/
  | both {letter name} : letter.kind = .shortlabel → name.kind = .longlabel →
      NamesFront true [⟨letter.text, .shortlabel⟩, ⟨name.text, .longlabel⟩]
        [.token name, .token letter]

/-- The type list in front of a body, with three dots behind it if it is variadic. -/
inductive TypesFront (names : List String) : Bool → List Phrase → Prop
  /-- The list alone. -/
  | once : TypesFront names false [.types names]
  /-- The list and three dots. -/
  | variadic {dots} : dots.kind = .ellipsis → TypesFront names true [.token dots, .types names]

/-- A word of a header is none that stands for the schema itself. -/
theorem text_of_word {given : Token} (word : HeaderPart.ofToken given = .word) :
    given.text ≠ "meta" := by
  -- A word with this text would be the one for the schema.
  intro same
  have kind := HeaderPart.kind_of_ofToken word rfl
  simp [HeaderPart.ofToken, Token.isWord, kind, same] at word

/-- Parts that end with types are those of a type list. -/
theorem typesFront_of_parts (phrases : List Phrase) :
    TypesForm.ofParts (phrases.map part) = ⟨0, false, false⟩ ∨
      ∃ names front rest, phrases = front ++ rest ∧
        (TypesForm.ofParts (phrases.map part)).length = front.length ∧
        InSquares (TypesFront names (TypesForm.ofParts (phrases.map part)).variadic)
          (TypesForm.ofParts (phrases.map part)).optional front := by
  generalize shown : phrases.map part = parts
  -- Each form names the parts it takes, and each part names its phrase.
  unfold TypesForm.ofParts
  split
  case h_5 => exact .inl rfl
  all_goals simp only [List.map_eq_cons_iff] at shown
  case h_1 =>
    -- In brackets, with dots.
    obtain ⟨_, _, rfl, first, _, _, rfl, second, _, _, rfl, third, _, rest, rfl, fourth, _⟩ := shown
    obtain ⟨closing, rfl, close, _⟩ := token_of_part first rfl
    obtain ⟨dots, rfl, ellipsis, _⟩ := token_of_part second rfl
    obtain ⟨names, rfl⟩ := types_of_part third
    obtain ⟨opening, rfl, opened, _⟩ := token_of_part fourth rfl
    exact .inr ⟨names, _, rest, rfl, rfl, .brackets close (.variadic ellipsis) opened⟩
  case h_2 =>
    -- In brackets, without dots.
    obtain ⟨_, _, rfl, first, _, _, rfl, second, _, rest, rfl, third, _⟩ := shown
    obtain ⟨closing, rfl, close, _⟩ := token_of_part first rfl
    obtain ⟨names, rfl⟩ := types_of_part second
    obtain ⟨opening, rfl, opened, _⟩ := token_of_part third rfl
    exact .inr ⟨names, _, rest, rfl, rfl, .brackets close .once opened⟩
  case h_3 =>
    -- Without brackets, with dots.
    obtain ⟨_, _, rfl, first, _, rest, rfl, second, _⟩ := shown
    obtain ⟨dots, rfl, ellipsis, _⟩ := token_of_part first rfl
    obtain ⟨names, rfl⟩ := types_of_part second
    exact .inr ⟨names, _, rest, rfl, rfl, .bare (.variadic ellipsis)⟩
  case h_4 =>
    -- The list alone.
    obtain ⟨_, rest, rfl, first, _⟩ := shown
    obtain ⟨names, rfl⟩ := types_of_part first
    exact .inr ⟨names, _, rest, rfl, rfl, .bare .once⟩

/-- Parts that end with names are those of a word or of labels. -/
theorem namesFront_of_parts {phrases : List Phrase} {form : NamesForm}
    (found : NamesForm.ofParts? (phrases.map part) = some form) :
    ∃ labels front rest, phrases = front ++ rest ∧ form.length = front.length ∧
      InSquares (NamesFront form.labelled labels) form.optional front := by
  generalize shown : phrases.map part = parts at found
  unfold NamesForm.ofParts? at found
  -- One case for each form: labels of both lengths, one of them, or a word, in brackets or not.
  split at found <;> cases found
  all_goals simp only [List.map_eq_cons_iff] at shown
  -- In brackets: both labels, one of them, or a word. Each part is a token of its kind.
  case h_1 =>
    obtain ⟨_, _, rfl, first, _, _, rfl, second, _, _, rfl, third, _, rest, rfl, fourth, _⟩ := shown
    obtain ⟨closing, rfl, close, _⟩ := token_of_part first rfl
    obtain ⟨name, rfl, long, _⟩ := token_of_part second rfl
    obtain ⟨letter, rfl, short, _⟩ := token_of_part third rfl
    obtain ⟨opening, rfl, opened, _⟩ := token_of_part fourth rfl
    exact ⟨_, _, rest, rfl, rfl, .brackets close (.both short long) opened⟩
  case h_2 =>
    obtain ⟨_, _, rfl, first, _, _, rfl, second, _, rest, rfl, third, _⟩ := shown
    obtain ⟨closing, rfl, close, _⟩ := token_of_part first rfl
    obtain ⟨name, rfl, long, _⟩ := token_of_part second rfl
    obtain ⟨opening, rfl, opened, _⟩ := token_of_part third rfl
    exact ⟨_, _, rest, rfl, rfl, .brackets close (.long long) opened⟩
  case h_3 =>
    obtain ⟨_, _, rfl, first, _, _, rfl, second, _, rest, rfl, third, _⟩ := shown
    obtain ⟨closing, rfl, close, _⟩ := token_of_part first rfl
    obtain ⟨letter, rfl, short, _⟩ := token_of_part second rfl
    obtain ⟨opening, rfl, opened, _⟩ := token_of_part third rfl
    exact ⟨_, _, rest, rfl, rfl, .brackets close (.short short) opened⟩
  case h_4 =>
    obtain ⟨_, _, rfl, first, _, _, rfl, second, _, rest, rfl, third, _⟩ := shown
    obtain ⟨closing, rfl, close, _⟩ := token_of_part first rfl
    obtain ⟨name, rfl, word, part⟩ := token_of_part second rfl
    obtain ⟨opening, rfl, opened, _⟩ := token_of_part third rfl
    exact ⟨_, _, rest, rfl, rfl, .brackets close (.word word (text_of_word part)) opened⟩
  -- The same forms without brackets.
  case h_5 =>
    obtain ⟨_, _, rfl, first, _, rest, rfl, second, _⟩ := shown
    obtain ⟨name, rfl, long, _⟩ := token_of_part first rfl
    obtain ⟨letter, rfl, short, _⟩ := token_of_part second rfl
    exact ⟨_, _, rest, rfl, rfl, .bare (.both short long)⟩
  case h_6 =>
    obtain ⟨_, rest, rfl, first, _⟩ := shown
    obtain ⟨name, rfl, long, _⟩ := token_of_part first rfl
    exact ⟨_, _, rest, rfl, rfl, .bare (.long long)⟩
  case h_7 =>
    obtain ⟨_, rest, rfl, first, _⟩ := shown
    obtain ⟨letter, rfl, short, _⟩ := token_of_part first rfl
    exact ⟨_, _, rest, rfl, rfl, .bare (.short short)⟩
  case h_8 =>
    obtain ⟨_, rest, rfl, first, _⟩ := shown
    obtain ⟨name, rfl, word, part⟩ := token_of_part first rfl
    exact ⟨_, _, rest, rfl, rfl, .bare (.word word (text_of_word part))⟩

/-- The phrases of a whole header; the last one comes first. -/
inductive Headed : Heading → List Phrase → Prop
  /-- The word for the schema itself. -/
  | metadata {word} : word.kind = .identifier → word.text = "meta" →
      Headed ⟨.metadata, [], none⟩ [.token word]
  /-- A type's name. -/
  | typeDefinition {type} : type.kind = .type →
      Headed ⟨.typeDefinition, [⟨type.text, .type⟩], none⟩ [.token type]
  /-- A word and types. -/
  | positional {optional typesOptional variadic names types front list} :
      InSquares (NamesFront false names) optional front →
      InSquares (TypesFront types variadic) typesOptional list →
      Headed ⟨.positional (optional || typesOptional) variadic, names, some types⟩
        (list ++ front)
  /-- Labels alone. -/
  | flag {optional names front} : InSquares (NamesFront true names) optional front →
      Headed ⟨.option optional false false, names, none⟩ front
  /-- Labels and types. -/
  | option {optional valueOptional variadic names types front list} :
      InSquares (NamesFront true names) optional front →
      InSquares (TypesFront types variadic) valueOptional list →
      Headed ⟨.option optional valueOptional variadic, names, some types⟩ (list ++ front)

/-- Parts that a header ends are those of its phrases. -/
theorem headed_of_parts {phrases : List Phrase} {header : Header}
    (found : Header.ofParts? (phrases.map part) = some header) :
    ∃ heading front rest, phrases = front ++ rest ∧ header.length = front.length ∧
      header.kind = heading.form.kind ∧ Headed heading front := by
  unfold Header.ofParts? at found
  split at found
  case h_1 parts after shown =>
    -- A single type heads a definition of a type.
    simp only [List.map_eq_cons_iff] at shown
    obtain ⟨_, rest, rfl, first, _⟩ := shown
    obtain ⟨type, rfl, kind, _⟩ := token_of_part first rfl
    cases found
    exact ⟨_, _, rest, rfl, rfl, rfl, .typeDefinition kind⟩
  case h_2 parts after shown =>
    -- The word for the schema heads a block about it.
    simp only [List.map_eq_cons_iff] at shown
    obtain ⟨_, rest, rfl, first, _⟩ := shown
    obtain ⟨word, rfl, kind, part⟩ := token_of_part first rfl
    cases found
    have text : word.text = "meta" := by
      simpa [HeaderPart.ofToken, Token.isWord, kind] using part
    exact ⟨_, _, rest, rfl, rfl, rfl, .metadata kind text⟩
  case h_3 =>
    -- The types come off first, then the names in front of them.
    obtain ⟨form, named, given⟩ := Option.bind_eq_some_iff.mp found
    rcases typesFront_of_parts phrases with none | ⟨names, list, before, rfl, length, types⟩
    · -- Without types there must be labels, since a word alone is no header.
      rw [none] at named given
      obtain ⟨labels, front, rest, rfl, length, names⟩ := namesFront_of_parts named
      obtain ⟨size, optional, labelled⟩ := form
      cases labelled
      · simp [Header.ofForms?] at given
      · cases given
        exact ⟨_, front, rest, rfl, length, rfl, .flag names⟩
    · generalize TypesForm.ofParts ((list ++ before).map part) = typesForm at *
      obtain ⟨typesSize, typesOptional, variadic⟩ := typesForm
      subst length
      rw [List.map_append, List.drop_left' (List.length_map _)] at named
      obtain ⟨labels, front, rest, rfl, length, written⟩ := namesFront_of_parts named
      obtain ⟨size, optional, labelled⟩ := form
      subst length
      -- A list of types has at least one phrase, so the forms with types apply.
      have some : list.length ≠ 0 := by
        cases types with
        | bare inner => cases inner <;> simp
        | brackets => simp
      cases labelled
      · simp only [Header.ofForms?, Bool.false_eq_true, if_false, some] at given
        cases given
        exact ⟨_, list ++ front, rest, by simp, by simp [Nat.add_comm], rfl,
          .positional written types⟩
      · cases given
        exact ⟨_, list ++ front, rest, by simp, by simp [Nat.add_comm], rfl, .option written types⟩

/-- What square brackets enclose tells what all phrases are like if brackets are like that. -/
theorem InSquares.forall_mem {Front : List Phrase → Prop} {P : Phrase → Prop} {optional : Bool}
    {front : List Phrase} (given : InSquares Front optional front) (square : ∀ token, P (.token token))
    (inside : ∀ {inner}, Front inner → ∀ phrase ∈ inner, P phrase) : ∀ phrase ∈ front, P phrase := by
  -- The brackets are tokens, and what is between them is the front.
  cases given with
  | bare bare => exact inside bare
  | brackets _ inner _ =>
    intro phrase member
    simp only [List.cons_append, List.mem_cons, List.mem_append, List.not_mem_nil, or_false] at member
    rcases member with rfl | member | rfl
    · exact square _
    · exact inside inner phrase member
    · exact square _

/-- A phrase of a header that is no token is a list of types. -/
theorem Headed.token_or_types {given : Heading} {front : List Phrase} (headed : Headed given front) :
    ∀ phrase ∈ front, (∃ token, phrase = .token token) ∨ ∃ names, phrase = .types names := by
  -- Brackets are tokens, whatever they enclose.
  have square : ∀ token, (∃ given, Phrase.token token = .token given) ∨
      ∃ names, Phrase.token token = .types names := fun token => .inl ⟨token, rfl⟩
  have names : ∀ {labelled labels inner}, NamesFront labelled labels inner → ∀ phrase ∈ inner,
      (∃ token, phrase = .token token) ∨ ∃ names, phrase = .types names := by
    intro _ _ _ names
    cases names <;> simp
  have types : ∀ {list variadic inner}, TypesFront list variadic inner → ∀ phrase ∈ inner,
      (∃ token, phrase = .token token) ∨ ∃ names, phrase = .types names := by
    intro _ _ _ types
    cases types <;> simp
  cases headed with
  | metadata | typeDefinition => simp
  | flag front => exact front.forall_mem square names
  | positional front list | option front list =>
    exact List.forall_mem_append.mpr ⟨list.forall_mem square types, front.forall_mem square names⟩

/-- Names in brackets or without them begin with a token. -/
theorem InSquares.begins {labelled optional : Bool} {labels : List Label} {front : List Phrase}
    (given : InSquares (NamesFront labelled labels) optional front) :
    ∃ token others, front.reverse = .token token :: others := by
  -- Read from the left, the first part is the opening bracket or the first name.
  cases given with
  | bare names => cases names <;> exact ⟨_, _, rfl⟩
  | brackets => exact ⟨_, _, List.reverse_concat ..⟩

/-- A header begins with a token. -/
theorem Headed.begins {given : Heading} {front : List Phrase} (headed : Headed given front) :
    ∃ token others, front.reverse = .token token :: others := by
  -- Every header starts with a token, which its names end with on the stack.
  cases headed with
  | metadata | typeDefinition => exact ⟨_, _, rfl⟩
  | flag names => exact names.begins
  | positional names | option names =>
    obtain ⟨token, others, first⟩ := names.begins
    exact ⟨token, _, by rw [List.reverse_append, first, List.cons_append]⟩

section Contents

variable {α : Type} {f : Phrase → Option α} {held : List α} {front : List Phrase}

/-- Square brackets add nothing to what the phrases between them hold. -/
theorem InSquares.filterMap {Front : List Phrase → Prop} {optional : Bool}
    (given : InSquares Front optional front)
    (blank : ∀ token, token.kind = .openSquare ∨ token.kind = .closeSquare →
      f (.token token) = none)
    (inside : ∀ {inner}, Front inner → inner.reverse.filterMap f = held) :
    front.reverse.filterMap f = held := by
  cases given with
  -- Brackets hold nothing, and what they enclose is asked.
  | bare inner => exact inside inner
  | @brackets closing inner opening close given opened =>
    simp [blank closing (.inr close), blank opening (.inl opened), List.filterMap_append, inside given]

/-- A token with neither a name nor a value holds nothing. -/
theorem blank_of_square {token : Token}
    (square : token.kind = .openSquare ∨ token.kind = .closeSquare) :
    label? (.token token) = none ∧ types? (.token token) = none ∧
      (piece (.token token)).outline? = none := by
  rcases square with kind | kind <;>
    simp [label?, types?, piece, Piece.outline?, Token.leaf?, Token.label?, Token.category?, kind]

/-- Names in front of a body hold their labels and no types. -/
theorem NamesFront.contents {labelled : Bool} {labels : List Label}
    (given : NamesFront labelled labels front) :
    front.reverse.filterMap label? = labels ∧ front.reverse.filterMap types? = [] ∧
      front.reverse.filterMap (·.piece.outline?) = labels.map Label.outline := by
  -- A word, a short label, a long label, or both.
  cases given with
  | @word name kind text =>
    have named : name.label? = some ⟨name.text, .identifier⟩ := by
      simp [Token.label?, Token.category?, Token.isWord, kind, text]
    simp [label?, types?, piece, Piece.outline?, named, Token.leaf?_of_label? named]
  | @short name kind =>
    have named : name.label? = some ⟨name.text, .shortlabel⟩ := by
      simp [Token.label?, Token.category?, kind]
    simp [label?, types?, piece, Piece.outline?, named, Token.leaf?_of_label? named]
  | @long name kind =>
    have named : name.label? = some ⟨name.text, .longlabel⟩ := by
      simp [Token.label?, Token.category?, kind]
    simp [label?, types?, piece, Piece.outline?, named, Token.leaf?_of_label? named]
  | @both letter name short long =>
    have first : letter.label? = some ⟨letter.text, .shortlabel⟩ := by
      simp [Token.label?, Token.category?, short]
    have second : name.label? = some ⟨name.text, .longlabel⟩ := by
      simp [Token.label?, Token.category?, long]
    simp [label?, types?, piece, Piece.outline?, first, second, Token.leaf?_of_label? first,
      Token.leaf?_of_label? second]

/-- A type list in front of a body holds its types and no labels. -/
theorem TypesFront.contents {variadic : Bool} {names : List String}
    (given : TypesFront names variadic front) :
    front.reverse.filterMap label? = [] ∧ front.reverse.filterMap types? = [names] ∧
      front.reverse.filterMap (·.piece.outline?) = [typesOutline names] := by
  -- The types add no label, and neither do the dots behind them.
  cases given with
  | once => simp [label?, types?, piece, Piece.outline?]
  | @variadic dots kind =>
    simp [label?, types?, piece, Piece.outline?, Token.label?, Token.category?, Token.leaf?, kind]

/-- What names in brackets or without them hold. -/
theorem InSquares.names {labelled optional : Bool} {labels : List Label}
    (given : InSquares (NamesFront labelled labels) optional front) :
    front.reverse.filterMap label? = labels ∧ front.reverse.filterMap types? = [] ∧
      front.reverse.filterMap (·.piece.outline?) = labels.map Label.outline :=
  ⟨given.filterMap (fun _ square => (blank_of_square square).1) fun inner => inner.contents.1,
    given.filterMap (fun _ square => (blank_of_square square).2.1) fun inner => inner.contents.2.1,
    given.filterMap (fun _ square => (blank_of_square square).2.2) fun inner => inner.contents.2.2⟩

/-- What types in brackets or without them hold. -/
theorem InSquares.types {variadic optional : Bool} {names : List String}
    (given : InSquares (TypesFront names variadic) optional front) :
    front.reverse.filterMap label? = [] ∧ front.reverse.filterMap types? = [names] ∧
      front.reverse.filterMap (·.piece.outline?) = [typesOutline names] :=
  ⟨given.filterMap (fun _ square => (blank_of_square square).1) fun inner => inner.contents.1,
    given.filterMap (fun _ square => (blank_of_square square).2.1) fun inner => inner.contents.2.1,
    given.filterMap (fun _ square => (blank_of_square square).2.2) fun inner => inner.contents.2.2⟩

/-- The heading of a header is read off its phrases. -/
theorem Headed.heading_eq {given : Heading} (headed : Headed given front) :
    heading given.form.kind front.reverse = given := by
  -- Each form is told by its kind, and its names and types by the phrases in its front.
  cases headed with
  | metadata => simp [heading, Form.kind]
  | @typeDefinition type kind =>
    simp [heading, Form.kind, label?, types?, Token.label?, Token.category?, kind]
  | positional names types =>
    simp [heading, Form.kind, List.filterMap_append, names.names, types.types]
  | flag names => simp [heading, Form.kind, names.names]
  | option names types =>
    simp [heading, Form.kind, List.filterMap_append, names.names, types.types]

/-- The names and types of a header are what its phrases hold, unless it is a word of its own. -/
theorem Headed.outlines {given : Heading} (headed : Headed given front) :
    (if given.form.kind.type = .metadata then [] else front.reverse).filterMap (·.piece.outline?) =
      given.outlines := by
  -- Only the word for the schema leaves no outline.
  cases headed with
  | metadata => simp [Form.kind, NodeKind.type, Heading.outlines]
  | @typeDefinition type kind =>
    have named : type.label? = some ⟨type.text, .type⟩ := by
      simp [Token.label?, Token.category?, kind]
    simp [Form.kind, NodeKind.type, Heading.outlines, piece, Piece.outline?, Token.leaf?_of_label? named]
  | positional names types =>
    simp [Form.kind, NodeKind.type, Heading.outlines, List.filterMap_append, names.names, types.types]
  | flag names => simp [Form.kind, NodeKind.type, Heading.outlines, names.names]
  | option names types =>
    simp [Form.kind, NodeKind.type, Heading.outlines, List.filterMap_append, names.names, types.types]

/-- Names that are no labels are one word. -/
theorem InSquares.word {optional : Bool} {labels : List Label}
    (given : InSquares (NamesFront false labels) optional front) :
    ∃ name, labels = [⟨name, .identifier⟩] := by
  -- Names that are no labels have one shape only.
  cases given with
  | bare inner => cases inner; exact ⟨_, rfl⟩
  | brackets _ inner _ => cases inner; exact ⟨_, rfl⟩

/-- A word is one name, and labels are at most two. -/
theorem InSquares.length_labels {labelled optional : Bool} {labels : List Label}
    (given : InSquares (NamesFront labelled labels) optional front) :
    labels.length ≤ if labelled then 2 else 1 := by
  -- Each shape of names lists its labels.
  cases given with
  | bare inner => cases inner <;> simp
  | brackets _ inner _ => cases inner <;> simp

/-- A definition has room for its names, its types and its properties. -/
theorem Headed.room {given : Heading} (headed : Headed given front) :
    ∀ max, given.form.kind.type.maxChildren? = some max → given.outlines.length + 1 ≤ max := by
  intro max limited
  -- A definition allows for its body, its types, and one name or two labels.
  cases headed <;> cases limited
  case metadata => simp [Heading.outlines]
  case typeDefinition => simp [Heading.outlines]
  case positional names types =>
    have few := names.length_labels
    simp only [Heading.outlines, List.length_append, List.length_map, Option.toList_some,
      List.length_singleton, Bool.false_eq_true, if_false] at few ⊢
    omega
  case flag names =>
    have few := names.length_labels
    simp only [Heading.outlines, List.length_append, List.length_map, Option.toList_none,
      List.length_nil, if_true] at few ⊢
    omega
  case option names types =>
    have few := names.length_labels
    simp only [Heading.outlines, List.length_append, List.length_map, Option.toList_some,
      List.length_singleton, if_true] at few ⊢
    omega

/-- A definition accepts its names, its types and its properties. -/
theorem Headed.accepted {given : Heading} (headed : Headed given front) :
    NodeType.configs ∈ given.form.kind.type.whitelist ∧
      ∀ outline ∈ given.outlines, outline.type ∈ given.form.kind.type.whitelist := by
  -- Each kind of definition lists the types of what it can have.
  have labels : ∀ (label : Label), label.outline.type = .identifier := fun _ => rfl
  have types : ∀ names, (typesOutline names).type = .types := fun _ => rfl
  cases headed <;>
    simp only [Form.kind, NodeKind.type, NodeType.whitelist, Heading.outlines, List.mem_append, List.mem_map,
      Option.mem_toList, NodeTypes.mem_only, NodeTypes.mem_ofList] <;>
    refine ⟨by simp, ?_⟩ <;>
    rintro outline (⟨label, member, rfl⟩ | ⟨names, member, rfl⟩) <;>
    simp_all

end Contents

end Phrase

end ArgSchema
