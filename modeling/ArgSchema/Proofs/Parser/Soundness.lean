import ArgSchema.Proofs.Parser.Heading
import Mathlib.Data.List.Induction
import Mathlib.Data.List.TakeDrop
import Mathlib.Data.List.TakeWhile

/-! Soundness: what a stack shows is always spelled by the tokens that were read. -/

namespace ArgSchema

namespace Phrase

open Grammar

/-- The tokens that a phrase spells. -/
inductive Derives : Phrase → List Token → Prop
  /-- A token spells itself. -/
  | token {given} : Derives (.token given) [given]
  /-- Semicolons behind an opening bracket are dropped. -/
  | opening {given strays} : given.kind = .openCurly → Strays strays →
      Derives (.token given) (given :: strays)
  /-- Values spell a sequence. -/
  | values {given tokens} : given ≠ [] → Sequence Value given tokens → Derives (.values given) tokens
  /-- Type names spell a sequence. -/
  | types {names tokens} : names ≠ [] → Sequence TypeName names tokens →
      Derives (.types names) tokens
  /-- Properties spell a sequence. -/
  | configs {statements tokens} : statements ≠ [] → Sequence Config statements tokens →
      Derives (.configs statements) tokens
  /-- An item spells itself. -/
  | item {given tokens} : FileItem given tokens → Derives (.item given) tokens
  /-- A file spells itself. -/
  | file {items tokens} : File items tokens → Derives (.file items) tokens

/-- The tokens that phrases spell, the lowest phrase first. -/
inductive Spells : List Phrase → List Token → Prop
  /-- No phrases. -/
  | nothing : Spells [] []
  /-- One more phrase on top. -/
  | more {below phrase tokens last} : Spells below tokens → Derives phrase last →
      Spells (phrase :: below) (tokens ++ last)

namespace Spells

variable {phrase : Phrase} {below phrases : List Phrase} {tokens : List Token}

/-- The tokens of a phrase on top stand behind those of the phrases below. -/
theorem pop (spelled : Spells (phrase :: below) tokens) :
    ∃ before last, tokens = before ++ last ∧ Spells below before ∧ Derives phrase last := by
  cases spelled with
  | more rest derived => exact ⟨_, _, rfl, rest, derived⟩

/-- A token on top is the last one, unless it is an opening bracket. -/
theorem pop_token {given : Token} (spelled : Spells (.token given :: below) tokens)
    (other : given.kind ≠ .openCurly) :
    ∃ before, tokens = before ++ [given] ∧ Spells below before := by
  -- A token that opens nothing spells itself.
  obtain ⟨before, last, rfl, rest, derived⟩ := spelled.pop
  cases derived with
  | token => exact ⟨before, rfl, rest⟩
  | opening curly _ => exact absurd curly other

/-- Nothing but semicolons stands behind a token on top. -/
theorem pop_opening {given : Token} (spelled : Spells (.token given :: below) tokens) :
    ∃ before strays, tokens = before ++ given :: strays ∧ Strays strays ∧ Spells below before := by
  -- An opening bracket may have stray semicolons behind it.
  obtain ⟨before, last, rfl, rest, derived⟩ := spelled.pop
  cases derived with
  | token => exact ⟨before, [], rfl, by simp [Strays], rest⟩
  | opening _ strays => exact ⟨before, _, rfl, strays, rest⟩

/-- A token can be read. -/
theorem push (spelled : Spells phrases tokens) (given : Token) :
    Spells (.token given :: phrases) (tokens ++ [given]) := spelled.more .token

/-- A value continues or begins a list of values. -/
theorem addValues (spelled : Spells phrases tokens) {value : Token}
    (isValue : value.kind.isValue = true) :
    Spells (Phrase.addValues value.leaf?.toList phrases) (tokens ++ [value]) := by
  -- A value stands for a leaf.
  obtain ⟨leaf, given⟩ := Token.exists_leaf? isValue
  have added : Value leaf [value] := .token (Token.value?_eq_some_iff.mpr ⟨isValue, given⟩)
  rw [given]
  unfold Phrase.addValues
  split
  · -- A list of values on top goes on, and without one a new list begins.
    obtain ⟨before, last, rfl, rest, derived⟩ := spelled.pop
    cases derived with
    | values some listed =>
      rw [List.append_assoc]
      exact rest.more (.values (by simp) (listed.more added))
  · exact spelled.more (.values (by simp) (Sequence.none.more added))

/-- A type's name continues or begins a list of types. -/
theorem addType (spelled : Spells phrases tokens) {type : Token} (kind : type.kind = .type) :
    Spells (Phrase.addType type.text phrases) (tokens ++ [type]) := by
  -- The type goes behind those that are listed.
  have added : TypeName type.text [type] := .token kind
  unfold Phrase.addType
  split
  · -- A list of types on top goes on, and without one a new list begins.
    obtain ⟨before, last, rfl, rest, derived⟩ := spelled.pop
    cases derived with
    | types some listed =>
      rw [List.append_assoc]
      exact rest.more (.types (by simp) (listed.more added))
  · exact spelled.more (.types (by simp) (Sequence.none.more added))

/-- A property continues or begins a list of properties. -/
theorem addStatement (spelled : Spells phrases tokens) {statement : Statement} {last : List Token}
    (added : Config statement last) :
    Spells (Phrase.addStatement statement phrases) (tokens ++ last) := by
  unfold Phrase.addStatement
  -- A list of properties goes on, or it begins with this one.
  split
  · obtain ⟨before, listed, rfl, rest, derived⟩ := spelled.pop
    cases derived with
    | configs some listed =>
      rw [List.append_assoc]
      exact rest.more (.configs (by simp) (listed.more added))
  · exact spelled.more (.configs (by simp) (Sequence.none.more added))

/-- An item continues or begins a file, or stands behind something open. -/
theorem addItem (spelled : Spells phrases tokens) {item : Item} {last : List Token}
    (added : FileItem item last) : Spells (Phrase.addItem item phrases) (tokens ++ last) := by
  -- The item goes behind those of the file, if there is one below it.
  unfold Phrase.addItem
  split
  · -- At the bottom a file begins, and a file on top goes on.
    exact spelled.more (.file (.items (by simp) (Sequence.none.more added)))
  · obtain ⟨before, listed, rfl, rest, derived⟩ := spelled.pop
    cases derived with
    | file given =>
      cases given with
      | items some listed =>
        rw [List.append_assoc]
        exact rest.more (.file (.items (by simp) (listed.more added)))
  · exact spelled.more (.item added)

/-- Suppressions on top are spelled one behind the other. -/
theorem suppressions {marks rest : List Phrase}
    (all : ∀ phrase ∈ marks, phrase.suppression?.isSome = true)
    (spelled : Spells (marks ++ rest) tokens) :
    ∃ before last, tokens = before ++ last ∧ Spells rest before ∧
      Sequence Suppression (marks.reverse.filterMap suppression?) last := by
  induction marks generalizing tokens with
  | nil => exact ⟨tokens, [], by simp, spelled, .none⟩
  | cons mark marks ih =>
    -- The suppression on top was spelled last.
    obtain ⟨before, last, rfl, below, derived⟩ := spelled.pop
    obtain ⟨kind, given⟩ := Option.isSome_iff_exists.mp (all mark (by simp))
    obtain ⟨front, middle, rfl, others, listed⟩ :=
      ih (fun phrase member => all phrase (by simp [member])) below
    unfold suppression? at given
    split at given <;> cases given
    cases derived with
    | item item =>
      cases item with
      | suppress pair =>
        refine ⟨front, middle ++ last, by simp, others, ?_⟩
        rw [List.reverse_cons, List.filterMap_append]
        exact listed.more pair

/-- Semicolons behind properties belong to the last of them. -/
theorem strays_of_configs {statements : List Statement} (some : statements ≠ [])
    (listed : Sequence Config statements tokens) {semicolon : Token}
    (kind : semicolon.kind = .semicolon) : Sequence Config statements (tokens ++ [semicolon]) := by
  -- There is a last property, behind whose semicolon others may stand.
  cases listed with
  | none => exact absurd rfl some
  | more before last =>
    cases last with
    | @statement _ _ _ marks word literals closing strays marked keyword nonempty values close dropped =>
      have further : Strays (strays ++ [semicolon]) := by
        intro token member
        rcases List.mem_append.mp member with member | member
        · exact dropped token member
        · rw [List.mem_singleton.mp member]
          exact kind
      have longer := before.more (.statement marked keyword nonempty values close further)
      simpa using longer

/-- A semicolon behind values ends a property, to which the suppressions in front of it belong. -/
theorem property {word semicolon : Token} {keyword : Label} {given : List NodeKind}
    (spelled : Spells (.values given :: .token word :: phrases) tokens)
    (named : word.keyword? = some keyword) (kind : semicolon.kind = .semicolon) :
    ∃ before last, tokens ++ [semicolon] = before ++ last ∧
      Spells (phrases.dropWhile fun phrase => phrase.suppression?.isSome) before ∧
      Config ⟨(phrases.takeWhile fun phrase => phrase.suppression?.isSome).reverse.filterMap
        suppression?, keyword, given⟩ last := by
  obtain ⟨front, literals, rfl, below, derived⟩ := spelled.pop
  -- What heads a property is no bracket, so nothing is dropped behind it.
  have other : word.kind ≠ .openCurly := by
    intro curly
    simp [Token.keyword?, Token.isKeyword, curly] at named
  obtain ⟨outer, rfl, rest⟩ := below.pop_token other
  -- Below the word are the suppressions, and then what is no suppression.
  rw [← List.takeWhile_append_dropWhile (p := fun phrase => phrase.suppression?.isSome)
    (l := phrases)] at rest
  obtain ⟨before, marks, rfl, others, marked⟩ :=
    suppressions (fun _ member =>
      List.mem_takeWhile_imp (p := fun phrase : Phrase => phrase.suppression?.isSome) member) rest
  cases derived with
  | values some values =>
    exact ⟨before, _, by simp, others,
      .statement marked named some values kind (show Strays [] by simp [Strays])⟩

/-- A property takes the suppressions in front of it. -/
theorem closeProperty {word semicolon : Token} {keyword : Label} {given : List NodeKind}
    (spelled : Spells (.values given :: .token word :: phrases) tokens)
    (named : word.keyword? = some keyword) (kind : semicolon.kind = .semicolon) :
    Spells (Phrase.closeProperty keyword given phrases) (tokens ++ [semicolon]) := by
  -- The tokens of the suppressions, the keyword and the values end with the semicolon.
  obtain ⟨before, last, same, others, added⟩ := spelled.property named kind
  unfold Phrase.closeProperty
  rw [List.span_eq_takeWhile_dropWhile, same]
  exact others.addStatement added

/-- Reading a semicolon keeps what is spelled. -/
theorem readSemicolon (spelled : Spells phrases tokens) {semicolon : Token}
    (kind : semicolon.kind = .semicolon) :
    Spells (Phrase.readSemicolon semicolon phrases) (tokens ++ [semicolon]) := by
  have stays := spelled.push semicolon
  unfold Phrase.readSemicolon
  -- Behind an opening bracket, properties or values the semicolon belongs to what they spell.
  split
  · split
    · next curly =>
      obtain ⟨before, strays, rfl, dropped, rest⟩ := spelled.pop_opening
      -- One more semicolon is dropped behind the bracket.
      have further : Strays (strays ++ [semicolon]) := by
        intro token member
        rcases List.mem_append.mp member with member | member
        · exact dropped token member
        · rw [List.mem_singleton.mp member]
          exact kind
      simpa using rest.more (.opening curly further)
    · exact stays
  · obtain ⟨before, listed, rfl, rest, derived⟩ := spelled.pop
    cases derived with
    | configs some listed =>
      rw [List.append_assoc]
      exact rest.more (.configs some (strays_of_configs some listed kind))
  · split
    · next keyword named => exact spelled.closeProperty named kind
    · exact stays
  · exact stays

/-- Reading a type's name keeps what is spelled. -/
theorem readType (spelled : Spells phrases tokens) {type : Token} (kind : type.kind = .type) :
    Spells (Phrase.readType type phrases) (tokens ++ [type]) := by
  -- Behind anything else the type is a phrase of its own.
  unfold Phrase.readType
  split
  · exact spelled.addType kind
  · exact spelled.push type

/-- Reading a word keeps what is spelled; a suppression of an unknown class is dropped. -/
theorem readWord (spelled : Spells phrases tokens) {word : Token} (kind : word.kind = .identifier) :
    Spells (Phrase.readWord word phrases) (tokens ++ [word]) ∨
      ∃ before modifier, tokens = before ++ [modifier] ∧ modifier.isSuppress = true ∧
        WarningClass.ofName? word.text = none ∧ Spells (Phrase.readWord word phrases) before := by
  have stays := spelled.push word
  unfold Phrase.readWord
  split
  · next modifier rest =>
    split
    · next suppress =>
      -- The modifier is no bracket either.
      have other : modifier.kind ≠ .openCurly := by
        intro curly
        simp [Token.isSuppress, curly] at suppress
      obtain ⟨before, rfl, below⟩ := spelled.pop_token other
      cases known : WarningClass.ofName? word.text with
      -- An unknown class is dropped with its modifier, and a known one is an item.
      | none => exact .inr ⟨before, modifier, rfl, suppress, rfl, below⟩
      | some class_ =>
        have added := below.addItem (.suppress (.pair suppress kind known))
        exact .inl (by simpa using added)
    · exact .inl stays
  · exact .inl stays

/-- What phrases in brackets or without them spell. -/
theorem inSquares {Front : List Phrase → Prop} {Written : List Token → Prop} {optional : Bool}
    {front rest : List Phrase} (given : InSquares Front optional front)
    (inner : ∀ {front rest tokens}, Front front → Spells (front ++ rest) tokens →
      ∃ before last, tokens = before ++ last ∧ Spells rest before ∧ Written last)
    (spelled : Spells (front ++ rest) tokens) :
    ∃ before last, tokens = before ++ last ∧ Spells rest before ∧
      Bracketed Written optional last := by
  cases given with
  -- Without brackets the phrases spell what they are.
  | bare bare =>
    obtain ⟨before, last, rfl, below, written⟩ := inner bare spelled
    exact ⟨before, last, rfl, below, .bare written⟩
  | @brackets closing front opening close given opened =>
    simp only [List.cons_append, List.append_assoc] at spelled
    -- From behind, the closing bracket, what it encloses, and the opening one.
    obtain ⟨middle, rfl, enclosed⟩ := spelled.pop_token (by simp [close])
    obtain ⟨outer, last, rfl, below, written⟩ := inner given enclosed
    obtain ⟨before, rfl, others⟩ := Spells.pop_token below (by simp [opened])
    exact ⟨before, opening :: last ++ [closing], by simp, others, .brackets opened written close⟩

/-- A word in front of a body spells itself. -/
theorem word {name : String} {front rest : List Phrase}
    (given : NamesFront false [⟨name, .identifier⟩] front) (spelled : Spells (front ++ rest) tokens) :
    ∃ before last, tokens = before ++ last ∧ Spells rest before ∧ Word name last := by
  -- A word's only token is on top.
  cases given with
  | @word name kind text =>
    obtain ⟨before, rfl, below⟩ := Spells.pop_token spelled (by simp [kind])
    exact ⟨before, [name], rfl, below, .token kind text⟩

/-- Labels in front of a body spell themselves. -/
theorem labels {labels : List Label} {front rest : List Phrase}
    (given : NamesFront true labels front) (spelled : Spells (front ++ rest) tokens) :
    ∃ before last, tokens = before ++ last ∧ Spells rest before ∧ Labels labels last := by
  cases given with
  | @short name kind =>
    obtain ⟨before, rfl, below⟩ := Spells.pop_token spelled (by simp [kind])
    exact ⟨before, [name], rfl, below, .short kind⟩
  | @long name kind =>
    obtain ⟨before, rfl, below⟩ := Spells.pop_token spelled (by simp [kind])
    exact ⟨before, [name], rfl, below, .long kind⟩
  | @both letter name short long =>
    -- The long label was read last.
    obtain ⟨middle, rfl, inner⟩ := Spells.pop_token spelled (by simp [long])
    obtain ⟨before, rfl, below⟩ := Spells.pop_token inner (by simp [short])
    exact ⟨before, [letter, name], by simp, below, .both short long⟩

/-- A type list in front of a body spells its types. -/
theorem typeList {variadic : Bool} {names : List String} {front rest : List Phrase}
    (given : TypesFront names variadic front) (spelled : Spells (front ++ rest) tokens) :
    ∃ before last, tokens = before ++ last ∧ Spells rest before ∧ TypeList names variadic last := by
  -- The dots, if there are any, stand on top.
  cases given with
  | once =>
    obtain ⟨before, last, rfl, below, derived⟩ := Spells.pop spelled
    cases derived with
    | types some listed => exact ⟨before, last, rfl, below, .once some listed⟩
  | @variadic dots kind =>
    obtain ⟨middle, rfl, inner⟩ := Spells.pop_token spelled (by simp [kind])
    obtain ⟨before, last, rfl, below, derived⟩ := Spells.pop inner
    cases derived with
    | types some listed =>
      exact ⟨before, last ++ [dots], by simp, below, .variadic some listed kind⟩

/-- The phrases of a header spell a header. -/
theorem header {heading : Heading} {front rest : List Phrase} (headed : Headed heading front)
    (spelled : Spells (front ++ rest) tokens) :
    ∃ before last, tokens = before ++ last ∧ Spells rest before ∧ Grammar.Header heading last := by
  -- What is spelled is taken off from behind, the types first and then the names.
  cases headed with
  | @metadata word kind text =>
    obtain ⟨before, rfl, below⟩ := Spells.pop_token spelled (by simp [kind])
    exact ⟨before, [word], rfl, below, .metadata kind text⟩
  | @typeDefinition type kind =>
    obtain ⟨before, rfl, below⟩ := Spells.pop_token spelled (by simp [kind])
    exact ⟨before, [type], rfl, below, .typeDefinition (.token kind)⟩
  -- The types are behind the name, and each in its brackets or without them.
  | positional names types =>
    rw [List.append_assoc] at spelled
    obtain ⟨middle, list, rfl, inner, listed⟩ := inSquares types typeList spelled
    obtain ⟨name, rfl⟩ := names.word
    obtain ⟨before, last, rfl, below, written⟩ := inSquares names Spells.word inner
    exact ⟨before, last ++ list, by simp, below, .positional written listed⟩
  | flag names =>
    obtain ⟨before, last, rfl, below, written⟩ := inSquares names Spells.labels spelled
    exact ⟨before, last, rfl, below, .flag written⟩
  -- The same for an option, with its labels in front.
  | option names types =>
    rw [List.append_assoc] at spelled
    obtain ⟨middle, list, rfl, inner, listed⟩ := inSquares types typeList spelled
    obtain ⟨before, last, rfl, below, written⟩ := inSquares names Spells.labels inner
    exact ⟨before, last ++ list, by simp, below, .option written listed⟩

/-- The properties of a body stand behind what is in front of them. -/
theorem splitBody (spelled : Spells phrases tokens) :
    ∃ before last, tokens = before ++ last ∧ Spells (Phrase.splitBody phrases).2 before ∧
      Sequence Config (Phrase.splitBody phrases).1 last := by
  -- A body on top spells its properties.
  unfold Phrase.splitBody
  split
  · -- Without a list of properties the body is empty.
    obtain ⟨before, last, rfl, rest, derived⟩ := spelled.pop
    cases derived with
    | configs some listed => exact ⟨before, last, rfl, rest, listed⟩
  · exact ⟨tokens, [], by simp, spelled, .none⟩

/-- A closing bracket behind a body with a header in front of it ends a definition. -/
theorem definition (spelled : Spells phrases tokens) {closing opening : Token}
    (kind : closing.kind = .closeCurly) {rest : List Phrase}
    (front : (Phrase.splitBody phrases).2 = .token opening :: rest)
    (curly : opening.kind = .openCurly) {header : Header}
    (found : Header.ofParts? (rest.map part) = some header) :
    ∃ before last, tokens ++ [closing] = before ++ last ∧
      Spells (rest.drop header.length) before ∧
      FileItem (.definition ⟨heading header.kind (rest.take header.length).reverse,
        (Phrase.splitBody phrases).1⟩) last := by
  obtain ⟨outer, statements, rfl, enclosing, listed⟩ := spelled.splitBody
  -- In front of the properties the opening bracket, and in front of it the header.
  rw [front] at enclosing
  obtain ⟨before, strays, rfl, dropped, below⟩ := enclosing.pop_opening
  obtain ⟨heading, used, others, rfl, length, form, headed⟩ := headed_of_parts found
  obtain ⟨before, written, rfl, below, spelling⟩ := Spells.header headed below
  simp only [length, form, List.take_left, List.drop_left, headed.heading_eq]
  exact ⟨before, _, by simp, below,
    .definition (.definition spelling (.braces curly dropped listed kind))⟩

/-- Reading a closing bracket keeps what is spelled. -/
theorem readCloseCurly (spelled : Spells phrases tokens) {closing : Token}
    (kind : closing.kind = .closeCurly) :
    Spells (Phrase.readCloseCurly closing phrases) (tokens ++ [closing]) := by
  have stays := spelled.push closing
  unfold Phrase.readCloseCurly
  split
  · next opening rest front =>
    split
    · next curly =>
      split
      · next header found =>
        -- The body is complete, and a header stands in front of it.
        obtain ⟨before, last, same, below, defined⟩ := spelled.definition kind front curly found
        rw [same]
        exact below.addItem defined
      · exact stays
    · exact stays
  · exact stays

/-- Reading a token keeps what is spelled; a suppression of an unknown class is dropped. -/
theorem read (spelled : Spells phrases tokens) (token : Token) :
    Spells (Phrase.read phrases token) (tokens ++ [token]) ∨
      ∃ before modifier, tokens = before ++ [modifier] ∧ modifier.isSuppress = true ∧
        token.kind = .identifier ∧ WarningClass.ofName? token.text = none ∧
        Spells (Phrase.read phrases token) before := by
  unfold Phrase.read Phrase.reduce
  -- Values come first, then one case for each kind of token that is reduced.
  by_cases value : token.kind.isValue = true
  · simp only [value, if_true]
    exact .inl (spelled.addValues value)
  · simp only [value, Bool.false_eq_true, if_false]
    split
    case h_1 kind => exact .inl (spelled.readSemicolon kind)
    case h_2 kind => exact .inl (spelled.readType kind)
    case h_3 kind =>
      rcases spelled.readWord kind with kept | ⟨before, modifier, same, suppress, unknown, kept⟩
      · exact .inl kept
      · exact .inr ⟨before, modifier, same, suppress, kind, unknown, kept⟩
    case h_4 kind => exact .inl (spelled.readCloseCurly kind)
    case h_5 => exact .inl (spelled.push token)

end Spells

end Phrase

/-- Every suppression among tokens names a known class of warnings. -/
def Token.AllKnown (tokens : List Token) : Prop :=
  ∀ modifier word, [modifier, word] <:+: tokens → modifier.isSuppress = true →
    word.kind = .identifier → (WarningClass.ofName? word.text).isSome = true

/-- Tokens in front of others suppress only what all of them do. -/
theorem Token.AllKnown.front {tokens more : List Token} (known : AllKnown (tokens ++ more)) :
    AllKnown tokens := fun modifier word inside =>
  known modifier word (inside.trans (List.prefix_append tokens more).isInfix)

/-- What tokens are read as is spelled by them, apart from suppressions of unknown classes. -/
theorem Phrase.readAll_spells (tokens : List Token) :
    ∃ kept, kept.Sublist tokens ∧ (Token.AllKnown tokens → kept = tokens) ∧
      Spells (readAll [] tokens) kept := by
  induction tokens using List.reverseRecOn with
  | nil => exact ⟨[], .refl _, fun _ => rfl, .nothing⟩
  | append_singleton tokens token ih =>
    obtain ⟨kept, sublist, all, spelled⟩ := ih
    -- The last token is read when the others were.
    have step : readAll [] (tokens ++ [token]) = read (readAll [] tokens) token := by
      simp [readAll]
    rw [step]
    rcases spelled.read token with
      spelled | ⟨before, modifier, rfl, suppress, word, unknown, spelled⟩
    · exact ⟨kept ++ [token], sublist.append (.refl _),
        fun known => by rw [all known.front], spelled⟩
    · refine ⟨before, ((List.sublist_append_left before [modifier]).trans sublist).trans
        (List.sublist_append_left tokens [token]), fun known => ?_, spelled⟩
      -- The modifier and the word are neighbours, so the class would have to be known.
      have pair : [modifier, token] <:+: tokens ++ [token] :=
        ⟨before, [], by rw [← all known.front]; simp⟩
      have named := known modifier token pair suppress word
      rw [unknown] at named
      cases named

/-- Phrases that are a file are spelled by nothing or by a file. -/
theorem Phrase.Spells.items {phrases : List Phrase} {tokens : List Token} {items : List Item}
    (spelled : Spells phrases tokens) (file : items? phrases = some items) :
    (items = [] ∧ tokens = []) ∨ Grammar.File items tokens := by
  -- A file is the only phrase, or there is none.
  unfold items? at file
  split at file <;> cases file
  · -- Without phrases there are no tokens, and otherwise the file is the only phrase.
    cases spelled
    exact .inl ⟨rfl, rfl⟩
  · obtain ⟨before, last, rfl, below, derived⟩ := spelled.pop
    cases below
    cases derived with
    | file given => exact .inr given

end ArgSchema
