import ArgSchema.Proofs.Parser.Stacked

/-! The parser's reductions never fail, and they do to a stack what phrases tell. -/

namespace ArgSchema

namespace Parser

/-- The parser's stack shows phrases. -/
def Shows (parser : Parser) (phrases : List Phrase) : Prop :=
  Stacked parser.tree parser.stack.symbols phrases

/-- A step of the parser succeeds and leaves a stack that shows phrases. -/
def Yields (step : Except TreeError Parser) (phrases : List Phrase) : Prop :=
  ∃ next, step = .ok next ∧ next.Shows phrases

variable {parser : Parser} {tree : Tree} {below : List Symbol} {phrases : List Phrase}

section Collect

variable {list : NodeKind} {symbol : Symbol} {piece : Piece} {grown : Phrase}

/-- A piece that a list accepts goes to the end of the list in front of it. -/
theorem collect_onto {top : Phrase} {before : List Outline}
    (stacked : Stacked tree below (top :: phrases)) (shown : tree.Shows symbol piece)
    (apart : ∀ id ∈ Symbol.ids [symbol], id ∉ Symbol.ids below) (span : Span)
    (is : top.piece = .node (.node list before))
    (accepted : ∀ outline ∈ piece.outline?, outline.type ∈ list.type.whitelist)
    (room : list.type.maxChildren? = none)
    (same : grown.piece = .node (.node list (before ++ piece.outline?.toList))) :
    Yields (parser.collect tree list below symbol span) (grown :: phrases) := by
  cases below with
  | nil => cases stacked.nil
  | cons first below =>
    have typed := stacked.head.node? list.type
    rw [is] at typed
    simp only [Piece.type?, Outline.type, Outline.kind, decide_true] at typed
    obtain ⟨id, named⟩ := Option.isSome_iff_exists.mp typed
    obtain rfl := Tree.eq_of_node? named
    have stands : tree.Stands id (.node list before) := by
      have head := stacked.head
      rw [is] at head
      exact head
    -- The list is stretched first, which changes none of its links.
    have wide := Tree.keeps_widen stacked.forest id span
    obtain ⟨after, attached, kept, held⟩ := Tree.attach_stands wide.forest
      (wide.stands (by simp) stands) (wide.shows (by simp) shown) accepted (by simp [room])
    refine ⟨parser.set after (.node id :: below), ?_, ?_⟩
    · simp only [collect, List.head?_cons, Option.bind_some, named, attached]
      rfl
    · refine ((stacked.tail.keep wide (by simp)).keep kept ?_).node held stacked.fresh same
      intro other member used
      rcases List.mem_cons.mp used with rfl | used
      · exact stacked.fresh member
      · exact apart other used (by simp [member])

/-- A piece that a list accepts begins a new list if there is none in front of it. -/
theorem collect_new (stacked : Stacked tree below phrases) (shown : tree.Shows symbol piece)
    (apart : ∀ id ∈ Symbol.ids [symbol], id ∉ Symbol.ids below)
    (span : Span)
    (other : ∀ top ∈ phrases.head?, top.piece.type? ≠ some list.type)
    (accepted : ∀ outline ∈ piece.outline?, outline.type ∈ list.type.whitelist)
    (room : list.type.maxChildren? = none)
    (same : grown.piece = .node (.node list piece.outline?.toList)) :
    Yields (parser.collect tree list below symbol span) (grown :: phrases) := by
  have none : below.head?.bind (Symbol.node? tree list.type) = none := by
    cases below with
    | nil => rfl
    | cons first below =>
      obtain ⟨top, rest, rfl⟩ := stacked.uncons
      have typed := stacked.head.node? list.type
      simpa [other top (by simp)] using typed
  -- The list is made first and takes the piece then.
  have made := Tree.Keeps.alloc stacked.forest list span
  obtain ⟨after, attached, kept, held⟩ := Tree.attach_stands made.forest
    (Tree.stands_alloc tree list span) (made.shows (by simp) shown) accepted (by simp [room])
  refine ⟨parser.set after (.node tree.nextId :: below), ?_, ?_⟩
  · simp only [collect, none, attached]
    rfl
  · refine ((stacked.keep made (by simp)).keep kept ?_).node held stacked.nextId
      (by simpa using same)
    intro id member used
    rcases List.mem_cons.mp used with rfl | used
    · exact stacked.nextId member
    · exact apart id used member

end Collect

/-- A value goes to the values of its property. -/
theorem readValue_yields (stacked : Stacked parser.tree below phrases) (value : Token)
    (isValue : value.kind.isValue = true) :
    Yields (parser.readValue value below) (Phrase.addValues value.leaf?.toList phrases) := by
  have accepted : ∀ outline ∈ (Phrase.token value).piece.outline?,
      outline.type ∈ NodeType.values.whitelist := by
    unfold TokenKind.isValue at isValue
    unfold Phrase.piece Piece.outline? Token.leaf?
    split at isValue <;>
      simp_all [Outline.leaf, Outline.type, Outline.kind, NodeKind.type, NodeType.whitelist,
        NodeTypes.valueKinds]
  unfold Phrase.addValues
  split
  -- Values that were begun take one more.
  case h_1 before rest =>
    refine collect_onto stacked (Tree.shows_token _ value) (by simp) value.span rfl accepted rfl ?_
    simp only [Phrase.piece, Piece.outline?, valuesOutline, List.map_append]
    cases value.leaf? <;> rfl
  -- A new list of values is made for it.
  case h_2 other =>
    refine collect_new stacked (Tree.shows_token _ value) (by simp) value.span ?_ accepted rfl ?_
    · intro top member typed
      obtain ⟨rest, rfl⟩ := List.head?_eq_some_iff.mp member
      obtain ⟨given, rfl⟩ := Phrase.of_type? typed
      exact other given rest rfl
    · simp only [Phrase.piece, Piece.outline?, valuesOutline]
      cases value.leaf? <;> rfl

/-- A step that changes nothing keeps what a stack shows. -/
theorem yields_of_shows (shows : parser.Shows phrases) : Yields (.ok parser) phrases :=
  ⟨parser, rfl, shows⟩

/-- A symbol takes types behind it when its phrase does. -/
theorem takesTypes_eq {symbol : Symbol} {phrase : Phrase} (shown : tree.Shows symbol phrase.piece) :
    ((symbol.node? tree .types).isSome || beginsTypes symbol) = phrase.takesTypes := by
  rw [shown.node?]
  -- Tokens are looked at by their kind, nodes by their type.
  cases symbol with
  | token given =>
    cases phrase with
    | token => cases shown; simp [Phrase.piece, Piece.type?, beginsTypes, Phrase.takesTypes]
    | _ => cases shown
  | node id =>
    cases phrase with
    | token => cases shown
    | types names => rfl
    | values | configs | file => rfl
    | item item =>
      cases item with
      | suppress => rfl
      | definition given =>
        obtain ⟨⟨form, names, types⟩, body⟩ := given
        cases form <;> rfl

/-- A stack takes types on top of it when its phrases do. -/
theorem takesTypes_of_stacked (stacked : Stacked tree below phrases) :
    ((below.head?.bind (Symbol.node? tree .types)).isSome || below.head?.any beginsTypes) =
      phrases.head?.any Phrase.takesTypes := by
  -- The symbol on top shows the phrase on top.
  cases below with
  | nil => rw [stacked.nil]; rfl
  | cons first below =>
    obtain ⟨top, rest, rfl⟩ := stacked.uncons
    exact takesTypes_eq stacked.head

/-- A type's name goes to a type list, or stays as it is. -/
theorem readType_yields (shows : parser.Shows (.token type :: phrases))
    (top : parser.stack.symbols = .token type :: below) (kind : type.kind = .type) :
    Yields (parser.readType type below) (Phrase.readType type phrases) := by
  have stacked : Stacked parser.tree (.token type :: below) (.token type :: phrases) := top ▸ shows
  -- The parser asks the stack what the phrases tell about a type list.
  unfold readType Phrase.readType
  simp only [takesTypes_of_stacked stacked.tail]
  split
  · have leaf : type.leaf? = some (.identifier type.text .type) := by simp [Token.leaf?, kind]
    have accepted : ∀ outline ∈ (Phrase.token type).piece.outline?,
        outline.type ∈ NodeType.types.whitelist := by
      simp [Phrase.piece, Piece.outline?, leaf, Outline.leaf, Outline.type, Outline.kind,
        NodeKind.type, NodeType.whitelist]
    unfold Phrase.addType
    split
    -- A list that was begun takes the name.
    case h_1 before rest =>
      refine collect_onto stacked.tail stacked.head (by simp) type.span rfl accepted rfl ?_
      simp [Phrase.piece, Piece.outline?, typesOutline, leaf, Label.outline]
    -- A new list is made for it.
    case h_2 other =>
      refine collect_new stacked.tail stacked.head (by simp) type.span ?_ accepted rfl ?_
      · intro top member typed
        obtain ⟨rest, rfl⟩ := List.head?_eq_some_iff.mp member
        obtain ⟨given, rfl⟩ := Phrase.of_type? typed
        exact other given rest rfl
      · simp [Phrase.piece, Piece.outline?, typesOutline, leaf, Label.outline]
  · exact yields_of_shows shows

/-- An item goes to the file in front of it, or stays as it is behind something open. -/
theorem place_yields (parser : Parser) {id : NodeId} {item : Item}
    (stacked : Stacked tree (.node id :: below) (.item item :: phrases)) (span : Span) :
    Yields (parser.place tree below id span) (Phrase.addItem item phrases) := by
  have accepted : ∀ outline ∈ (Phrase.item item).piece.outline?,
      outline.type ∈ NodeType.file.whitelist := by
    rintro _ ⟨⟩
    exact Phrase.item_accepted item
  unfold Phrase.addItem
  split
  -- With nothing below it the item starts a file.
  case h_1 =>
    cases stacked.tail.shown
    exact collect_new stacked.tail stacked.head stacked.apart span (by simp) accepted rfl rfl
  -- A file below it takes the item.
  case h_2 before rest =>
    cases below with
    | nil => cases stacked.tail.shown
    | cons first below =>
      have typed := stacked.tail.head.node? .file
      have file : (Symbol.node? tree .file first).isSome = true := typed
      simp only [place, List.head?_cons, Option.bind_some, file, Bool.or_true, if_true]
      refine collect_onto stacked.tail stacked.head stacked.apart span rfl accepted rfl ?_
      simp [Phrase.piece, Piece.outline?, fileOutline]
  -- Anything else below it is still open, and the item stays.
  case h_3 nonempty other =>
    cases below with
    | nil =>
      cases phrases with
      | nil => exact absurd rfl nonempty
      | cons => cases stacked.tail.shown
    | cons first below =>
      obtain ⟨top, rest, rfl⟩ := stacked.tail.uncons
      have typed := stacked.tail.head.node? .file
      have open_ : (Symbol.node? tree .file first).isSome = false := by
        rw [typed, decide_eq_false_iff_not]
        intro file
        obtain ⟨items, rfl⟩ := Phrase.of_type? file
        exact other items rest rfl
      simp only [place, List.isEmpty_cons, List.head?_cons, Option.bind_some, open_, Bool.or_self,
        Bool.false_eq_true, if_false]
      exact ⟨_, rfl, stacked⟩

/-- A word carries out the suppression in front of it, or stays as it is. -/
theorem readWord_yields {word : Token} (shows : parser.Shows (.token word :: phrases))
    (top : parser.stack.symbols = .token word :: below) :
    Yields (parser.readWord word below) (Phrase.readWord word phrases) := by
  -- Only a suppression takes the word, and it is a token on both sides.
  have stacked : Stacked parser.tree (.token word :: below) (.token word :: phrases) := top ▸ shows
  have same := yields_of_shows shows
  cases below with
  | nil =>
    rw [stacked.tail.nil] at same ⊢
    exact same
  | cons first rest =>
    obtain ⟨phrase, others, rfl⟩ := stacked.tail.uncons
    have shown := stacked.tail.head
    cases first with
    -- A node below takes no word.
    | node id =>
      cases phrase with
      | token => cases shown
      | _ => exact same
    | token modifier =>
      cases phrase with
      | token given =>
        cases shown
        -- The test is the same on both sides.
        have pair : (decide (modifier.kind = .modifier) && decide (modifier.text = "suppress")) =
            modifier.isSuppress := rfl
        simp only [readWord, Phrase.readWord, pair]
        cases modifier.isSuppress with
        | false => exact same
        | true =>
          cases known : WarningClass.ofName? word.text with
          | none => exact ⟨_, rfl, stacked.tail.tail⟩
          | some kind =>
            -- The suppression is a node of its own before it is placed.
            have made := Tree.Keeps.alloc stacked.forest (.suppress kind)
              (modifier.span.through word.span)
            refine place_yields _ ?_ _
            exact (stacked.tail.tail.keep made (by simp)).node
              (Tree.stands_alloc parser.tree _ _) stacked.tail.tail.nextId rfl
      | _ => cases shown

end Parser

end ArgSchema
