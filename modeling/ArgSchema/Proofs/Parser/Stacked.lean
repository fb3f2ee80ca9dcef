import ArgSchema.Proofs.Parser.Heading

/-! Stacks that show phrases, and the steps that make nodes of them. -/

namespace ArgSchema

namespace Phrase

/-- An item of a file is accepted by the file. -/
theorem item_accepted (item : Item) : item.outline.type ∈ NodeTypes.toplevel := by
  -- An item is a suppression or a definition, and a file takes both.
  cases item with
  | suppress kind =>
    simp [Item.outline, Outline.leaf, Outline.type, Outline.kind, NodeKind.type, NodeTypes.toplevel]
  | definition given =>
    have defined := given.heading.form.type_mem_definitions
    exact NodeTypes.mem_union.mpr (.inl defined)

/-- The type of a phrase's node tells what the phrase is. -/
theorem of_type? {phrase : Phrase} {type : NodeType} (typed : phrase.piece.type? = some type) :
    match type with
    | .values => ∃ given, phrase = .values given
    | .types => ∃ names, phrase = .types names
    | .configs => ∃ statements, phrase = .configs statements
    | .file => ∃ items, phrase = .file items
    | .suppress => ∃ kind, phrase = .item (.suppress kind)
    | _ => ∃ given, phrase = .item (.definition given) := by
  cases phrase with
  | token given => cases typed
  -- The type decides between the phrases, and for items between what they are.
  | values given | types given | configs given | file given => cases typed; exact ⟨given, rfl⟩
  | item item =>
    cases item with
    | suppress kind => cases typed; exact ⟨kind, rfl⟩
    | definition given =>
      obtain ⟨⟨form, names, types⟩, body⟩ := given
      cases form <;> cases typed <;> exact ⟨_, rfl⟩

end Phrase

/-- The symbols of a stack show phrases in a well-formed tree without root. -/
structure Stacked (tree : Tree) (symbols : List Symbol) (phrases : List Phrase) : Prop where
  /-- The tree is well formed. -/
  forest : tree.Forest
  /-- The tree has no root yet. -/
  rootless : tree.root? = none
  /-- Each symbol shows its phrase. -/
  shown : List.Forall₂ tree.Shows symbols (phrases.map Phrase.piece)
  /-- No node is on the stack twice. -/
  once : (Symbol.ids symbols).Nodup

namespace Tree

variable {tree : Tree}

/-- Nodes among symbols that show pieces are live and have no parent. -/
theorem live_of_shows {symbols : List Symbol} {pieces : List Piece}
    (shown : List.Forall₂ tree.Shows symbols pieces) :
    ∀ id ∈ Symbol.ids symbols, ∃ node, tree.get? id = some node ∧ node.parent? = none := by
  induction shown with
  | nil => simp
  | @cons symbol piece symbols pieces head tail ih =>
    intro id member
    -- Tokens have no node; a node that shows an outline is live.
    match symbol, piece, head with
    | .token _, .token _, _ => exact ih id (by simpa using member)
    | .node first, .node outline, head =>
      rcases List.mem_cons.mp (by simpa using member) with rfl | rest
      · obtain ⟨node, found, -, detached⟩ := head.live
        exact ⟨node, found, detached⟩
      · exact ih id rest

/-- A node that shows a piece is of the piece's type. -/
theorem Shows.isOfType {id : NodeId} {piece : Piece} (shown : tree.Shows (.node id) piece)
    (type : NodeType) : tree.isOfType (.only type) id = decide (piece.type? = some type) := by
  -- A node shows an outline, which has its type.
  cases piece with
  | token => cases shown
  | node outline =>
    have standing : tree.Stands id outline := shown
    simp [standing.isOfType, Piece.type?]

/-- A symbol that shows a piece is a node of some type when the piece is. -/
theorem Shows.node? {symbol : Symbol} {piece : Piece} (shown : tree.Shows symbol piece)
    (type : NodeType) : (symbol.node? tree type).isSome = decide (piece.type? = some type) := by
  -- A token is no node, and a node is asked for its type.
  cases symbol with
  | token given =>
    cases piece with
    | token => simp [Symbol.node?, Piece.type?]
    | node => cases shown
  | node id =>
    simp only [Symbol.node?, shown.isOfType]
    by_cases same : piece.type? = some type <;> simp [same]

/-- A symbol of some type is the node that it names. -/
theorem eq_of_node? {symbol : Symbol} {type : NodeType} {id : NodeId}
    (named : symbol.node? tree type = some id) : symbol = .node id := by
  -- Only a node answers, and with its own handle.
  cases symbol with
  | token => cases named
  | node given =>
    simp only [Symbol.node?] at named
    split at named <;> simp_all

/-- A symbol is the part of a header that its phrase is. -/
theorem Shows.part {symbol : Symbol} {phrase : Phrase} (shown : tree.Shows symbol phrase.piece) :
    HeaderPart.ofSymbol tree symbol = phrase.part := by
  cases symbol with
  | token given =>
    cases phrase with
    | token => cases shown; rfl
    | _ => cases shown
  | node id =>
    simp only [HeaderPart.ofSymbol, shown.isOfType]
    -- Of all nodes only lists of types are a part of their own.
    by_cases types : phrase.piece.type? = some .types
    · obtain ⟨names, rfl⟩ := Phrase.of_type? types
      rfl
    · simp only [types, decide_false, Bool.false_eq_true, if_false]
      cases phrase with
      | token => cases shown
      | types => exact absurd rfl types
      | _ => rfl

end Tree

namespace Stacked

variable {tree : Tree} {symbols below : List Symbol} {symbol : Symbol} {phrase : Phrase}
  {phrases : List Phrase}

/-- An empty stack shows nothing. -/
theorem empty : Stacked Tree.empty [] [] := ⟨.empty, rfl, .nil, List.nodup_nil⟩

/-- The parts of a stack without its top. -/
theorem tail (stacked : Stacked tree (symbol :: below) (phrase :: phrases)) :
    Stacked tree below phrases := by
  -- The handles below are among all handles, so they differ as well.
  have once := stacked.once
  rw [Symbol.ids_cons] at once
  exact ⟨stacked.forest, stacked.rootless, (List.forall₂_cons.mp stacked.shown).2,
    (List.nodup_append.mp once).2.1⟩

/-- The top of a stack shows its phrase. -/
theorem head (stacked : Stacked tree (symbol :: below) (phrase :: phrases)) :
    tree.Shows symbol phrase.piece :=
  (List.forall₂_cons.mp stacked.shown).1

/-- The node on top of a stack is not below it. -/
theorem fresh {id : NodeId} (stacked : Stacked tree (.node id :: below) (phrase :: phrases)) :
    id ∉ Symbol.ids below :=
  (List.nodup_cons.mp stacked.once).1

/-- The top of a stack names no node below it. -/
theorem apart (stacked : Stacked tree (symbol :: below) (phrase :: phrases)) :
    ∀ id ∈ Symbol.ids [symbol], id ∉ Symbol.ids below := by
  -- No node is named twice on a stack.
  have once := stacked.once
  rw [Symbol.ids_cons, List.nodup_append] at once
  exact fun id top member => once.2.2 id top id member rfl

/-- A stack that has a top shows a phrase there. -/
theorem uncons (stacked : Stacked tree (symbol :: below) phrases) :
    ∃ phrase rest, phrases = phrase :: rest := by
  -- Without a phrase the stack would show nothing, and it has a symbol.
  cases phrases with
  | nil => cases stacked.shown
  | cons phrase rest => exact ⟨phrase, rest, rfl⟩

/-- An empty stack shows no phrases. -/
theorem nil (stacked : Stacked tree [] phrases) : phrases = [] := by
  -- A phrase is shown by a symbol, and there is none.
  cases phrases with
  | nil => rfl
  | cons => cases stacked.shown

/-- A token among phrases is that token on the stack. -/
theorem exists_token {given : Token} (stacked : Stacked tree symbols (.token given :: phrases)) :
    ∃ below, symbols = .token given :: below := by
  cases symbols with
  | nil => cases stacked.nil
  | cons symbol below =>
    cases symbol with
    -- A node does not show a token.
    | node => cases stacked.head
    | token =>
      cases stacked.head
      exact ⟨below, rfl⟩

/-- A phrase that is made of others is a node on the stack. -/
theorem exists_node {outline : Outline} (stacked : Stacked tree symbols (phrase :: phrases))
    (made : phrase.piece = .node outline) :
    ∃ id below, symbols = .node id :: below ∧ tree.Stands id outline := by
  cases symbols with
  | nil => cases stacked.nil
  | cons symbol below =>
    -- A symbol shows a node only if it is one.
    have shown := stacked.head
    rw [made] at shown
    cases symbol with
    | token => cases shown
    | node id => exact ⟨id, below, rfl, shown⟩

/-- A token can be put on a stack. -/
theorem token (stacked : Stacked tree symbols phrases) (given : Token) :
    Stacked tree (.token given :: symbols) (.token given :: phrases) :=
  ⟨stacked.forest, stacked.rootless, .cons rfl stacked.shown, stacked.once⟩

/-- A node that stands can be put on a stack. -/
theorem node (stacked : Stacked tree symbols phrases) {id : NodeId} {outline : Outline}
    (stands : tree.Stands id outline) (fresh : id ∉ Symbol.ids symbols)
    (same : phrase.piece = .node outline) :
    Stacked tree (.node id :: symbols) (phrase :: phrases) := by
  -- The new handle is not among those below it.
  refine ⟨stacked.forest, stacked.rootless, .cons ?_ stacked.shown,
    List.nodup_cons.mpr ⟨fresh, stacked.once⟩⟩
  rw [same]
  exact stands

/-- A stack shows the same after a change that uses none of its nodes. -/
theorem keep (stacked : Stacked tree symbols phrases) {after : Tree} {used : List NodeId}
    (kept : tree.Keeps after used) (unused : ∀ id ∈ Symbol.ids symbols, id ∉ used) :
    Stacked after symbols phrases :=
  ⟨kept.forest, kept.root.trans stacked.rootless, kept.showsAll unused stacked.shown, stacked.once⟩

/-- A new node is none of a stack. -/
theorem nextId (stacked : Stacked tree symbols phrases) : tree.nextId ∉ Symbol.ids symbols := by
  -- The nodes of a stack are live, and the next identifier names none that is.
  intro member
  obtain ⟨node, found, -⟩ := Tree.live_of_shows stacked.shown _ member
  exact Tree.ne_nextId found rfl

/-- The symbols in front of others show the phrases in front of theirs. -/
theorem split {front : List Symbol} {used : List Phrase}
    (stacked : Stacked tree (front ++ below) (used ++ phrases)) (length : front.length = used.length) :
    List.Forall₂ tree.Shows front (used.map Phrase.piece) ∧ Stacked tree below phrases ∧
      (Symbol.ids front).Nodup ∧ ∀ id ∈ Symbol.ids front, id ∉ Symbol.ids below := by
  have once := stacked.once
  rw [Symbol.ids_append, List.nodup_append] at once
  obtain ⟨front', below', separate⟩ := once
  have shown := stacked.shown
  rw [List.map_append] at shown
  -- Both lists are cut at the same place.
  have first := List.forall₂_take (used.map Phrase.piece).length shown
  have second := List.forall₂_drop (used.map Phrase.piece).length shown
  rw [List.take_left' (by simpa using length), List.take_left] at first
  rw [List.drop_left' (by simpa using length), List.drop_left] at second
  exact ⟨first, ⟨stacked.forest, stacked.rootless, second, below'⟩, front',
    fun id member other => separate id member id other rfl⟩

end Stacked

end ArgSchema
