import ArgSchema.Parser.Reduction
import ArgSchema.Proofs.Tree.Outline
import Mathlib.Data.List.Forall2

/-! Symbols that stand for tokens and detached nodes, and what hanging them below a node leaves. -/

namespace ArgSchema

/-- What a symbol stands for: a token, or a detached node with all that hangs below it. -/
inductive Piece where
  /-- A token. -/
  | token (token : Token)
  /-- A node. -/
  | node (outline : Outline)

namespace Piece

/-- The type of a node, and nothing for a token. -/
def type? : Piece → Option NodeType
  | .token _ => none
  | .node given => some given.type

/-- What hangs below a node once the piece is attached to it. -/
def outline? : Piece → Option Outline
  | .token given => given.leaf?.map Outline.leaf
  | .node given => some given

end Piece

/-- The nodes among symbols. -/
def Symbol.ids (symbols : List Symbol) : List NodeId :=
  symbols.filterMap fun
    | .token _ => none
    | .node id => some id

/-- A token names no node. -/
@[simp] theorem Symbol.ids_token (token : Token) (symbols : List Symbol) :
    Symbol.ids (.token token :: symbols) = Symbol.ids symbols := rfl

/-- A node names itself. -/
@[simp] theorem Symbol.ids_node (id : NodeId) (symbols : List Symbol) :
    Symbol.ids (.node id :: symbols) = id :: Symbol.ids symbols := rfl

/-- No symbols name no nodes. -/
@[simp] theorem Symbol.ids_nil : Symbol.ids [] = [] := rfl

/-- The nodes of a symbol come in front of those of the symbols behind it. -/
theorem Symbol.ids_cons (symbol : Symbol) (symbols : List Symbol) :
    Symbol.ids (symbol :: symbols) = Symbol.ids [symbol] ++ Symbol.ids symbols := by
  cases symbol <;> rfl

/-- The nodes of two lists are those of the first and those of the second. -/
@[simp] theorem Symbol.ids_append (first second : List Symbol) :
    Symbol.ids (first ++ second) = Symbol.ids first ++ Symbol.ids second :=
  List.filterMap_append ..

namespace Tree

/-- A node is attached nowhere, and it draws an outline. -/
structure Stands (tree : Tree) (id : NodeId) (outline : Outline) : Prop where
  /-- The node draws the outline. -/
  draws : tree.Draws id outline
  /-- The node has no parent. -/
  detached : tree.parent? id = none

/-- A symbol is the token of a piece, or a detached node that draws it. -/
def Shows (tree : Tree) : Symbol → Piece → Prop
  | .token token, .token given => token = given
  | .node id, .node outline => tree.Stands id outline
  | _, _ => False

/-- A token shows itself. -/
theorem shows_token (tree : Tree) (given : Token) : tree.Shows (.token given) (.token given) := rfl

/-- A tree that keeps what stands in another, apart from nodes that were used. -/
structure Keeps (before after : Tree) (used : List NodeId) : Prop where
  /-- The later tree is well formed. -/
  forest : after.Forest
  /-- The root stays. -/
  root : after.root? = before.root?
  /-- Detached nodes that were not used still stand. -/
  stands : ∀ {id outline}, id ∉ used → before.Stands id outline → after.Stands id outline

variable {tree : Tree}

/-- What stands is a live node without parent, whose contents and children are drawn. -/
theorem Stands.get? {id : NodeId} {kind : NodeKind} {below : List Outline}
    (stands : tree.Stands id (.node kind below)) :
    ∃ node, tree.get? id = some node ∧ node.kind = kind ∧ node.parent? = none ∧
      node.children.length = below.length := by
  obtain ⟨node, found, same, children⟩ := stands.draws.get?
  -- The outline says nothing about the parent, but the node has none.
  have detached := stands.detached
  simp only [parent?, found, Option.bind_some] at detached
  exact ⟨node, found, same, detached, children.length⟩

/-- A node that stands is live. -/
theorem Stands.live {id : NodeId} {outline : Outline} (stands : tree.Stands id outline) :
    ∃ node, tree.get? id = some node ∧ node.kind = outline.kind ∧ node.parent? = none := by
  obtain ⟨kind, below⟩ := outline
  obtain ⟨node, found, same, detached, _⟩ := stands.get?
  exact ⟨node, found, same, detached⟩

/-- The next node to be made stands nowhere yet. -/
theorem Stands.ne_nextId {id : NodeId} {outline : Outline} (stands : tree.Stands id outline) :
    id ≠ tree.nextId := by
  obtain ⟨node, found, _⟩ := stands.live
  exact Tree.ne_nextId found

/-- The type of a node that stands. -/
theorem Stands.isOfType {id : NodeId} {outline : Outline} (stands : tree.Stands id outline)
    (types : NodeTypes) : tree.isOfType types id = decide (outline.type ∈ types) := by
  obtain ⟨node, found, same, _⟩ := stands.live
  rw [isOfType_of_get? found, Node.type, same, Outline.type]

namespace Keeps

/-- What two changes keep. -/
theorem trans {middle after : Tree} {used more : List NodeId} (first : Keeps tree middle used)
    (second : Keeps middle after more) : Keeps tree after (used ++ more) := by
  refine ⟨second.forest, second.root.trans first.root, fun unused stands => ?_⟩
  -- What was used in neither change is kept by both.
  simp only [List.mem_append, not_or] at unused
  exact second.stands unused.2 (first.stands unused.1 stands)

/-- Making a node uses no other. -/
theorem alloc (forest : tree.Forest) (kind : NodeKind) (span : Span) :
    Keeps tree (tree.alloc kind span) [] := by
  -- A new node has an identifier of its own, so what stood detached stands so still.
  refine ⟨forest.alloc kind span, rfl, fun {id outline} _ stands => ?_⟩
  obtain ⟨node, found, _, detached⟩ := stands.live
  exact ⟨stands.draws.alloc forest kind span,
    by simp [parent?, get?_alloc_of_get? kind span found, detached]⟩

/-- Changing places of nodes uses none. -/
theorem modify (forest : tree.Forest) (id : NodeId) {f : Node → Node}
    (links : ∀ node, (f node).links = node.links)
    (contents : ∀ node, (f node).contents = node.contents) :
    Keeps tree (tree.modify id f) [] := by
  refine ⟨forest.congr (.modify tree id links), rfl, fun {other outline} _ stands => ?_⟩
  refine ⟨stands.draws.modify forest id contents, ?_⟩
  obtain ⟨node, found, _, detached⟩ := stands.live
  -- The links of a node are as they were, and so is its parent.
  have same := links node
  simp only [Node.links, Prod.mk.injEq] at same
  simp only [parent?, get?_modify, found]
  split <;> simp [same.2.1, detached]

end Keeps

/-- A new node stands alone. -/
theorem stands_alloc (tree : Tree) (kind : NodeKind) (span : Span) :
    (tree.alloc kind span).Stands tree.nextId (.leaf kind) :=
  ⟨draws_alloc tree kind span, by simp [parent?]⟩

/-- Stretching a node's place changes neither links nor contents. -/
theorem keeps_widen (forest : tree.Forest) (id : NodeId) (span : Span) :
    Keeps tree (tree.widen id span) [] :=
  Keeps.modify forest id (fun _ => rfl) (fun _ => rfl)

/-- A detached node can be hung below one that accepts it and has room, which uses both. -/
theorem addChild_stands (forest : tree.Forest) {parent child : NodeId} {kind : NodeKind}
    {below : List Outline} {outline : Outline} (upper : tree.Stands parent (.node kind below))
    (lower : tree.Stands child outline) (accepted : outline.type ∈ kind.type.whitelist)
    (room : ∀ max, kind.type.maxChildren? = some max → below.length < max) :
    ∃ after, tree.addChild parent child = .ok after ∧ Keeps tree after [parent, child] ∧
      after.Stands parent (.node kind (below ++ [outline])) := by
  obtain ⟨above, found, same, top, length⟩ := upper.get?
  obtain ⟨given, located, alike, detached⟩ := lower.live
  -- What is asked of the outlines is what the tree asks of the nodes.
  have fits : given.type ∈ above.type.whitelist := by
    simpa [Node.type, Outline.type, same, alike] using accepted
  have space : ∀ max, above.type.maxChildren? = some max → above.children.length < max := by
    intro max limited
    rw [length]
    exact room max (by simpa [Node.type, same] using limited)
  -- No other node gets a parent.
  have apart := Forest.ne_of_accepted found located fits
  have linked : ∀ {id node}, tree.get? id = some node → node.parent? = none → id ≠ child →
      (tree.link parent child).parent? id = none := by
    intro id node live alone other
    simp only [parent?, get?_link apart, live, if_neg other]
    split <;> simp [alone]
  refine ⟨tree.link parent child, addChild_eq_link found located detached fits space,
    ⟨forest.link found located detached fits space, rfl, ?_⟩, ?_, linked found top apart⟩
  · -- Other detached nodes keep what hangs below them.
    intro id drawn unused stands
    simp only [List.mem_cons, List.not_mem_nil, or_false, not_or] at unused
    obtain ⟨node, live, _, alone⟩ := stands.live
    exact ⟨stands.draws.link_other forest found top apart unused.1, linked live alone unused.2⟩
  · exact upper.draws.link forest found top apart lower.draws

/-- Attaching a piece adds what it stands for to the children of a node. -/
theorem attach_stands (forest : tree.Forest) {parent : NodeId} {kind : NodeKind}
    {below : List Outline} {symbol : Symbol} {piece : Piece}
    (upper : tree.Stands parent (.node kind below)) (shown : tree.Shows symbol piece)
    (accepted : ∀ outline ∈ piece.outline?, outline.type ∈ kind.type.whitelist)
    (room : ∀ max, kind.type.maxChildren? = some max →
      below.length + piece.outline?.toList.length ≤ max) :
    ∃ after, tree.attach parent symbol = .ok after ∧
      Keeps tree after (parent :: Symbol.ids [symbol]) ∧
      after.Stands parent (.node kind (below ++ piece.outline?.toList)) := by
  match symbol, piece, shown with
  -- A node is hung below the other as it is.
  | .node child, .node outline, shown =>
    refine addChild_stands forest upper shown (accepted outline rfl) (fun max limited => ?_)
    have := room max limited
    simp only [Piece.outline?, Option.toList_some, List.length_singleton] at this
    omega
  | .token token, .token _, rfl =>
    cases leaf : token.leaf? with
    -- A token that stands for nothing leaves everything as it is.
    | none =>
      refine ⟨tree, by simp [attach, leaf], ?_, by simpa [Piece.outline?, leaf] using upper⟩
      exact ⟨forest, rfl, fun _ stands => stands⟩
    | some contents =>
      -- The leaf is made first and hung below the node then.
      have made := Keeps.alloc forest contents token.span
      have grown := addChild_stands made.forest (made.stands (by simp) upper)
        (stands_alloc tree contents token.span) (accepted _ (by simp [Piece.outline?, leaf]))
        (fun max limited => by
          have := room max limited
          simp only [Piece.outline?, leaf, Option.map_some, Option.toList_some,
            List.length_singleton] at this
          omega)
      obtain ⟨after, linked, kept, stands⟩ := grown
      refine ⟨after, by simp [attach, leaf, linked], ⟨kept.forest, kept.root, ?_⟩,
        by simpa [Piece.outline?, leaf] using stands⟩
      -- The leaf is new, so no node that stands is used for it.
      intro id outline unused given
      refine kept.stands ?_ (made.stands (by simp) given)
      have fresh := given.ne_nextId
      simp only [Symbol.ids_token, Symbol.ids_nil, List.mem_cons, List.not_mem_nil, or_false] at unused
      simp [unused, fresh]

/-- Symbols that are not used show the same pieces afterwards. -/
theorem Keeps.shows {after : Tree} {used : List NodeId} (kept : Keeps tree after used)
    {symbol : Symbol} {piece : Piece} (unused : ∀ id ∈ Symbol.ids [symbol], id ∉ used)
    (shown : tree.Shows symbol piece) : after.Shows symbol piece := by
  match symbol, piece, shown with
  -- A token does not depend on the tree.
  | .token _, .token _, shown => exact shown
  | .node id, .node _, shown => exact kept.stands (unused id (by simp)) shown

/-- Lists of symbols that are not used show the same pieces afterwards. -/
theorem Keeps.showsAll {after : Tree} {used : List NodeId} (kept : Keeps tree after used)
    {symbols : List Symbol} {pieces : List Piece} (unused : ∀ id ∈ Symbol.ids symbols, id ∉ used)
    (shown : List.Forall₂ tree.Shows symbols pieces) :
    List.Forall₂ after.Shows symbols pieces := by
  -- By induction on the stack; no symbol of it was used.
  induction shown with
  | nil => exact .nil
  | @cons symbol piece symbols pieces head tail ih =>
    rw [Symbol.ids_cons] at unused
    simp only [List.mem_append] at unused
    exact .cons (kept.shows (fun id member => unused id (.inl member)) head)
      (ih fun id member => unused id (.inr member))

/-- Attaching pieces adds what they stand for, in order, to the children of a node. -/
theorem attachAll_stands (forest : tree.Forest) {parent : NodeId} {kind : NodeKind}
    {below : List Outline} {symbols : List Symbol} {pieces : List Piece}
    (upper : tree.Stands parent (.node kind below))
    (shown : List.Forall₂ tree.Shows symbols pieces)
    (once : (parent :: Symbol.ids symbols).Nodup)
    (accepted : ∀ piece ∈ pieces, ∀ outline ∈ piece.outline?, outline.type ∈ kind.type.whitelist)
    (room : ∀ max, kind.type.maxChildren? = some max →
      below.length + (pieces.filterMap Piece.outline?).length ≤ max) :
    ∃ after, tree.attachAll parent symbols = .ok after ∧
      Keeps tree after (parent :: Symbol.ids symbols) ∧
      after.Stands parent (.node kind (below ++ pieces.filterMap Piece.outline?)) := by
  -- Each piece is attached to what the pieces before it have left.
  induction symbols generalizing tree pieces below with
  | nil =>
    cases shown
    exact ⟨tree, rfl, ⟨forest, rfl, fun _ stands => stands⟩, by simpa using upper⟩
  | cons symbol symbols ih =>
    cases shown with | @cons _ piece _ pieces head tail =>
    rw [Symbol.ids_cons, ← List.cons_append, List.nodup_append] at once
    obtain ⟨front, rest, separate⟩ := once
    have split : (piece :: pieces).filterMap Piece.outline? =
        piece.outline?.toList ++ pieces.filterMap Piece.outline? := by
      cases given : piece.outline? <;> simp [given]
    obtain ⟨middle, attached, kept, stands⟩ := attach_stands forest upper head
      (accepted piece (by simp)) (fun max limited => by
        have := room max limited
        rw [split, List.length_append] at this
        omega)
    -- Symbols further up name none of the nodes that are used for this one.
    have apart : ∀ id ∈ Symbol.ids symbols, id ∉ parent :: Symbol.ids [symbol] :=
      fun id member used => separate id used id member rfl
    obtain ⟨after, done, kept', stands'⟩ := ih kept.forest stands (kept.showsAll apart tail)
      (List.nodup_cons.mpr ⟨fun member => apart parent member (by simp), rest⟩)
      (fun piece member => accepted piece (by simp [member])) (fun max limited => by
        have := room max limited
        rw [split, List.length_append] at this
        rw [List.length_append]
        omega)
    refine ⟨after, ?_, ?_, by rw [split, ← List.append_assoc]; exact stands'⟩
    · simp only [attachAll, List.foldlM_cons, attached]
      exact done
    · -- Both the nodes that are used first and those that are used then are among the symbols.
      have whole := kept.trans kept'
      refine ⟨whole.forest, whole.root, fun unused => whole.stands ?_⟩
      rw [Symbol.ids_cons] at unused
      simp only [List.mem_cons, List.mem_append, not_or] at unused ⊢
      exact ⟨⟨unused.1, unused.2.1⟩, unused.1, unused.2.2⟩

end Tree

end ArgSchema
