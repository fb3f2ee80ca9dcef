import ArgSchema.Proofs.Tree.NodeTypes
import ArgSchema.Tree.Basic

/-! What handles name after each operation of a tree. -/

namespace ArgSchema

/-- Handles are equal when their indices are. -/
theorem NodeId.ext {a b : NodeId} (same : a.index = b.index) : a = b := by
  cases a
  cases b
  simp_all

namespace Tree

/-- An empty tree has no live nodes. -/
@[simp] theorem get?_empty (id : NodeId) : empty.get? id = none := by
  simp [get?, empty]

/-- The next handle names nothing yet. -/
@[simp] theorem get?_nextId (tree : Tree) : tree.get? tree.nextId = none := by
  simp [get?, nextId]

/-- A live node has a handle in front of the next one. -/
theorem index_lt_of_get? {tree : Tree} {id : NodeId} {node : Node}
    (found : tree.get? id = some node) : id.index < tree.nodes.size := by
  -- Behind the last node there is nothing to find.
  rcases Nat.lt_or_ge id.index tree.nodes.size with inside | outside
  · exact inside
  · simp [get?, Array.getElem?_eq_none outside] at found

/-- A live node is not the one that is made next. -/
theorem ne_nextId {tree : Tree} {id : NodeId} {node : Node}
    (found : tree.get? id = some node) : id ≠ tree.nextId := by
  rintro rfl
  simp at found

/-- A new node is found at its handle, and all others stay what they were. -/
theorem get?_alloc (tree : Tree) (kind : NodeKind) (span : Span) (id : NodeId) :
    (tree.alloc kind span).get? id =
      if id = tree.nextId then some ⟨kind, span, none, []⟩ else tree.get? id := by
  -- The new node is pushed behind the others.
  unfold get? alloc nextId
  simp only [Array.getElem?_push]
  by_cases last : id.index = tree.nodes.size
  · have same : id = ⟨tree.nodes.size⟩ := NodeId.ext last
    simp [same]
  · have other : id ≠ ⟨tree.nodes.size⟩ := fun same => last (by rw [same])
    simp [last, other]

/-- A new node is found at its handle. -/
@[simp] theorem get?_alloc_nextId (tree : Tree) (kind : NodeKind) (span : Span) :
    (tree.alloc kind span).get? tree.nextId = some ⟨kind, span, none, []⟩ := by
  simp [get?_alloc]

/-- Live nodes stay what they were when another is made. -/
theorem get?_alloc_of_get? {tree : Tree} {id : NodeId} {node : Node} (kind : NodeKind) (span : Span)
    (found : tree.get? id = some node) : (tree.alloc kind span).get? id = some node := by
  simp [get?_alloc, ne_nextId found, found]

/-- Changing one node leaves the others. -/
theorem get?_modify (tree : Tree) (id : NodeId) (f : Node → Node) (other : NodeId) :
    (tree.modify id f).get? other =
      if other = id then (tree.get? other).map f else tree.get? other := by
  unfold get? modify
  by_cases same : other = id
  · subst same
    -- The slot is out of bounds, empty or in use.
    cases found : tree.nodes[other.index]? with
    | none => simp [Array.getElem?_modify, found]
    | some slot => cases slot <;> simp [Array.getElem?_modify, found]
  · have apart : id.index ≠ other.index := fun equal => same (NodeId.ext equal.symm)
    simp [Array.getElem?_modify, apart, same]

/-- Changing a node keeps the number of slots. -/
@[simp] theorem nextId_modify (tree : Tree) (id : NodeId) (f : Node → Node) :
    (tree.modify id f).nextId = tree.nextId := by
  simp [nextId, modify]

/-- Changing a node keeps the root. -/
@[simp] theorem root?_modify (tree : Tree) (id : NodeId) (f : Node → Node) :
    (tree.modify id f).root? = tree.root? := rfl

/-- Making a node keeps the root. -/
@[simp] theorem root?_alloc (tree : Tree) (kind : NodeKind) (span : Span) :
    (tree.alloc kind span).root? = tree.root? := rfl

/-- Changing a node keeps the table of top-level names. -/
@[simp] theorem table_modify (tree : Tree) (id : NodeId) (f : Node → Node) :
    (tree.modify id f).table = tree.table := rfl

/-- The tree in which one node is the last child of another. -/
def link (tree : Tree) (parent child : NodeId) : Tree :=
  let grown := tree.modify parent fun node => { node with children := node.children ++ [child] }
  grown.modify child fun node => { node with parent? := some parent }

/-- A link changes the child's parent and the parent's children, and nothing else. -/
theorem get?_link {tree : Tree} {parent child : NodeId} (apart : parent ≠ child) (id : NodeId) :
    (tree.link parent child).get? id =
      if id = child then (tree.get? id).map fun node => { node with parent? := some parent }
      else if id = parent then
        (tree.get? id).map fun node => { node with children := node.children ++ [child] }
      else tree.get? id := by
  unfold link
  simp only [get?_modify]
  -- The child is changed last, and it is not the parent.
  by_cases below : id = child
  · subst below
    simp [apart.symm]
  · simp [below]

/-- A link keeps the next handle. -/
@[simp] theorem nextId_link (tree : Tree) (parent child : NodeId) :
    (tree.link parent child).nextId = tree.nextId := by
  simp [link]

/-- A link keeps the root. -/
@[simp] theorem root?_link (tree : Tree) (parent child : NodeId) :
    (tree.link parent child).root? = tree.root? := rfl

/-- A parent that accepts a detached node gets it as its last child. -/
theorem addChild_eq_link {tree : Tree} {parent child : NodeId} {above given : Node}
    (upper : tree.get? parent = some above) (lower : tree.get? child = some given)
    (detached : given.parent? = none) (accepted : given.type ∈ above.type.whitelist)
    (room : ∀ max, above.type.maxChildren? = some max → above.children.length < max) :
    tree.addChild parent child = .ok (tree.link parent child) := by
  -- Every check of the operation is one of the assumptions.
  have attached : addChild.attach tree parent child above given = .ok (tree.link parent child) := by
    simp [addChild.attach, accepted, link]
  unfold addChild
  simp only [lower, upper, detached, Option.isSome_none, Bool.false_eq_true, if_false]
  split
  · next max limited =>
    have := room max limited
    simp [Nat.not_le.mpr this, attached]
  · exact attached

/-- A node with another kind of the same type keeps its type. -/
theorem isOfType_of_get? {tree : Tree} {id : NodeId} {node : Node} {types : NodeTypes}
    (found : tree.get? id = some node) : tree.isOfType types id = decide (node.type ∈ types) := by
  simp [isOfType, found]

/-- Looking a node up succeeds for a live node only. -/
theorem get?_of_node {tree : Tree} {id : NodeId} {node : Node} (found : tree.node id = .ok node) :
    tree.get? id = some node := by
  -- The checked lookup fails where there is no node, and otherwise gives what the table has.
  unfold Tree.node at found
  split at found
  · next same => exact same.trans (congrArg some (Except.ok.inj found))
  · cases found

/-- A handle of some types names a live node of them. -/
theorem exists_of_isOfType {tree : Tree} {id : NodeId} {types : NodeTypes}
    (typed : tree.isOfType types id = true) :
    ∃ node, tree.get? id = some node ∧ node.type ∈ types := by
  -- A handle without a node passes no test.
  cases found : tree.get? id with
  | none => simp [isOfType, found] at typed
  | some node => exact ⟨node, rfl, by simpa [isOfType, found] using typed⟩

/-- A handle of one type names a live node of that type. -/
theorem exists_of_isOfType_only {tree : Tree} {id : NodeId} {type : NodeType}
    (typed : tree.isOfType (.only type) id = true) :
    ∃ node, tree.get? id = some node ∧ node.type = type := by
  obtain ⟨node, found, member⟩ := exists_of_isOfType typed
  exact ⟨node, found, NodeTypes.mem_only.mp member⟩

end Tree

end ArgSchema
