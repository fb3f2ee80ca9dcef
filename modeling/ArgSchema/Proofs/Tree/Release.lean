import ArgSchema.Proofs.Tree.Forest

/-! Release: a tree from which nodes and everything below them are taken stays well formed. -/

namespace ArgSchema

namespace Tree

/-- The tree with nothing in the slot of a handle. -/
def without (tree : Tree) (id : NodeId) : Tree :=
  -- Each fact is asked of the tree before, where the released node still was.
  { tree with nodes := tree.nodes.setIfInBounds id.index none }

/-- A handle without its node names nothing, and all others name what they did. -/
theorem get?_without (tree : Tree) (id other : NodeId) :
    (tree.without id).get? other = if other = id then none else tree.get? other := by
  -- The slot is emptied, and no other handle has it.
  unfold get? without
  simp only [Array.getElem?_setIfInBounds]
  by_cases same : other = id
  · subst same
    rw [if_pos rfl, if_pos rfl]
    split <;> rfl
  · -- Different handles have different slots.
    have apart : id.index ≠ other.index := fun equal => same (NodeId.ext equal.symm)
    simp [apart, same]

/-- The nodes that are left are the others. -/
theorem get?_without_eq_some {tree : Tree} {id other : NodeId} {node : Node} :
    (tree.without id).get? other = some node ↔ other ≠ id ∧ tree.get? other = some node := by
  -- Only other nodes are found, and they are found as before.
  rw [get?_without]
  split
  · next same => simp [same]
  · next apart => simp [apart]

/-- A handle names nothing if there is no live node in its slot. -/
theorem get?_of_empty_slot {tree : Tree} {id : NodeId}
    (empty : ∀ node, tree.nodes[id.index]? ≠ some (some node)) : tree.get? id = none := by
  -- The lookup reads the slot of the index.
  cases found : tree.get? id with
  | none => rfl
  | some node => exact absurd (Option.join_eq_some_iff.mp found) (empty node)

/-- A tree that is well formed except for some handles, which no child list has any more. -/
structure Shedding (tree : Tree) (pending : List NodeId) : Prop where
  /-- A child is live, knows its parent and is of a type that the parent accepts. -/
  child : ∀ {id node}, tree.get? id = some node → ∀ below ∈ node.children,
    ∃ given, tree.get? below = some given ∧ given.parent? = some id ∧
      given.type ∈ node.type.whitelist
  /-- No child is listed twice. -/
  once : ∀ {id node}, tree.get? id = some node → node.children.Nodup
  /-- A parent lists the node that names it, unless that node is to be released. -/
  listed : ∀ {id node parent}, tree.get? id = some node → node.parent? = some parent →
    id ∈ pending ∨ ∃ above, tree.get? parent = some above ∧ id ∈ above.children
  /-- What is to be released is no child. -/
  unlisted : ∀ {id node}, tree.get? id = some node → ∀ below ∈ node.children, below ∉ pending
  /-- No node has more children than its type allows. -/
  bounded : ∀ {id node max}, tree.get? id = some node → node.type.maxChildren? = some max →
    node.children.length ≤ max
  /-- The root is a detached file that is kept. -/
  rooted : ∀ {id}, tree.root? = some id → id ∉ pending ∧
    ∃ node, tree.get? id = some node ∧ node.type = .file ∧ node.parent? = none

namespace Shedding

variable {tree : Tree} {pending : List NodeId} {id : NodeId}

/-- When nothing is left to release, the tree is well formed. -/
theorem forest (shedding : Shedding tree []) : Forest tree where
  child := shedding.child
  once := shedding.once
  listed found named := (shedding.listed found named).resolve_left List.not_mem_nil
  bounded := shedding.bounded
  rooted named := (shedding.rooted named).2

/-- A handle that names nothing needs no release. -/
theorem skip (shedding : Shedding tree (id :: pending)) (gone : tree.get? id = none) :
    Shedding tree pending where
  child := shedding.child
  once := shedding.once
  listed {other node parent} found named := by
    -- A handle that names nothing is no node that still has to go.
    refine (shedding.listed found named).imp_left fun member => ?_
    refine (List.mem_cons.mp member).resolve_left fun same => ?_
    rw [same, gone] at found
    cases found
  unlisted found below member := fun inside =>
    shedding.unlisted found below member (List.mem_cons_of_mem id inside)
  bounded := shedding.bounded
  rooted named :=
    ⟨fun inside => (shedding.rooted named).1 (List.mem_cons_of_mem id inside),
      (shedding.rooted named).2⟩

/-- A node that is released leaves its children to be released. -/
theorem without {node : Node} (shedding : Shedding tree (id :: pending))
    (live : tree.get? id = some node) :
    Shedding (tree.without id) (node.children ++ pending) := by
  constructor
  case child =>
    intro other given found below member
    obtain ⟨-, found⟩ := get?_without_eq_some.mp found
    obtain ⟨lower, live', rest⟩ := shedding.child found below member
    -- The released node was in no list.
    have apart : below ≠ id := fun same =>
      shedding.unlisted found below member (same ▸ List.mem_cons_self)
    exact ⟨lower, get?_without_eq_some.mpr ⟨apart, live'⟩, rest⟩
  -- What is left keeps its list.
  case once => exact fun found => shedding.once (get?_without_eq_some.mp found).2
  case listed =>
    intro other given parent found named
    obtain ⟨apart, found⟩ := get?_without_eq_some.mp found
    rcases shedding.listed found named with member | ⟨above, upper, member⟩
    · exact .inl (List.mem_append_right _ ((List.mem_cons.mp member).resolve_left apart))
    · by_cases same : parent = id
      · -- A child of the released node is released next.
        subst same
        rw [live] at upper
        cases upper
        exact .inl (List.mem_append_left _ member)
      · exact .inr ⟨above, get?_without_eq_some.mpr ⟨same, upper⟩, member⟩
  case unlisted =>
    -- A node to be released is in no list that is left: it was in none, or its parent is gone.
    intro other given found below member inside
    obtain ⟨apart, found⟩ := get?_without_eq_some.mp found
    rcases List.mem_append.mp inside with inside | inside
    · -- A child has one parent only.
      obtain ⟨lower, low, parent, -⟩ := shedding.child found below member
      obtain ⟨lower', low', parent', -⟩ := shedding.child live below inside
      rw [low] at low'
      cases low'
      rw [parent] at parent'
      exact apart (Option.some.inj parent')
    · exact shedding.unlisted found below member (List.mem_cons_of_mem id inside)
  case bounded => exact fun found => shedding.bounded (get?_without_eq_some.mp found).2
  case rooted =>
    intro other named
    obtain ⟨outside, given, found, file, alone⟩ := shedding.rooted named
    have apart : other ≠ id := fun same => outside (same ▸ List.mem_cons_self)
    refine ⟨fun inside => ?_, given, get?_without_eq_some.mpr ⟨apart, found⟩, file, alone⟩
    rcases List.mem_append.mp inside with inside | inside
    · -- The root has no parent, but a child has one.
      obtain ⟨lower, low, parent, -⟩ := shedding.child live other inside
      rw [found] at low
      cases low
      rw [alone] at parent
      cases parent
    · exact outside (List.mem_cons_of_mem id inside)

/-- Releasing all that is to be released leaves a well-formed tree. -/
theorem releaseAll {nodes : Array (Option Node)}
    (shedding : Shedding { tree with nodes := nodes } pending) :
    Forest { tree with nodes := releaseAll nodes pending } := by
  fun_induction Tree.releaseAll nodes pending with
  | case1 nodes => exact shedding.forest
  | case2 nodes id rest node found ih =>
    -- The node leaves its slot, and its children wait in its stead.
    refine ih (shedding.without ?_)
    rw [Tree.get?, found]
    rfl
  | case3 nodes id rest none ih => exact ih (shedding.skip (get?_of_empty_slot none))

/-- Releasing the only node that is to be released leaves a well-formed tree. -/
theorem release (shedding : Shedding tree [id]) : Forest (tree.release id) :=
  @releaseAll tree [id] tree.nodes shedding

end Shedding

/-- What a well-formed tree is left with besides a detached node, which is not the root. -/
theorem Forest.shedding {tree : Tree} {id : NodeId} (forest : Forest tree)
    (alone : ∀ node, tree.get? id = some node → node.parent? = none) (other : tree.root? ≠ some id) :
    Shedding tree [id] where
  child := forest.child
  once := forest.once
  listed found named := .inr (forest.listed found named)
  unlisted {upper node} found below member inside := by
    -- A child of a node has a parent, and the detached node has none.
    obtain rfl := List.mem_singleton.mp inside
    obtain ⟨given, live, parent, -⟩ := forest.child found below member
    rw [alone given live] at parent
    cases parent
  bounded := forest.bounded
  rooted named :=
    ⟨fun inside => other (List.mem_singleton.mp inside ▸ named), forest.rooted named⟩

end Tree

end ArgSchema
