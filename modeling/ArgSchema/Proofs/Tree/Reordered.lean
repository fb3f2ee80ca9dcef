import ArgSchema.Proofs.Registration.Visits
import ArgSchema.Proofs.Tree.Moves

/-! Files in another order: the same definitions with the same contents hang below the root. -/

namespace ArgSchema

/-- The tree with the children of a node in another order. -/
def Tree.reorder (tree : Tree) (id : NodeId) (order : List NodeId) : Tree :=
  tree.modify id fun node => { node with children := order }

namespace Tree

section Lookups

variable (tree : Tree) (root : NodeId) (order : List NodeId)

/-- Only the list of children is another, and only that of one node. -/
theorem get?_reorder (id : NodeId) : (tree.reorder root order).get? id =
    (tree.get? id).map fun node => if id = root then { node with children := order } else node :=
  get?_modify_eq_map tree root _ id

/-- What a node is does not depend on the order. -/
theorem kind_reorder (id : NodeId) : ((tree.reorder root order).get? id).map (·.kind) =
    (tree.get? id).map (·.kind) := by
  -- The root's node is changed in its children alone.
  rw [get?_reorder]
  cases tree.get? id with
  | none => rfl
  | some node =>
    simp only [Option.map_some]
    split <;> rfl

/-- The type of a node does not depend on the order. -/
theorem isOfType_reorder (types : NodeTypes) (id : NodeId) :
    (tree.reorder root order).isOfType types id = tree.isOfType types id := by
  -- The type is that of the kind, which is kept.
  unfold isOfType
  rw [get?_reorder]
  cases tree.get? id with
  | none => rfl
  | some node =>
    simp only [Option.map_some, Option.any_some]
    split <;> rfl

variable {root}

/-- Other nodes have their children in the same order. -/
theorem children_reorder_of_ne {id : NodeId} (apart : id ≠ root) :
    (tree.reorder root order).children id = tree.children id := by
  -- Only the root's list is permuted.
  unfold children
  rw [get?_reorder]
  simp [apart]

/-- Other nodes have the same names. -/
theorem identifiers_reorder {id : NodeId} (apart : id ≠ root) :
    (tree.reorder root order).identifiers id = tree.identifiers id := by
  rw [identifiers_eq_named?, identifiers_eq_named?, children_reorder_of_ne tree order apart]
  -- The children are the same, and a name is still one.
  refine List.filterMap_congr fun child _ => ?_
  rw [get?_reorder]
  cases tree.get? child with
  | none => rfl
  | some node =>
    simp only [Option.map_some, Option.bind_some]
    split <;> rfl

end Lookups

section File

variable {tree : Tree} (forest : tree.Forest) {root : NodeId} (rooted : tree.root? = some root)
  {order : List NodeId} (perm : order.Perm (tree.children root))

include forest rooted

/-- The root is nobody's child. -/
theorem Forest.ne_root {id child : NodeId} (listed : child ∈ tree.children id) : child ≠ root := by
  rintro rfl
  -- A child names its parent, and the root names none.
  obtain ⟨_, given, _, lower, parent, _⟩ := forest.of_mem_children listed
  obtain ⟨file, found, _, alone⟩ := forest.rooted rooted
  rw [lower] at found
  cases found
  cases parent.symm.trans alone

omit forest in
/-- The children of the root stand in the new order. -/
theorem children_reorder (forest : tree.Forest) : (tree.reorder root order).children root = order := by
  -- The root is live, and its children are those given.
  obtain ⟨file, found, _⟩ := forest.root_file rooted
  unfold children
  rw [get?_reorder, found]
  simp

include perm

/-- A node has the same children as before, though in another order if it is the root. -/
theorem perm_children_reorder (id : NodeId) :
    ((tree.reorder root order).children id).Perm (tree.children id) := by
  by_cases same : id = root
  · -- Only the root has its children in another order.
    subst same
    rw [children_reorder rooted forest]
    exact perm
  · rw [children_reorder_of_ne tree order same]

/-- A live node of one order is live in the other, of the same type and with the same parent, and
its children are the same. -/
theorem get?_of_reorder {id : NodeId} {node : Node}
    (found : (tree.reorder root order).get? id = some node) :
    ∃ old, tree.get? id = some old ∧ node.kind = old.kind ∧ node.parent? = old.parent? ∧
      node.children.Perm old.children := by
  -- The node was live before, and its children are the same but for their order.
  have below := perm_children_reorder forest rooted perm id
  rw [children_of_get? found] at below
  rw [get?_reorder] at found
  obtain ⟨old, live, rfl⟩ := Option.map_eq_some_iff.mp found
  rw [children_of_get? live] at below
  refine ⟨old, live, ?_, ?_, below⟩ <;> split <;> rfl

/-- A well-formed tree stays so in another order. -/
theorem Forest.reorder : (tree.reorder root order).Forest := by
  -- What is live before is live afterwards, with the same children but for their order.
  have after : ∀ {id old}, tree.get? id = some old →
      ∃ node, (tree.reorder root order).get? id = some node ∧ node.kind = old.kind ∧
        node.parent? = old.parent? ∧ node.children.Perm old.children := by
    intro id old live
    have found := tree.get?_reorder root order id
    rw [live, Option.map_some] at found
    obtain ⟨old', live', kind, parent, below⟩ := get?_of_reorder forest rooted perm found
    rw [live] at live'
    cases live'
    exact ⟨_, found, kind, parent, below⟩
  constructor
  -- Each law speaks of children as members or of their number, and neither depends on the order.
  case child =>
    intro id node found below member
    obtain ⟨old, live, kind, -, same⟩ := get?_of_reorder forest rooted perm found
    obtain ⟨given, lower, parent, accepted⟩ := forest.child live below (same.subset member)
    obtain ⟨given', lower', kind', parent', -⟩ := after lower
    refine ⟨given', lower', parent'.trans parent, ?_⟩
    rwa [Node.type, Node.type, kind', kind]
  case once =>
    intro id node found
    obtain ⟨old, live, -, -, same⟩ := get?_of_reorder forest rooted perm found
    exact same.nodup_iff.mpr (forest.once live)
  case listed =>
    intro id node parent found named
    obtain ⟨old, live, -, parent', -⟩ := get?_of_reorder forest rooted perm found
    obtain ⟨above, upper, member⟩ := forest.listed live (parent'.symm.trans named)
    obtain ⟨above', upper', -, -, same⟩ := after upper
    exact ⟨above', upper', same.symm.subset member⟩
  -- A list in another order is as long.
  case bounded =>
    intro id node max found limited
    obtain ⟨old, live, kind, -, same⟩ := get?_of_reorder forest rooted perm found
    rw [same.length_eq]
    exact forest.bounded live (by rwa [Node.type, kind] at limited)
  -- The root keeps its kind and stays without a parent.
  case rooted =>
    intro id named
    obtain ⟨file, live, type, alone⟩ := forest.rooted named
    obtain ⟨file', live', kind, parent, -⟩ := after live
    exact ⟨file', live', (congrArg NodeKind.type kind).trans type, parent.trans alone⟩

/-- The same nodes are below the root in both orders. -/
theorem under_reorder_iff {id : NodeId} :
    (tree.reorder root order).Under root id ↔ tree.Under root id := by
  -- Step by step from the root, as each node has the same children in both trees.
  constructor
  · intro reached
    induction reached with
    | top => exact .top
    | child _ found member ih =>
      obtain ⟨old, live, -, -, same⟩ := get?_of_reorder forest rooted perm found
      exact ih.child live (same.subset member)
  · intro reached
    induction reached with
    | top => exact .top
    | @child above below node _ found member ih =>
      have same := perm_children_reorder forest rooted perm above
      rw [children_of_get? found] at same
      exact Under.of_mem_children (forest.reorder rooted perm) ih (same.symm.subset member)

/-- The definitions are the same, though in another order. -/
theorem perm_definitions_reorder :
    ((tree.reorder root order).definitions root).Perm (tree.definitions root) := by
  -- Filtering keeps a permutation one.
  unfold definitions childrenOfType
  rw [children_reorder rooted forest]
  simp only [show (tree.reorder root order).isOfType NodeTypes.definitions =
    tree.isOfType NodeTypes.definitions from funext (isOfType_reorder tree root order _)]
  exact perm.filter _

omit perm

/-- A definition has the same names in both orders. -/
theorem names_reorder {id : NodeId} (listed : id ∈ tree.definitions root) :
    Registration.names (tree.reorder root order) id = Registration.names tree id := by
  -- A definition is not the root, so it is found with all that its names are made of.
  have apart := forest.ne_root rooted (forest.mem_definitions.mp listed).1
  unfold Registration.names Registration.aliases
  rw [get?_reorder, Option.map_map, identifiers_reorder tree order apart]
  simp only [if_neg apart]
  rfl

/-- A definition has the same properties in both orders. -/
theorem keywords_reorder {id : NodeId} (listed : id ∈ tree.definitions root) :
    Registration.keywords (tree.reorder root order) id = Registration.keywords tree id := by
  have apart := forest.ne_root rooted (forest.mem_definitions.mp listed).1
  -- Properties are two steps below a definition, and neither step starts at the root.
  have properties : (tree.reorder root order).properties id = tree.properties id := by
    unfold properties childrenOfType
    rw [children_reorder_of_ne tree order apart]
    refine List.flatMap_congr fun part member => ?_
    rw [children_reorder_of_ne tree order (forest.ne_root rooted member)]
    exact List.filter_congr fun child _ => isOfType_reorder tree root order _ child
  unfold Registration.keywords Registration.keyword?
  rw [properties]
  refine List.flatMap_congr fun config member => ?_
  obtain ⟨part, _, member⟩ := List.mem_flatMap.mp member
  rw [identifiers_reorder tree order (forest.ne_root rooted (List.mem_filter.mp member).1)]

end File

end Tree

end ArgSchema
