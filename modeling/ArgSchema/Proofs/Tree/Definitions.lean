import ArgSchema.Proofs.Tree.Growth
import ArgSchema.Proofs.Tree.SameSyntax

/-! The definitions of a file and their properties, as they hang together in a well-formed tree. -/

namespace ArgSchema

namespace Tree

/-- The definitions below the root. -/
def definitions (tree : Tree) (root : NodeId) : List NodeId :=
  tree.childrenOfType root NodeTypes.definitions

/-- The properties in the body of a definition. -/
def properties (tree : Tree) (id : NodeId) : List NodeId :=
  (tree.children id).flatMap fun part => tree.childrenOfType part (NodeTypes.only .config)

variable {tree other : Tree}

/-- Trees of the same syntax have the same definitions. -/
theorem SameSyntax.definitions (same : tree.SameSyntax other) (root : NodeId) :
    other.definitions root = tree.definitions root := same.childrenOfType root _

/-- Trees of the same syntax have the same properties. -/
theorem SameSyntax.properties (same : tree.SameSyntax other) (id : NodeId) :
    other.properties id = tree.properties id := by
  rw [Tree.properties, same.children, Tree.properties]
  exact List.flatMap_congr fun part _ => same.childrenOfType part _

/-- The children of a live node. -/
theorem children_of_get? {id : NodeId} {node : Node} (found : tree.get? id = some node) :
    tree.children id = node.children := by
  simp [children, found]

/-- A node of one of some types or others is of the first or the second. -/
theorem isOfType_union (tree : Tree) (a b : NodeTypes) (id : NodeId) :
    tree.isOfType (a ∪ b) id = (tree.isOfType a id || tree.isOfType b id) := by
  -- A dead node is of neither type.
  unfold isOfType
  cases tree.get? id with
  | none => rfl
  | some node => simp

/-- The children of the top of a growth are the tops of the growths below it. -/
theorem Grows.children_eq {growth : Growth} (grows : tree.Grows growth) :
    tree.children growth.id = growth.children.map Growth.id := by
  obtain ⟨node, found, same, _⟩ := grows.get?
  rw [children_of_get? found, same]

/-- What grows below a growth grows. -/
theorem Grows.below {growth : Growth} (grows : tree.Grows growth) :
    ∀ below ∈ growth.children, tree.Grows below := (grows.get?).choose_spec.2.2

/-- The children of some types are the tops of the growths whose tops are of these types. -/
theorem Grows.childrenOfType_eq {growth : Growth} (grows : tree.Grows growth)
    (types : NodeTypes) :
    tree.childrenOfType growth.id types =
      (growth.children.filter (tree.isOfType types ·.id)).map Growth.id := by
  rw [childrenOfType, grows.children_eq, List.filter_map]
  rfl

/-- A child of a node has a live parent that accepts it. -/
theorem Forest.of_mem_children (forest : tree.Forest) {id child : NodeId}
    (listed : child ∈ tree.children id) :
    ∃ node given, tree.get? id = some node ∧ tree.get? child = some given ∧
      given.parent? = some id ∧ given.type ∈ node.type.whitelist := by
  cases found : tree.get? id with
  -- Dead nodes have no children.
  | none => simp [children, found] at listed
  | some node =>
    rw [children_of_get? found] at listed
    obtain ⟨given, lower, parent, accepted⟩ := forest.child found child listed
    exact ⟨node, given, rfl, lower, parent, accepted⟩

/-- No child is listed twice. -/
theorem Forest.nodup_children (forest : tree.Forest) (id : NodeId) : (tree.children id).Nodup := by
  cases found : tree.get? id with
  | none => simp [children, found]
  | some node => exact children_of_get? found ▸ forest.once found

/-- A node that accepts nothing has no children. -/
theorem Forest.children_eq_nil (forest : tree.Forest) {id : NodeId} {node : Node}
    (found : tree.get? id = some node) (leaf : node.type.whitelist = NodeTypes.empty) :
    tree.children id = [] := by
  refine List.eq_nil_iff_forall_not_mem.mpr fun child listed => ?_
  -- A child would be of a type that the node accepts.
  obtain ⟨_, given, upper, _, _, accepted⟩ := forest.of_mem_children listed
  rw [found] at upper
  cases upper
  rw [leaf] at accepted
  exact NodeTypes.not_mem_empty _ accepted

/-- A definition is a live child of the root. -/
theorem Forest.mem_definitions (forest : tree.Forest) {root id : NodeId} :
    id ∈ tree.definitions root ↔ id ∈ tree.children root ∧
      ∃ node, tree.get? id = some node ∧ node.type ∈ NodeTypes.definitions := by
  -- A child in a forest is live, so the type test is about a node.
  unfold definitions childrenOfType
  rw [List.mem_filter]
  refine and_congr_right fun listed => ?_
  obtain ⟨node, given, _, lower, _⟩ := forest.of_mem_children listed
  simp [isOfType, lower]

/-- What is among the definitions is one. -/
theorem isOfType_of_mem_definitions {root id : NodeId} (member : id ∈ tree.definitions root) :
    tree.isOfType NodeTypes.definitions id = true :=
  (List.mem_filter.mp member).2

/-- No definition is listed twice. -/
theorem Forest.nodup_definitions (forest : tree.Forest) (root : NodeId) : (tree.definitions root).Nodup :=
  (forest.nodup_children root).filter _

section File

variable {root : NodeId} (forest : tree.Forest) (rooted : tree.root? = some root)

include forest rooted

/-- The root is live, and a file. -/
theorem Forest.root_file : ∃ node, tree.get? root = some node ∧ node.type = .file := by
  obtain ⟨node, found, file, _⟩ := forest.rooted rooted
  exact ⟨node, found, file⟩

/-- What hangs below the root is a definition, or it has no children. -/
theorem Forest.definition_or_leaf {id : NodeId} (listed : id ∈ tree.children root) :
    tree.isOfType NodeTypes.definitions id = true ∨ tree.children id = [] := by
  obtain ⟨node, given, upper, lower, _, accepted⟩ := forest.of_mem_children listed
  obtain ⟨file, found, type⟩ := forest.root_file rooted
  rw [found] at upper
  cases upper
  rw [type] at accepted
  -- A file accepts definitions and suppressions, and suppressions accept nothing.
  rcases NodeTypes.mem_union.mp accepted with definition | suppress
  · exact .inl (by simpa [isOfType, lower] using definition)
  · refine .inr (forest.children_eq_nil lower ?_)
    rw [NodeTypes.mem_only.mp suppress]
    rfl

/-- No property hangs directly below the root. -/
theorem Forest.not_config_of_root {id : NodeId} (listed : id ∈ tree.children root) :
    tree.isOfType (NodeTypes.only .config) id = false := by
  obtain ⟨node, given, upper, lower, _, accepted⟩ := forest.of_mem_children listed
  obtain ⟨file, found, type⟩ := forest.root_file rooted
  rw [found] at upper
  cases upper
  rw [type] at accepted
  simp only [isOfType, lower, Option.any_some, NodeTypes.mem_only, decide_eq_false_iff_not]
  -- No file accepts a property.
  intro config
  rw [config] at accepted
  simp [NodeType.whitelist, NodeTypes.toplevel, NodeTypes.definitions] at accepted

/-- A definition can be reached from the root. -/
theorem Forest.under_of_mem_definitions {id : NodeId} (member : id ∈ tree.definitions root) :
    tree.Under root id := by
  -- A definition is a child of the root.
  obtain ⟨file, found, _⟩ := forest.root_file rooted
  have listed := (forest.mem_definitions.mp member).1
  rw [children_of_get? found] at listed
  exact Under.top.child found listed

end File

/-- A child can be reached where its parent can. -/
theorem Under.of_mem_children (forest : tree.Forest) {top id child : NodeId}
    (reached : tree.Under top id) (listed : child ∈ tree.children id) : tree.Under top child := by
  obtain ⟨node, _, found, _⟩ := forest.of_mem_children listed
  rw [children_of_get? found] at listed
  exact reached.child found listed

/-- The properties of a definition are live, and can be reached from where it can. -/
theorem Forest.of_mem_properties (forest : tree.Forest) {top id config : NodeId}
    (member : config ∈ tree.properties id) (reached : tree.Under top id) :
    tree.Under top config ∧ ∃ node, tree.get? config = some node ∧ node.type = .config := by
  -- A property is two steps below, and each step stays within reach.
  obtain ⟨part, listed, member⟩ := List.mem_flatMap.mp member
  obtain ⟨inside, type⟩ := List.mem_filter.mp member
  refine ⟨Under.of_mem_children forest (Under.of_mem_children forest reached listed) inside, ?_⟩
  obtain ⟨_, given, _, lower, _⟩ := forest.of_mem_children inside
  exact ⟨given, lower, by simpa [isOfType, lower] using type⟩

/-- What hangs two steps below a definition is a property, or it has no children. -/
theorem Forest.config_or_leaf (forest : tree.Forest) {id part child : NodeId}
    (definition : tree.isOfType NodeTypes.definitions id = true)
    (listed : part ∈ tree.children id) (inside : child ∈ tree.children part) :
    tree.isOfType (NodeTypes.only .config) child = true ∨
      (tree.isOfType (NodeTypes.only .config) child = false ∧
        tree.isOfType NodeTypes.definitions child = false ∧ tree.children child = []) := by
  obtain ⟨node, middle, upper, between, _, fits⟩ := forest.of_mem_children listed
  obtain ⟨middle', given, between', lower, _, accepted⟩ := forest.of_mem_children inside
  rw [between] at between'
  cases between'
  have own : node.type ∈ NodeTypes.definitions := by simpa [isOfType, upper] using definition
  -- Parts are names, type lists and bodies; only bodies hold properties.
  have part : middle.type ∈ NodeTypes.ofList [.identifier, .types, .configs] := by
    simp only [NodeTypes.definitions, NodeTypes.mem_ofList, List.mem_cons, List.not_mem_nil,
      or_false] at own
    rcases own with type | type | type | type <;>
      simp only [type, NodeType.whitelist, NodeTypes.mem_ofList, NodeTypes.mem_only, List.mem_cons,
        List.not_mem_nil, or_false] at fits ⊢ <;> tauto
  have bottom : given.type = .config ∨ given.type = .identifier := by
    simp only [NodeTypes.mem_ofList, List.mem_cons, List.not_mem_nil, or_false] at part
    rcases part with type | type | type <;> rw [type] at accepted
    · exact absurd accepted (NodeTypes.not_mem_empty _)
    · exact .inr (NodeTypes.mem_only.mp accepted)
    · exact .inl (NodeTypes.mem_only.mp accepted)
  -- A property is what is asked for, and a name has no children.
  rcases bottom with type | type
  · exact .inl (by simp [isOfType, lower, type])
  · refine .inr ⟨?_, ?_, forest.children_eq_nil lower (by rw [type]; rfl)⟩
    · simp [isOfType, lower, type]
    · simp [isOfType, lower, type, NodeTypes.definitions]

/-- Definitions that can be reached from the root hang directly below it. -/
theorem Forest.mem_definitions_of_under (forest : tree.Forest) {root id : NodeId}
    (rooted : tree.root? = some root) (reached : tree.Under root id)
    (definition : tree.isOfType NodeTypes.definitions id = true) : id ∈ tree.definitions root := by
  obtain ⟨file, found, type⟩ := forest.root_file rooted
  cases reached with
  -- The root itself is a file, and no definition.
  | top =>
    rw [isOfType_of_get? found, type] at definition
    simp [NodeTypes.definitions] at definition
  | @child parent _ node upper above listed =>
    obtain ⟨given, lower, _, accepted⟩ := forest.child above _ listed
    have own : given.type ∈ NodeTypes.definitions := by
      simpa [isOfType, lower] using definition
    -- Only files accept definitions, and nothing accepts a file.
    have outer : node.type = .file := by
      simp only [NodeTypes.definitions, NodeTypes.mem_ofList, List.mem_cons, List.not_mem_nil,
        or_false] at own
      cases kind : node.type <;> rw [kind] at accepted <;>
        rcases own with same | same | same | same <;> rw [same] at accepted <;>
        simp [NodeType.whitelist, NodeTypes.valueKinds] at accepted ⊢
    have here : parent = root := by
      cases upper with
      | top => rfl
      | child _ high inside =>
        obtain ⟨node', found', _, fits⟩ := forest.child high _ inside
        rw [above] at found'
        cases found'
        have less := NodeType.rank_lt fits
        rw [outer] at less
        exact absurd less (Nat.not_lt.mpr (NodeType.rank_le_file _))
    subst here
    exact List.mem_filter.mpr ⟨children_of_get? above ▸ listed, definition⟩

/-- The parts of a definition are neither definitions nor properties. -/
theorem Forest.part_of_definition (forest : tree.Forest) {id part : NodeId}
    (definition : tree.isOfType NodeTypes.definitions id = true)
    (listed : part ∈ tree.children id) :
    tree.isOfType (NodeTypes.only .config) part = false ∧
      tree.isOfType NodeTypes.definitions part = false := by
  obtain ⟨node, middle, upper, between, _, fits⟩ := forest.of_mem_children listed
  have own : node.type ∈ NodeTypes.definitions := by simpa [isOfType, upper] using definition
  simp only [NodeTypes.definitions, NodeTypes.mem_ofList, List.mem_cons, List.not_mem_nil,
    or_false] at own
  -- What each kind of definition accepts are these three.
  have kinds : middle.type = .identifier ∨ middle.type = .types ∨ middle.type = .configs := by
    rcases own with type | type | type | type <;>
      simp only [type, NodeType.whitelist, NodeTypes.mem_ofList, NodeTypes.mem_only, List.mem_cons,
        List.not_mem_nil, or_false] at fits <;> tauto
  rcases kinds with type | type | type <;>
    simp [isOfType, between, type, NodeTypes.definitions]

end Tree

end ArgSchema
