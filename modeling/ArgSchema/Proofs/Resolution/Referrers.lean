import ArgSchema.Proofs.Parser.Meaning

/-! What refers to others in a file that can be written: types in lists, and references. -/

namespace ArgSchema

namespace Outline

/-- Type lists name types, and references name targets and properties that can be written. -/
def Refers (outline : Outline) : Prop :=
  match outline.kind with
  | .types _ =>
    ∀ label ∈ outline.children.filterMap label?, label.category = .type ∧ label.Spelled
  | .reference target category property _ =>
    category ≠ .property ∧ category.Names target ∧ IsWord property
  | _ => True

/-- A leaf refers as its contents do. -/
theorem every_leaf {kind : NodeKind} (refers : (leaf kind).Refers) : (leaf kind).Every Refers :=
  .node refers (by simp [leaf, children])

/-- Names refer to nothing. -/
theorem every_label (label : Label) : label.outline.Every Refers := every_leaf trivial

/-- A list of types refers to types. -/
theorem every_types {names : List String} (types : ∀ name ∈ names, Category.type.Names name) :
    (typesOutline names).Every Refers := by
  -- A list of types has no values, and only labels below it.
  refine .node ?_ fun below member => ?_
  · show ∀ label ∈ (typesOutline names).children.filterMap label?, _
    rw [filterMap_label?_types]
    intro label member
    obtain ⟨name, inside, rfl⟩ := List.mem_map.mp member
    exact ⟨rfl, types name inside⟩
  · obtain ⟨name, _, rfl⟩ := List.mem_map.mp member
    exact every_label _

/-- A value that can be written refers to what can be written. -/
theorem every_value {value : NodeKind} (written : value.Written) : (leaf value).Every Refers := by
  obtain ⟨token, spelled, same⟩ := written
  refine every_leaf ?_
  unfold Token.Spelled at spelled
  unfold Token.value? at same
  -- Of all values only references refer to anything.
  cases kind : token.kind <;> simp only [kind] at same <;> cases same
  case reference =>
    rw [kind] at spelled
    exact spelled
  all_goals exact trivial

/-- A property that can be written refers to what can be written. -/
theorem every_statement {statement : Statement} (spelled : statement.Spelled) :
    statement.outline.Every Refers := by
  refine .node trivial fun below member => ?_
  simp only [Statement.outline, children_node, List.mem_append, List.mem_map, List.mem_cons,
    List.not_mem_nil, or_false] at member
  -- Suppressions, the keyword, and the list of values.
  rcases member with ⟨kind, _, rfl⟩ | rfl | rfl
  · exact every_leaf trivial
  · exact every_label _
  · refine .node trivial fun below member => ?_
    obtain ⟨value, inside, rfl⟩ := List.mem_map.mp member
    exact every_value (spelled.values value inside)

/-- A definition that can be written refers to what can be written. -/
theorem every_definition {given : Definition} (spelled : given.Spelled) :
    given.outline.Every Refers := by
  refine .node (by unfold Refers Definition.outline kind; cases given.heading.form <;> trivial)
    fun below member => ?_
  simp only [Definition.outline, Heading.outlines, children_node, List.mem_append, List.mem_map,
    Option.mem_toList, List.mem_singleton] at member
  -- Below a definition there are its labels, its list of types and its properties.
  rcases member with (⟨label, _, rfl⟩ | ⟨names, list, rfl⟩) | rfl
  · exact every_label _
  · exact every_types (spelled.heading.types names list)
  · refine .node trivial fun below member => ?_
    obtain ⟨statement, inside, rfl⟩ := List.mem_map.mp member
    exact every_statement (spelled.body statement inside)

/-- A file that can be written refers to what can be written. -/
theorem every_file {items : List Item} (meant : Meant items) : (fileOutline items).Every Refers := by
  -- An item is a suppression, which refers to nothing, or a definition.
  refine .node trivial fun below member => ?_
  obtain ⟨item, inside, rfl⟩ := List.mem_map.mp member
  cases item with
  | suppress => exact every_leaf trivial
  | definition given =>
    exact every_definition (meant.spelled (mem_definitionsOf.mpr inside))

end Outline

namespace Tree

variable {tree : Tree} {root id : NodeId} {items : List Item} {node : Node}

/-- Below the root of a file that can be written, names in type lists are types. -/
theorem Draws.types_refer (drawn : tree.Draws root (fileOutline items)) (meant : Meant items)
    (reached : tree.Under root id) (found : tree.get? id = some node)
    {slots : List (Option NodeId)} (list : node.kind.bare = .types slots) :
    ∀ name ∈ tree.identifiers id, name.2.1 = Category.type := by
  obtain ⟨inner, given, every⟩ := Under.every drawn (Outline.every_file meant) reached
  obtain ⟨node', live, same⟩ := given.live
  rw [found] at live
  cases live
  -- The node has an outline within that of the file, and its names are labels of that outline.
  intro name member
  have label : (⟨name.1, name.2.1⟩ : Label) ∈ inner.children.filterMap Outline.label? := by
    rw [← given.identifiers]
    exact List.mem_map.mpr ⟨name, member, rfl⟩
  cases every with
  | node refers _ =>
    unfold Outline.Refers at refers
    rw [← same] at refers
    cases kind : node.kind <;> simp only [kind, NodeKind.bare, reduceCtorEq] at list
    rw [kind] at refers
    exact (refers _ label).1

/-- Below the root of a file that can be written, references have targets and properties that can
be written. -/
theorem Draws.reference_refers (drawn : tree.Draws root (fileOutline items)) (meant : Meant items)
    (reached : tree.Under root id) (found : tree.get? id = some node)
    {target property : String} {category : Category} {slot : Option NodeId}
    (reference : node.kind.bare = .reference target category property slot) :
    category ≠ .property ∧ category.Names target ∧ IsWord property := by
  -- Everything in the drawing refers to what can be written, and the node is in it.
  obtain ⟨inner, given, every⟩ := Under.every drawn (Outline.every_file meant) reached
  obtain ⟨node', live, same⟩ := given.live
  rw [found] at live
  cases live
  cases every with
  | node refers _ =>
    unfold Outline.Refers at refers
    rw [← same] at refers
    cases kind : node.kind <;>
      simp only [kind, NodeKind.bare, reduceCtorEq, NodeKind.reference.injEq] at reference
    obtain ⟨rfl, rfl, rfl, _⟩ := reference
    rw [kind] at refers
    exact refers

end Tree

end ArgSchema
