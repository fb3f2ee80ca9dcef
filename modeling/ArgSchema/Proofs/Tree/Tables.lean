import ArgSchema.Proofs.Tree.SameSyntax

/-! The tables of definitions: where they are kept, and what replacing one changes. -/

namespace ArgSchema

namespace NodeKind

/-- Exactly definitions own a table. -/
theorem isSome_table? (kind : NodeKind) :
    kind.table?.isSome = decide (kind.type ∈ NodeTypes.definitions) := by
  -- The kinds with a table are those of the definitions.
  cases kind <;> simp [table?, type, NodeTypes.definitions]

/-- A replaced table is found where there was one. -/
@[simp] theorem table?_withTable (kind : NodeKind) (table : SymbolTable) :
    (kind.withTable table).table? = kind.table?.map fun _ => table := by
  cases kind <;> rfl

/-- Of two replacements the second counts. -/
@[simp] theorem withTable_withTable (kind : NodeKind) (first second : SymbolTable) :
    (kind.withTable first).withTable second = kind.withTable second := by
  cases kind <;> rfl

/-- Replacing a table by itself changes nothing. -/
theorem withTable_self {kind : NodeKind} {table : SymbolTable} (owned : kind.table? = some table) :
    kind.withTable table = kind := by
  cases kind <;> cases owned <;> rfl

end NodeKind

namespace Tree

variable {tree : Tree}

/-- Of two changes of a node the second acts on what the first made. -/
theorem modify_modify (tree : Tree) (id : NodeId) (f g : Node → Node) :
    (tree.modify id f).modify id g = tree.modify id (g ∘ f) := by
  have nodes : (tree.nodes.modify id.index (·.map f)).modify id.index (·.map g) =
      tree.nodes.modify id.index (·.map (g ∘ f)) := by
    -- The arrays agree slot by slot.
    refine Array.ext_getElem? fun index => ?_
    simp only [Array.getElem?_modify]
    split
    · simp [Function.comp_def]
    · rfl
  simp only [modify, nodes]

/-- Changing a node to itself changes nothing. -/
theorem modify_eq_self {id : NodeId} {f : Node → Node} (fixed : (tree.get? id).map f = tree.get? id) :
    tree.modify id f = tree := by
  have nodes : tree.nodes.modify id.index (·.map f) = tree.nodes := by
    refine Array.ext_getElem? fun index => ?_
    simp only [Array.getElem?_modify]
    split
    · next same =>
      -- At the changed place both sides have the slot, empty or not.
      subst same
      unfold get? at fixed
      cases found : tree.nodes[id.index]? with
      | none => rfl
      | some slot => cases slot <;> simp_all
    · rfl
  simp only [modify, nodes]

/-- Of two tables for a definition the second counts. -/
theorem setTable_setTable (tree : Tree) (id : NodeId) (first second : SymbolTable) :
    (tree.setTable id first).setTable id second = tree.setTable id second := by
  simp only [setTable, modifyKind, modify_modify, Function.comp_def, NodeKind.withTable_withTable]

/-- Giving a definition its own table changes nothing. -/
theorem setTable_self {id : NodeId} {table : SymbolTable} (owned : tree.table? id = some table) :
    tree.setTable id table = tree := by
  refine modify_eq_self ?_
  cases found : tree.get? id with
  | none => rfl
  | some node =>
    -- Whatever is not live has no table to be given.
    simp only [table?, found, Option.bind_some] at owned
    simp only [Option.map_some, NodeKind.withTable_self owned]

/-- Changing no table of a node's contents leaves all tables. -/
theorem table?_modifyKind (tree : Tree) (id : NodeId) {f : NodeKind → NodeKind}
    (kept : ∀ kind, (f kind).table? = kind.table?) (other : NodeId) :
    (tree.modifyKind id f).table? other = tree.table? other := by
  -- The one node that changes keeps its table.
  unfold Tree.table? modifyKind
  rw [get?_modify]
  split
  · cases tree.get? other <;> simp [kept]
  · rfl

/-- A replaced table is found at its definition, and all others are left. -/
theorem table?_setTable (tree : Tree) (id : NodeId) (table : SymbolTable) (other : NodeId) :
    (tree.setTable id table).table? other =
      if other = id then (tree.table? other).map fun _ => table else tree.table? other := by
  -- Only a definition has a table, so setting one elsewhere changes nothing.
  unfold Tree.table? setTable modifyKind
  rw [get?_modify]
  split
  · cases tree.get? other <;> simp
  · rfl

/-- A replaced table is found. -/
theorem table?_setTable_self {id : NodeId} {old : SymbolTable} (owned : tree.table? id = some old)
    (table : SymbolTable) : (tree.setTable id table).table? id = some table := by
  rw [table?_setTable, if_pos rfl, owned]
  rfl

/-- The tables of other definitions are left. -/
theorem table?_setTable_of_ne {id other : NodeId} (apart : other ≠ id) (table : SymbolTable) :
    (tree.setTable id table).table? other = tree.table? other := by
  rw [table?_setTable, if_neg apart]

/-- Replacing a definition's table leaves the table of top-level names. -/
@[simp] theorem table_setTable (tree : Tree) (id : NodeId) (table : SymbolTable) :
    (tree.setTable id table).table = tree.table := rfl

/-- Definitions are the nodes that own a table. -/
theorem isSome_table? (tree : Tree) (id : NodeId) :
    (tree.table? id).isSome = tree.isOfType NodeTypes.definitions id := by
  unfold table? isOfType
  cases tree.get? id with
  | none => rfl
  | some node => exact node.kind.isSome_table?

/-- A definition owns a table. -/
theorem exists_table? {id : NodeId} (definition : tree.isOfType NodeTypes.definitions id = true) :
    ∃ table, tree.table? id = some table :=
  Option.isSome_iff_exists.mp ((isSome_table? tree id).trans definition)

end Tree

end ArgSchema
