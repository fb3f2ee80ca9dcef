import ArgSchema.Layout
import ArgSchema.Proofs.Tree.SameSyntax

/-! Written trees: the text of a tree depends on its syntax only. -/

namespace ArgSchema

/-- The contents of a node are the same in trees of the same syntax, apart from tables and resolved
names. -/
theorem Tree.SameSyntax.kind? {a b : Tree} (same : a.SameSyntax b) (id : NodeId) :
    (b.kind? id).map NodeKind.bare = (a.kind? id).map NodeKind.bare := by
  have nodes := congrArg (Option.map Node.kind) (same.nodes id)
  simpa only [Tree.kind?, Option.map_map, Function.comp_def, Node.bare] using nodes.symm

/-- The first child of some types is the same in trees of the same syntax. -/
theorem Tree.SameSyntax.findChild? {a b : Tree} (same : a.SameSyntax b) (id : NodeId)
    (types : NodeTypes) : b.findChild? id types = a.findChild? id types := by
  rw [Tree.findChild?, Tree.findChild?, same.childrenOfType]

namespace Layout

/-- Neither tables nor resolved names are written with a value. -/
@[simp] theorem valueText_bare (kind : NodeKind) : valueText kind.bare = valueText kind := by
  cases kind <;> rfl

/-- Neither tables nor resolved names are written with a part of a property. -/
@[simp] theorem configPart_bare (tree : Tree) (id : NodeId) (kind : NodeKind) :
    configPart tree id kind.bare = configPart tree id kind := by
  cases kind <;> rfl

section Syntax

variable {a b : Tree} (same : a.SameSyntax b)

include same

/-- What is read off the contents of live nodes is the same if it does not depend on tables and
resolved names. -/
theorem map_kinds {β : Type} (read : NodeId → NodeKind → β)
    (bared : ∀ id kind, read id kind.bare = read id kind) (ids : List NodeId) :
    (kinds b ids).map (fun (id, kind) => read id kind) =
      (kinds a ids).map fun (id, kind) => read id kind := by
  unfold kinds
  rw [List.map_filterMap, List.map_filterMap]
  refine List.filterMap_congr fun id _ => ?_
  -- Reading the contents is reading the bare contents, which both trees share.
  have reads : ∀ tree : Tree, ((tree.kind? id).map fun kind => (id, kind)).map
      (fun (id, kind) => read id kind) = ((tree.kind? id).map NodeKind.bare).map (read id) := by
    intro tree
    cases tree.kind? id with
    | none => rfl
    | some kind => exact congrArg some (bared id kind).symm
  rw [reads, reads, same.kind?]

/-- A part of a property is written the same. -/
theorem configPart_of_sameSyntax (id : NodeId) (kind : NodeKind) :
    configPart b id kind = configPart a id kind := by
  -- A list of values is the only part whose text is spread over children.
  cases kind
  case values =>
    have values := map_kinds same (fun _ kind => " " ++ valueText kind) (fun _ kind => by simp)
      (a.children id)
    simp only [configPart, same.children, values]
  all_goals rfl

/-- A property is written the same. -/
theorem configText_of_sameSyntax (id : NodeId) : configText b id = configText a id := by
  have parts := map_kinds same (configPart a) (configPart_bare a) (a.children id)
  -- The parts are those of the same children, and each of them is written the same.
  simp only [configText, same.children, configPart_of_sameSyntax same, parts]

/-- The properties of a definition are written the same. -/
theorem bodyText_of_sameSyntax (id : NodeId) : bodyText b id = bodyText a id := by
  -- The same children of the same node are written, each of them the same.
  have configs : configText b = configText a := funext fun id => configText_of_sameSyntax same id
  have lists : b.children = a.children := funext fun id => same.children id
  simp only [bodyText, same.findChild?, lists, configs]

/-- The names of a definition are written the same. -/
theorem labelsText_of_sameSyntax (id : NodeId) (optional : Bool) :
    labelsText b id optional = labelsText a id optional := by
  rw [labelsText, labelsText, same.identifiers]

/-- A type list is written the same. -/
theorem typesText_of_sameSyntax (id : NodeId) (optional variadic : Bool) :
    typesText b id optional variadic = typesText a id optional variadic := by
  have names : b.identifiers = a.identifiers := funext fun id => same.identifiers id
  simp only [typesText, same.findChild?, names]

/-- An item of a file is written the same. -/
theorem itemText_of_sameSyntax (id : NodeId) : itemText b id = itemText a id := by
  have contents := same.kind? id
  unfold itemText
  cases upper : a.kind? id <;> cases lower : b.kind? id <;>
    simp only [upper, lower, Option.map_some, Option.map_none, reduceCtorEq,
      Option.some.injEq] at contents
  · rfl
  · next kind kind' =>
    -- Items of different kinds differ in what they are bare, and their flags are bare contents.
    cases kind <;> cases kind' <;>
      simp only [NodeKind.bare, reduceCtorEq, NodeKind.suppress.injEq, NodeKind.positional.injEq,
        NodeKind.option.injEq, and_true] at contents <;>
      simp only [contents, bodyText_of_sameSyntax same, labelsText_of_sameSyntax same,
        typesText_of_sameSyntax same]

end Syntax

end Layout

/-- Trees of the same syntax are written the same. -/
theorem Tree.SameSyntax.format {a b : Tree} (same : a.SameSyntax b) : b.format = a.format := by
  -- The layout reads kinds and children, and neither tables nor back-references.
  have items : Layout.itemText b = Layout.itemText a :=
    funext fun id => Layout.itemText_of_sameSyntax same id
  have lists : b.children = a.children := funext fun id => same.children id
  simp only [Tree.format, same.root, items, lists]

end ArgSchema
