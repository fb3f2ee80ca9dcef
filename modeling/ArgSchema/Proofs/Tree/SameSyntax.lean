import ArgSchema.Proofs.Tree.Forest
import Mathlib.Data.List.Basic

/-! Trees of the same syntax: they differ in tables and in what names were resolved to, if at all. -/

namespace ArgSchema

/-- The contents without tables and resolved names. -/
def NodeKind.bare : NodeKind → NodeKind
  | .metadata _ => .metadata .empty
  | .typeDefinition _ => .typeDefinition .empty
  | .positional optional variadic _ => .positional optional variadic .empty
  | .option optional valueOptional variadic _ => .option optional valueOptional variadic .empty
  | .types _ => .types []
  | .reference target category property _ => .reference target category property none
  | other => other

/-- The node without tables and resolved names. -/
def Node.bare (node : Node) : Node := { node with kind := node.kind.bare }

namespace NodeKind

/-- Bare contents have the same type. -/
@[simp] theorem type_bare (kind : NodeKind) : kind.bare.type = kind.type := by
  cases kind <;> rfl

/-- Another table leaves the bare contents. -/
@[simp] theorem bare_withTable (kind : NodeKind) (table : SymbolTable) :
    (kind.withTable table).bare = kind.bare := by
  cases kind <;> rfl

end NodeKind

namespace Node

/-- A bare node has the same links. -/
@[simp] theorem links_bare (node : Node) : node.bare.links = node.links := by
  simp only [links, type, bare, NodeKind.type_bare]

/-- Nodes that are bare the same have the same links. -/
theorem links_eq_of_bare {a b : Node} (same : a.bare = b.bare) : a.links = b.links := by
  rw [← links_bare a, same, links_bare b]

/-- A node that is a name, with its category and place. -/
def named? (node : Node) : Option (String × Category × Span) :=
  match node.kind with
  | .identifier name category => some (name, category, node.span)
  | _ => none

/-- A node is a name if it is one when it is bare. -/
theorem named?_bare (node : Node) : node.bare.named? = node.named? := by
  obtain ⟨kind, span, parent, children⟩ := node
  cases kind <;> rfl

end Node

namespace Tree

/-- The names below a node are those of its children that are names. -/
theorem identifiers_eq_named? (tree : Tree) (id : NodeId) :
    tree.identifiers id = (tree.children id).filterMap fun child =>
      (tree.get? child).bind Node.named? := by
  -- Only the kinds that carry a name have an identifier, and that is what the node is asked.
  refine List.filterMap_congr fun child _ => ?_
  cases found : tree.get? child with
  | none => rfl
  | some node =>
    obtain ⟨kind, span, parent, children⟩ := node
    cases kind <;> rfl

/-- Baring a node that was looked up keeps the name that it is. -/
theorem bind_named?_bare (node? : Option Node) :
    (node?.map Node.bare).bind Node.named? = node?.bind Node.named? := by
  cases node? with
  | none => rfl
  | some node => exact node.named?_bare

/-- Two trees have the same root and the same nodes, apart from tables and resolved names. -/
structure SameSyntax (a b : Tree) : Prop where
  /-- Both trees have the same root. -/
  root : a.root? = b.root?
  /-- Each handle names nodes that are bare the same. -/
  nodes : ∀ id, (a.get? id).map Node.bare = (b.get? id).map Node.bare

namespace SameSyntax

variable {a b c : Tree}

/-- Every tree has its own syntax. -/
theorem refl (tree : Tree) : SameSyntax tree tree := ⟨rfl, fun _ => rfl⟩

/-- Having the same syntax goes both ways. -/
theorem symm (same : SameSyntax a b) : SameSyntax b a :=
  ⟨same.root.symm, fun id => (same.nodes id).symm⟩

/-- Having the same syntax carries over. -/
theorem trans (first : SameSyntax a b) (second : SameSyntax b c) : SameSyntax a c :=
  ⟨first.root.trans second.root, fun id => (first.nodes id).trans (second.nodes id)⟩

/-- A live node of one tree is live in the other, and bare the same. -/
theorem get? (same : SameSyntax a b) {id : NodeId} {node : Node} (found : a.get? id = some node) :
    ∃ other, b.get? id = some other ∧ other.bare = node.bare := by
  -- The bare nodes are the same, so if one is there the other one is.
  have equal := same.nodes id
  rw [found, Option.map_some] at equal
  exact Option.map_eq_some_iff.mp equal.symm

/-- Trees of the same syntax have the same links. -/
theorem links (same : SameSyntax a b) : SameLinks a b where
  root := same.root
  links id := by
    -- Links are those of the bare node.
    have equal := congrArg (Option.map Node.links) (same.nodes id)
    simpa only [Option.map_map, Function.comp_def, Node.links_bare] using equal

/-- Changing no more than tables and resolved names keeps the syntax. -/
theorem modifyKind (tree : Tree) (id : NodeId) {f : NodeKind → NodeKind}
    (kept : ∀ kind, (f kind).bare = kind.bare) : SameSyntax tree (tree.modifyKind id f) := by
  -- One node is replaced, by a kind that differs in nothing the syntax shows.
  refine ⟨rfl, fun other => ?_⟩
  rw [Tree.modifyKind, get?_modify]
  split
  · cases tree.get? other <;> simp [Node.bare, kept]
  · rfl

/-- Replacing a definition's table keeps the syntax. -/
theorem setTable (tree : Tree) (id : NodeId) (table : SymbolTable) :
    SameSyntax tree (tree.setTable id table) :=
  modifyKind tree id fun kind => kind.bare_withTable table

/-- Replacing the table of top-level names keeps the syntax. -/
theorem table (tree : Tree) (table : SymbolTable) : SameSyntax tree { tree with table := table } :=
  ⟨rfl, fun _ => rfl⟩

/-- A node has the same children in both trees. -/
theorem children (same : SameSyntax a b) (id : NodeId) : b.children id = a.children id := by
  -- Children are links, and these are the same.
  have links := same.links.links id
  unfold Tree.children
  cases upper : a.get? id <;> cases lower : b.get? id <;> simp_all [Node.links]

/-- A node has the same type in both trees. -/
theorem isOfType (same : SameSyntax a b) (types : NodeTypes) (id : NodeId) :
    b.isOfType types id = a.isOfType types id := by
  have links := same.links.links id
  unfold Tree.isOfType
  cases upper : a.get? id <;> cases lower : b.get? id <;> simp_all [Node.links]

/-- A node has the same children of some types in both trees. -/
theorem childrenOfType (same : SameSyntax a b) (id : NodeId) (types : NodeTypes) :
    b.childrenOfType id types = a.childrenOfType id types := by
  rw [Tree.childrenOfType, same.children, Tree.childrenOfType]
  exact List.filter_congr fun child _ => same.isOfType types child

/-- The names below a node are the same in both trees. -/
theorem identifiers (same : SameSyntax a b) (id : NodeId) : b.identifiers id = a.identifiers id := by
  rw [identifiers_eq_named?, identifiers_eq_named?, same.children]
  refine List.filterMap_congr fun child _ => ?_
  -- Names are not touched by baring, so they can be compared on bare nodes.
  rw [← bind_named?_bare, ← same.nodes child, bind_named?_bare]

end SameSyntax

end Tree

end ArgSchema
