import ArgSchema.Proofs.Compilation.Passes
import ArgSchema.Proofs.Layout.SameSyntax
import ArgSchema.Proofs.Registration.Anew
import ArgSchema.Proofs.Resolution.Repeated
import ArgSchema.Proofs.Resolution.Uses
import ArgSchema.Proofs.Walk.Operations

/-! The frame of the passes: they succeed on every tree, and change no more than tables and links. -/

namespace ArgSchema

namespace Tree

/-- A node of some types that hangs below the root. -/
def Reaches (tree : Tree) (types : NodeTypes) (id : NodeId) : Prop :=
  tree.isOfType types id = true ∧ ∃ root, tree.root? = some root ∧ tree.Under root id

/-- The definitions of a tree are all that hang below the root. -/
theorem Forest.mem_toplevel_iff {tree : Tree} (forest : tree.Forest) {id : NodeId} :
    id ∈ tree.toplevel ↔ tree.Reaches NodeTypes.definitions id := by
  constructor
  · intro member
    refine ⟨isOfType_of_mem_toplevel member, ?_⟩
    -- Without a root there are no definitions.
    unfold toplevel at member
    cases rooted : tree.root? with
    | none => simp [rooted] at member
    | some root =>
      rw [rooted] at member
      exact ⟨root, rfl, forest.under_of_mem_definitions rooted member⟩
  · rintro ⟨definition, root, rooted, reached⟩
    have same : tree.toplevel = tree.definitions root := by simp [toplevel, rooted]
    exact same ▸ forest.mem_definitions_of_under rooted reached definition

/-- A tree that differs from another at most in the table of top-level names, and in the tables of the
definitions below the root. -/
structure Retabled (before after : Tree) : Prop where
  /-- The root and the live nodes are the same, but for tables and what names were resolved to. -/
  syntactic : before.SameSyntax after
  /-- No node was made. -/
  size : after.nodes.size = before.nodes.size
  /-- What names were resolved to is the same. -/
  slots : ∀ id, after.slots id = before.slots id
  /-- All nodes are the same, but the definitions below the root. -/
  others : ∀ id, ¬before.Reaches NodeTypes.definitions id → after.get? id = before.get? id

/-- A tree that differs from another at most in what refers to the names in the tables, and in what the
type lists and references below the root were resolved to. -/
structure Relinked (before after : Tree) : Prop where
  /-- The root and the live nodes are the same, but for tables and what names were resolved to. -/
  syntactic : before.SameSyntax after
  /-- No node was made. -/
  size : after.nodes.size = before.nodes.size
  /-- The top-level names are the same. -/
  names : before.table.SameNames after.table
  /-- The names of properties are the same in each definition. -/
  properties : ∀ id, Option.Rel SymbolTable.SameNames (before.table? id) (after.table? id)
  /-- What names were resolved to is the same, but in type lists and references below the root. -/
  slots : ∀ id, ¬before.Reaches Resolution.referrers id → after.slots id = before.slots id

/-- Setting tables of some definitions leaves all other nodes. -/
theorem Retables.get? {ids : List NodeId} {tree after : Tree} (retables : Retables ids tree after)
    {id : NodeId} (absent : id ∉ ids) : after.get? id = tree.get? id := by
  -- By induction on the changes of tables, none of which is the node's.
  induction retables with
  | refl => rfl
  | names _ _ ih => exact ih
  | @table middle own table _ member ih =>
    have apart : id ≠ own := fun same => absent (same ▸ member)
    rw [setTable, modifyKind, get?_modify, if_neg apart, ih]

/-- A tree differs in nothing from itself. -/
theorem Relinked.refl (tree : Tree) : tree.Relinked tree where
  syntactic := .refl tree
  size := rfl
  names := .refl tree.table
  properties id := by
    -- Each table is the same as itself.
    cases tree.table? id with
    | none => exact .none
    | some table => exact .some (.refl table)
  slots _ _ := rfl

end Tree

/-- Both passes succeed on any reachable tree. Registration changes at most the table of top-level names
and the tables of the definitions below the root, and resolution at most what refers to the names in the
tables and what the type lists and references below the root were resolved to. So the tree is written as
before. -/
theorem Tree.passes_frame {tree : Tree} (reachable : tree.Reachable) :
    let built := tree.buildSymbolTable
    let checked := tree.checkReferences
    (built.result = .ok () ∧ tree.Retabled built.next ∧ built.next.format = tree.format) ∧
      checked.result = .ok () ∧ tree.Relinked checked.next ∧ checked.next.format = tree.format := by
  intro built checked
  have forest := reachable.forest
  refine ⟨?_, ?_⟩
  · -- Registration sets tables of definitions and nothing else.
    obtain ⟨done, same⟩ := forest.sameSyntax_buildSymbolTable
    have retables := forest.buildSymbolTable_retables
    exact ⟨done, ⟨same, retables.confined.size, retables.slots, fun id other =>
      retables.get? fun member => other (forest.mem_toplevel_iff.mp member)⟩, same.format⟩
  · obtain ⟨done, scopes⟩ := forest.sameScopes_checkReferences
    refine ⟨done, ?_, scopes.syntactic.format⟩
    cases rooted : tree.root? with
    | none =>
      -- Without a root nothing is resolved.
      have same : checked.next = tree := congrArg Reading.next (checkReferences_rootless rooted)
      rw [same]
      exact .refl tree
    | some root =>
      obtain ⟨node, found, -⟩ := forest.root_file rooted
      obtain ⟨growth, grows, rfl⟩ := exists_growth forest found
      obtain ⟨names, properties⟩ := checkReferences_tables forest rooted grows
      -- Tables are only added references to, and links are those of visited nodes.
      refine ⟨scopes.syntactic, ?_, names ▸ .addReferences _ tree.table, fun id => ?_, fun id other => ?_⟩
      · exact (forest.confined_checkReferences fun entry member =>
          List.mem_map_of_mem (f := (·.node)) member).size
      · -- Of the properties of a definition only what refers to them grows.
        rw [properties id]
        cases tree.table? id with
        | none => exact .none
        | some table => exact .some (.addReferences _ table)
      · -- A link that was set belongs to a visited node, which hangs below the root.
        refine (checkReferences_slots forest rooted id).2 fun resolved => other ?_
        exact ⟨resolved.2.1, growth.id, rooted, resolved.1⟩

namespace Walk

/-- A type list is linked to its type, which is noted there, and the text of the tree stays. -/
theorem frame_of_linked_type :
    ∃ tree : Tree, tree.Reachable ∧ tree.slots ⟨5⟩ = [] ∧
      tree.checkReferences.next.slots ⟨5⟩ = [some ⟨1⟩] ∧
      tree.table.entries.map (·.references) = [[], []] ∧
      tree.checkReferences.next.table.entries.map (·.references) = [[⟨5⟩], []] ∧
      tree.Relinked tree.checkReferences.next ∧
      tree.checkReferences.next.format = tree.format := by
  -- The argument in the tree has a type that is defined, and it is registered but not linked yet.
  let fill : Walk Unit Unit := do
    let file ← alloc .file default
    let type ← alloc (.typeDefinition .empty) default
    let name ← alloc (.identifier "t" .type) default
    let argument ← alloc (.positional false false .empty) default
    let label ← alloc (.identifier "x" .identifier) default
    let types ← alloc (.types []) default
    let used ← alloc (.identifier "t" .type) default
    change (·.addChild file type)
    change (·.addChild type name)
    change (·.addChild file argument)
    change (·.addChild argument label)
    change (·.addChild argument types)
    change (·.addChild types used)
    change (·.setRoot file)
  let tree := ((fill >>= fun _ => pass Tree.buildSymbolTable).after (Tree.empty, ())).1
  have reachable : tree.Reachable := by
    refine ⟨Unit, _, _, (), .bind ?_ fun _ => .buildSymbolTable, rfl⟩
    exact .bind (.alloc _ _) fun file => .bind (.alloc _ _) fun type =>
      .bind (.alloc _ _) fun name => .bind (.alloc _ _) fun argument =>
      .bind (.alloc _ _) fun label => .bind (.alloc _ _) fun types =>
      .bind (.alloc _ _) fun used => .bind (.addChild _ _) fun _ =>
      .bind (.addChild _ _) fun _ => .bind (.addChild _ _) fun _ =>
      .bind (.addChild _ _) fun _ => .bind (.addChild _ _) fun _ =>
      .bind (.addChild _ _) fun _ => .setRoot _
  -- The names are registered, so that the list finds its type.
  have linked : (tree.slots ⟨5⟩, tree.checkReferences.next.slots ⟨5⟩) = ([], [some ⟨1⟩]) := by
    decide +kernel
  have noted : (tree.table.entries.map (·.references),
      tree.checkReferences.next.table.entries.map (·.references)) = ([[], []], [[⟨5⟩], []]) := by
    decide +kernel
  obtain ⟨empty, full⟩ := Prod.mk.inj linked
  obtain ⟨unused, used⟩ := Prod.mk.inj noted
  obtain ⟨-, -, relinked, text⟩ := Tree.passes_frame reachable
  exact ⟨tree, reachable, empty, full, unused, used, relinked, text⟩

end Walk

end ArgSchema
