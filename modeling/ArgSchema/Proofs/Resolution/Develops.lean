import ArgSchema.Proofs.Resolution.Visits
import ArgSchema.Proofs.Walk.Develops
import ArgSchema.Resolution.Registration

/-! Passes over a tree: filling its tables and resolving its references develop it. -/

namespace ArgSchema

namespace Registration

/-- Clearing a table develops the tree. -/
theorem clearTable_develops (id : NodeId) (descend : NodeId → Walk Unit Unit)
    (before : Tree × Unit) : Walk.Develops (clearTable id descend) before :=
  .tree (.setTree (.setTable before.1 id SymbolTable.empty) (.pure id))

/-- Entering names develops the tree. -/
theorem enterNames_develops (namings : List Naming) (before : Tree × Registration) :
    Walk.Develops (enterNames namings) before :=
  .tree (.setTree (.table before.1 _) (.own (.setOwn (.pure ()))))

/-- Entering a property develops the tree. -/
theorem enterProperty_develops (id : NodeId) (before : Tree × Registration) :
    Walk.Develops (enterProperty id) before := by
  -- A property without a definition above it, or without a table there, changes nothing.
  unfold enterProperty
  refine .tree (.own ?_)
  split
  · exact .pure ()
  · split
    · exact .pure ()
    · exact .setTree (.setTable before.1 _ _) (.setOwn (.pure ()))

/-- Registering a node develops the tree if what is done below it does. -/
theorem register_develops (id : NodeId) (descend : NodeId → Walk Registration Unit)
    (deeper : ∀ below before, Walk.Develops (descend below) before)
    (before : Tree × Registration) : Walk.Develops (register id descend) before := by
  unfold register
  refine .node fun node _ => ?_
  -- A property is entered; a definition is, and then what is below it.
  split
  · exact .bind (enterProperty_develops id before) fun _ => .pure id
  · refine .tree (.bind (enterNames_develops _ before) fun _ => ?_)
    refine .own (.own (.setOwn (.bind (deeper id _) fun _ => ?_)))
    exact .own (.setOwn (.pure id))

/-- Merging the blocks that describe the schema develops the tree. -/
theorem mergeMeta_develops (tree : Tree) : tree.Develops (mergeMeta tree).1 := by
  -- One block changes the first one's table at most.
  have one : ∀ first progress later, Tree.Develops progress.1 (mergeInto first progress later).1 := by
    intro first progress later
    unfold mergeInto
    dsimp only
    split
    · exact .refl _
    · exact .setTable progress.1 first _
  -- All of them in turn, by induction on the blocks.
  have all : ∀ first (later : List (Entry × Nat)) progress, Tree.Develops progress.1
      (later.foldl (fun merged block => mergeInto first merged block.1) progress).1 := by
    intro first later
    induction later with
    | nil => exact fun progress => .refl _
    | cons entry later ih => exact fun progress => (one first progress entry.1).trans (ih _)
  unfold mergeMeta
  split
  · exact .refl tree
  · next first _ later _ => exact (all first.node later (tree, [])).trans (.table _ _)

end Registration

/-- Filling the tables develops the tree. -/
theorem Tree.buildSymbolTable_develops (tree : Tree) : tree.Develops tree.buildSymbolTable.next := by
  -- Tables are emptied, names entered and blocks merged, and each of the three develops the tree.
  have unnamed := Develops.table tree SymbolTable.empty
  have cleared := unnamed.trans (walk_develops NodeTypes.definitions
    (fun id descend _ => Registration.clearTable_develops id descend) _ ())
  unfold buildSymbolTable
  dsimp only
  split
  · next error left own same =>
    rw [same] at cleared
    exact cleared
  · next left own same =>
    rw [same] at cleared
    have filled := cleared.trans (walk_develops Registration.landmarks
      Registration.register_develops left Registration.start)
    split
    · next error left' own' same' =>
      rw [same'] at filled
      exact filled
    · next left' own' same' =>
      rw [same'] at filled
      exact filled.trans (Registration.mergeMeta_develops left')

namespace Resolution

/-- Resolving a list of types develops the tree. -/
theorem resolveTypes_develops (tree : Tree) (id : NodeId) :
    tree.Develops (resolveTypes tree id).1 := by
  -- Names in a list change no more than the table of top-level names and the slots of the list.
  obtain ⟨table, -, done⟩ := foldl_resolveName id (tree.identifiers id) tree [] []
  unfold resolveTypes
  rw [done]
  dsimp only
  refine (Tree.Develops.table tree table).trans (Tree.Develops.modifyKind _ id ?_)
  intro kind
  cases kind <;> rfl

/-- Resolving a reference develops the tree. -/
theorem resolveReference_develops (tree : Tree) (id : NodeId) (span : Span) (target : String)
    (category : Category) (property : String) :
    tree.Develops (resolveReference tree id span target category property).1 := by
  unfold resolveReference
  split
  · exact .refl tree
  · dsimp only
    -- Only links and notes are made, and neither is part of the syntax.
    split <;> dsimp only
    · refine (Tree.Develops.setTable tree _ _).trans (Tree.Develops.modifyKind _ id ?_)
      intro kind
      cases kind <;> rfl
    · refine Tree.Develops.modifyKind tree id ?_
      intro kind
      cases kind <;> rfl

/-- Resolving a node develops the tree. -/
theorem resolve_develops (id : NodeId) (descend : NodeId → Walk (List Diagnostic) Unit)
    (before : Tree × List Diagnostic) : Walk.Develops (resolve id descend) before := by
  -- Resolving a node changes links and tables, and no node goes.
  have one : ∀ node, before.1.Develops (resolveNode before.1 id node).1 := by
    intro node
    unfold resolveNode
    split
    · exact resolveTypes_develops before.1 id
    · exact resolveReference_develops before.1 id _ _ _ _
    · exact .refl _
  unfold resolve
  exact .node fun node _ => .tree (.setTree (one node) (.own (.setOwn (.pure id))))

end Resolution

/-- Resolving a tree's references develops it. -/
theorem Tree.checkReferences_develops (tree : Tree) : tree.Develops tree.checkReferences.next := by
  have left := walk_develops Resolution.referrers
    (fun id descend _ => Resolution.resolve_develops id descend) tree []
  unfold checkReferences
  -- The tree is the one that the walk leaves, however the walk ends.
  split
  · next error rest reports same =>
    rw [same] at left
    exact left
  · next rest reports same =>
    rw [same] at left
    exact left

end ArgSchema
