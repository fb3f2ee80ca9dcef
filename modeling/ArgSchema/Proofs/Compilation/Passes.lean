import ArgSchema.Proofs.Registration.Merged
import ArgSchema.Proofs.Resolution.Result

/-! The passes over a tree: each of their walks ends, and more steps than the tree allows change nothing. -/

namespace ArgSchema

/-- A walk comes to its end, however many more steps than the tree's own budget it is allowed. -/
def Tree.WalkEnds {state : Type} (tree : Tree) (types : NodeTypes) (visitor : Visitor state)
    (own : state) : Prop :=
  ∃ left, ∀ budget, tree.budget ≤ budget →
    (Walk.walkRoot budget types visitor).runOn tree own = (.ok (), left)

section Walk

variable {state : Type} {tree : Tree} {types : NodeTypes} {visitor : Visitor state}
  {visit : NodeId → (Tree × state → Tree × state) → Tree × state → Tree × state}

/-- A walk of a well-formed tree ends if its visitor keeps the shape, and keeps the syntax. -/
theorem Tree.Forest.walkEnds (forest : tree.Forest) (steady : Walk.Steady tree types visitor visit)
    (own : state) : tree.WalkEnds types visitor own ∧ (tree.walk types visitor own).1 = .ok () ∧
      tree.SameSyntax (tree.walk types visitor own).2.1 := by
  cases rooted : tree.root? with
  | none =>
    -- There is nothing to walk.
    have runs := fun budget => Walk.runs_walkRoot_rootless rooted budget types visitor own
    rw [Tree.walk_of_runs (runs tree.budget)]
    exact ⟨⟨_, fun budget _ => runs budget⟩, rfl, .refl tree⟩
  | some root =>
    obtain ⟨node, found, -⟩ := forest.root_file rooted
    obtain ⟨growth, grows, rfl⟩ := Tree.exists_growth forest found
    -- A step for every node suffices, and the tree's budget and all larger ones have that many.
    have runs := fun {budget} (enough : tree.budget ≤ budget) =>
      Walk.runs_walkRoot steady forest rooted grows own (Nat.le_trans tree.size_le_budget enough)
    obtain ⟨ran, kept⟩ := runs (Nat.le_refl _)
    rw [Tree.walk_of_runs ran]
    exact ⟨⟨_, fun budget enough => (runs enough).1⟩, rfl, kept⟩

/-- A walk of a well-formed tree is never out of steps if its visitor keeps the shape: what it comes to
is what its steps come to. -/
theorem Tree.Forest.runOn_eq_walk (forest : tree.Forest)
    (steady : Walk.Steady tree types visitor visit) (own : state) :
    (Walk.walkRoot tree.budget types visitor).runOn tree own =
      ((tree.walk types visitor own).1.mapError .refused, (tree.walk types visitor own).2) := by
  -- Any budget of at least the tree's own is enough for the walk, and so is that one.
  obtain ⟨⟨left, ends⟩, -⟩ := forest.walkEnds steady own
  have ran := ends tree.budget (Nat.le_refl _)
  unfold Tree.walk
  rw [ran]
  rfl

end Walk

/-- Both passes over a tree come to their ends. -/
structure Tree.PassesEnd (tree : Tree) : Prop where
  /-- The walk that empties the tables ends. -/
  clears : { tree with table := .empty }.WalkEnds NodeTypes.definitions Registration.clearTable ()
  /-- The walk that fills them ends. -/
  registers : ({ tree with table := .empty }.walk NodeTypes.definitions
      Registration.clearTable ()).2.1.WalkEnds Registration.landmarks Registration.register
    Registration.start
  /-- No walk of the first pass is refused. -/
  registered : tree.buildSymbolTable.result = .ok ()
  /-- The walk that looks names up ends. -/
  resolves : tree.buildSymbolTable.next.WalkEnds Resolution.referrers Resolution.resolve []
  /-- It is not refused either. -/
  resolved : tree.buildSymbolTable.next.checkReferences.result = .ok ()

/-- Registration keeps the syntax of a well-formed tree. -/
theorem Tree.Forest.sameSyntax_buildSymbolTable {tree : Tree} (forest : tree.Forest) :
    tree.buildSymbolTable.result = .ok () ∧ tree.SameSyntax tree.buildSymbolTable.next := by
  -- Without a root nothing is registered, and with one the steps keep the syntax.
  cases rooted : tree.root? with
  | none =>
    rw [tree.buildSymbolTable_rootless rooted]
    exact ⟨rfl, .table tree .empty⟩
  | some root =>
    obtain ⟨done, registers⟩ := tree.buildSymbolTable_registers forest rooted
    exact ⟨done, registers.same⟩

/-- Both passes over a well-formed tree come to their ends. -/
theorem Tree.Forest.passesEnd {tree : Tree} (forest : tree.Forest) : tree.PassesEnd := by
  -- Every walk leaves the syntax for the next one, and with it the forest.
  have unnamed := forest.congr (SameSyntax.table tree .empty).links
  obtain ⟨clears, -, cleared⟩ := unnamed.walkEnds (Registration.steady_clearTable _) ()
  obtain ⟨registers, -, -⟩ :=
    (unnamed.congr cleared.links).walkEnds (Registration.steady_register _) Registration.start
  obtain ⟨registered, filled⟩ := forest.sameSyntax_buildSymbolTable
  obtain ⟨resolves, resolved, -⟩ :=
    (forest.congr filled.links).walkEnds (Resolution.steady_resolve _) []
  refine ⟨clears, registers, registered, resolves, ?_⟩
  -- The second pass is refused only if its walk is.
  unfold checkReferences
  split
  · next error left own same =>
    rw [same] at resolved
    cases resolved
  · rfl

end ArgSchema
