import ArgSchema.Proofs.Tree.Growth
import ArgSchema.Proofs.Tree.SameSyntax
import ArgSchema.Proofs.Walk.Runs

/-! Walks that keep a tree's shape: they visit what they should in document order, and never fail. -/

namespace ArgSchema

namespace Growth

variable {S : Type}

mutual

/-- What is done to a growth when the outermost handles that pass a test are visited. -/
def fold (stops : NodeId → Bool) (visit : NodeId → (S → S) → S → S) : Growth → S → S
  | .node id children, s =>
    if stops id then visit id (foldAll stops visit children) s else foldAll stops visit children s

/-- What is done to growths, one after the other. -/
def foldAll (stops : NodeId → Bool) (visit : NodeId → (S → S) → S → S) : List Growth → S → S
  | [], s => s
  | growth :: rest, s => foldAll stops visit rest (fold stops visit growth s)

end

end Growth

namespace Walk

variable {state : Type}

/-- What a walk does to a tree and a state, if it keeps the syntax of a tree. -/
def Keeps (base : Tree) (walk : Walk state Unit) (effect : Tree × state → Tree × state) : Prop :=
  ∀ before, base.SameSyntax before.1 →
    Runs walk before () (effect before) ∧ base.SameSyntax (effect before).1

/-- A visitor that leaves every node in its place and keeps the syntax of a tree. -/
def Steady (base : Tree) (types : NodeTypes) (visitor : Visitor state)
    (visit : NodeId → (Tree × state → Tree × state) → Tree × state → Tree × state) : Prop :=
  ∀ {id descend inner}, base.isOfType types id = true → Keeps base (descend id) inner →
    ∀ before, base.SameSyntax before.1 →
      Runs (visitor id descend) before id (visit id inner before) ∧
        base.SameSyntax (visit id inner before).1

variable {base : Tree} {types : NodeTypes} {visitor : Visitor state}
  {visit : NodeId → (Tree × state → Tree × state) → Tree × state → Tree × state}

/-- Meeting a growth visits its top, or goes on to what grows below. -/
theorem runs_meet (steady : Steady base types visitor visit) {growth : Growth}
    (grows : base.Grows growth) (descend : NodeId → Walk state Unit)
    (deeper : Keeps base (descend growth.id)
      (Growth.foldAll (base.isOfType types) visit growth.children))
    {before : Tree × state} (same : base.SameSyntax before.1) :
    Runs (meet types visitor descend growth.id) before growth.id
        (growth.fold (base.isOfType types) visit before) ∧
      base.SameSyntax (growth.fold (base.isOfType types) visit before).1 := by
  obtain ⟨node, found, _⟩ := grows.get?
  obtain ⟨node', live, type, _⟩ := same.links.get? found
  have stops : base.isOfType types growth.id = decide (node'.type ∈ types) := by
    rw [Tree.isOfType_of_get? found, type]
  cases growth with
  | node id children =>
    simp only [Growth.id, Growth.children] at *
    simp only [Growth.fold, stops, decide_eq_true_eq]
    -- The visitor decides how the walk goes on below a node that it visits.
    by_cases member : node'.type ∈ types
    · obtain ⟨ran, kept⟩ := steady (by rw [stops]; simp [member]) deeper before same
      simp only [member, if_true]
      refine ⟨(runs_node live).bind ?_, kept⟩
      simpa [member] using ran
    · obtain ⟨ran, kept⟩ := deeper before same
      simp only [member, if_false]
      refine ⟨(runs_node live).bind ?_, kept⟩
      simp only [member, if_false]
      exact ran.bind (runs_pure id _)

/-- With enough steps, the children of a node from some place on are visited in order. -/
theorem runs_traverseFrom (steady : Steady base types visitor visit) (forest : base.Forest) :
    ∀ (budget : Nat) (done : List NodeId) {id : NodeId} {node : Node} {growths : List Growth},
      base.get? id = some node → node.children = done ++ growths.map Growth.id →
      base.GrowsAll growths → (Growth.idsAll growths).length < budget →
      Keeps base (traverseFrom types visitor budget id done.length)
        (Growth.foldAll (base.isOfType types) visit growths)
  | 0, _, _, _, _, _, _, _, short => by omega
  | budget + 1, done, id, node, growths, found, children, grows, short => by
    intro before same
    obtain ⟨node', live, _, _, children'⟩ := same.links.get? found
    cases growths with
    | nil =>
      have none : node'.children[done.length]? = none := by simp [children', children]
      refine ⟨(runs_node live).bind ?_, same⟩
      simp only [none]
      exact runs_pure () before
    | cons growth rest =>
      have listed : node'.children[done.length]? = some growth.id := by simp [children', children]
      simp only [Tree.GrowsAll] at grows
      obtain ⟨first, others⟩ := grows
      obtain ⟨upper, top, below, all⟩ := first.get?
      have size : growth.ids.length = 1 + (Growth.idsAll growth.children).length := by
        cases growth
        simp [Growth.ids, Growth.children, Nat.add_comm]
      simp only [Growth.idsAll, List.length_append] at short
      -- What grows below the child is visited with one step fewer.
      have deeper := runs_traverseFrom steady forest budget [] top below
        (Tree.growsAll_iff.mpr all) (by omega)
      obtain ⟨ran, kept⟩ := runs_meet steady first
        (fun below => traverseFrom types visitor budget below 0) deeper same
      have further := runs_traverseFrom steady forest budget (done ++ [growth.id]) found
        (by simp [children]) others (by omega)
      obtain ⟨went, kept'⟩ := further _ kept
      obtain ⟨node'', live', _, _, children''⟩ := kept.links.get? found
      have once := forest.once found
      rw [children, List.map_cons] at once
      have place : node''.children.idxOf? growth.id = some done.length := by
        rw [children'', children, List.map_cons]
        exact idxOf?_append_cons once
      refine ⟨(runs_node live).bind ?_, kept'⟩
      simp only [listed]
      refine ran.bind ((runs_place? live').bind ?_)
      simp only [place, ne_eq, not_true_eq_false, if_false]
      refine (runs_place? live').bind ?_
      simpa [place, Growth.foldAll] using went

/-- With a step for every node, a walk from the root visits the tree below it. -/
theorem runs_walkRoot (steady : Steady base types visitor visit) (forest : base.Forest)
    {growth : Growth} (rooted : base.root? = some growth.id) (grows : base.Grows growth) (own : state)
    {budget : Nat} (enough : base.nodes.size ≤ budget) :
    Runs (walkRoot budget types visitor) (base, own) ()
        (growth.fold (base.isOfType types) visit (base, own)) ∧
      base.SameSyntax (growth.fold (base.isOfType types) visit (base, own)).1 := by
  obtain ⟨upper, top, below, all⟩ := grows.get?
  have counted := grows.length_le forest
  have size : growth.ids.length = 1 + (Growth.idsAll growth.children).length := by
    cases growth
    simp [Growth.ids, Growth.children, Nat.add_comm]
  -- No more steps are needed than there are nodes.
  have deeper := runs_traverseFrom steady forest budget [] top below
    (Tree.growsAll_iff.mpr all) (by omega)
  obtain ⟨ran, kept⟩ := runs_meet steady grows
    (fun below => traverseFrom types visitor budget below 0) deeper
    (show base.SameSyntax (base, own).1 from .refl base)
  refine ⟨(runs_tree _).bind ?_, kept⟩
  simp only [rooted]
  refine Runs.bind ran ?_
  simp only [ne_eq, not_true_eq_false, if_false]
  exact runs_pure () _

/-- Without a root there is nothing to walk. -/
theorem runs_walkRoot_rootless (rootless : base.root? = none) (budget : Nat) (types : NodeTypes)
    (visitor : Visitor state) (own : state) :
    Runs (walkRoot budget types visitor) (base, own) () (base, own) := by
  -- The root is looked up first, and the walk ends when there is none.
  refine (runs_tree _).bind ?_
  simp only [rootless]
  exact runs_pure () _

end Walk

/-- The budget of a tree has a step for every node. -/
theorem Tree.size_le_budget (tree : Tree) : tree.nodes.size ≤ tree.budget := by
  unfold budget
  omega

/-- A walk that ends within the budget of a tree is the walk of the tree. -/
theorem Tree.walk_of_runs {state : Type} {tree : Tree} {types : NodeTypes} {visitor : Visitor state}
    {own : state} {left : Tree × state}
    (runs : Walk.Runs (Walk.walkRoot tree.budget types visitor) (tree, own) () left) :
    tree.walk types visitor own = (.ok (), left) := by
  unfold Walk.Runs at runs
  simp only [Tree.walk, Walk.runOn, runs]

/-- A walk with a visitor that keeps the shape visits the tree below the root, and never fails. -/
theorem Tree.walk_eq_fold {state : Type} {tree : Tree} {types : NodeTypes}
    {visitor : Visitor state}
    {visit : NodeId → (Tree × state → Tree × state) → Tree × state → Tree × state}
    (steady : Walk.Steady tree types visitor visit) (forest : tree.Forest) {growth : Growth}
    (rooted : tree.root? = some growth.id) (grows : tree.Grows growth) (own : state) :
    tree.walk types visitor own =
        (.ok (), growth.fold (tree.isOfType types) visit (tree, own)) ∧
      tree.SameSyntax (growth.fold (tree.isOfType types) visit (tree, own)).1 := by
  obtain ⟨ran, kept⟩ := Walk.runs_walkRoot steady forest rooted grows own tree.size_le_budget
  exact ⟨Tree.walk_of_runs ran, kept⟩

/-- A walk of a tree without root does nothing. -/
theorem Tree.walk_rootless {state : Type} {tree : Tree} (rootless : tree.root? = none)
    (types : NodeTypes) (visitor : Visitor state) (own : state) :
    tree.walk types visitor own = (.ok (), tree, own) :=
  Tree.walk_of_runs (Walk.runs_walkRoot_rootless rootless tree.budget types visitor own)

end ArgSchema
