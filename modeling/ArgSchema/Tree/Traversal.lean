import ArgSchema.Tree.Basic

/-! Traversals: visitors meet the outermost nodes of some types, and what they return takes over. -/

namespace ArgSchema

/-- Why a traversal ends before its end. -/
inductive Interruption where
  /-- A tree operation was refused. -/
  | refused (error : TreeError)
  /-- More steps were needed than the traversal was given. -/
  | exhausted
deriving DecidableEq, Repr

/-- A computation on a tree and a state of its own, both of which it leaves behind if it fails. -/
abbrev Walk (state : Type) := ExceptT Interruption (StateM (Tree × state))

namespace Walk

variable {state value : Type}

/-- The tree as it is. -/
def tree : Walk state Tree := do return (← get).1

/-- Replaces the tree. -/
def setTree (tree : Tree) : Walk state Unit := modify fun (_, own) => (tree, own)

/-- The outcome of a tree operation. -/
def ofExcept (outcome : Except TreeError value) : Walk state value :=
  match outcome with
  | .ok found => return found
  | .error error => throw (.refused error)

/-- The live node of a handle. -/
def node (id : NodeId) : Walk state Node := do ofExcept ((← tree).node id)

/-- The place of a node among the children of another. -/
def place? (parent child : NodeId) : Walk state (Option Nat) := do
  return (← node parent).children.idxOf? child

/-- Changes the tree by an operation that may be refused. -/
def change (operation : Tree → Except TreeError Tree) : Walk state Unit := do
  setTree (← ofExcept (operation (← tree)))

/-- The walk's own state. -/
def own : Walk state state := do return (← get).2

/-- Replaces the walk's own state. -/
def setOwn (own : state) : Walk state Unit := modify fun (tree, _) => (tree, own)

/-- Runs a walk, keeping the tree and the state that it leaves. -/
def runOn (walk : Walk state value) (tree : Tree) (own : state) :
    Except Interruption value × Tree × state :=
  (ExceptT.run walk).run (tree, own)

end Walk

/-- What is done at a node: it may go on to the children of any node, and returns a replacement. -/
abbrev Visitor (state : Type) := NodeId → (NodeId → Walk state Unit) → Walk state NodeId

namespace Walk

variable {state : Type}

/-- Visits a node of one of some types, and goes on to the children of any other. -/
def meet (types : NodeTypes) (visit : Visitor state) (descend : NodeId → Walk state Unit)
    (id : NodeId) : Walk state NodeId := do
  if (← node id).type ∈ types then visit id descend
  else
    descend id
    return id

/-- Traverses the children of a node from one of them on, in a limited number of steps. -/
def traverseFrom (types : NodeTypes) (visit : Visitor state) :
    Nat → NodeId → Nat → Walk state Unit
  | 0, _, _ => throw .exhausted
  | budget + 1, id, index => do
    match (← node id).children[index]? with
    | none => return ()
    | some child =>
      let new ← meet types visit (fun below => traverseFrom types visit budget below 0) child
      match ← place? id child with
      | none =>
        -- The visitor took the child away, so the next sibling has its place.
        traverseFrom types visit budget id index
      | some place =>
        if new ≠ child then change (·.replaceChild id place new)
        -- A replacement that was an earlier sibling has moved the later ones.
        let next := ((← place? id new).map (· + 1)).getD place
        traverseFrom types visit budget id next

/-- Traverses the children of a node in order, and puts replacements in place. -/
def traverseChildren (budget : Nat) (types : NodeTypes) (visit : Visitor state) (id : NodeId) :
    Walk state Unit :=
  traverseFrom types visit budget id 0

/-- Traverses a node and what is below it; returns what should stand in its place. -/
def traverse (budget : Nat) (types : NodeTypes) (visit : Visitor state) (id : NodeId) :
    Walk state NodeId :=
  meet types visit (traverseChildren budget types visit) id

/-- Traverses a tree from its root, and makes a replacement of the root the new root. -/
def walkRoot (budget : Nat) (types : NodeTypes) (visit : Visitor state) : Walk state Unit := do
  match (← tree).root? with
  | none => return ()
  | some root =>
    let new ← traverse budget types visit root
    if new ≠ root then change (·.setRoot new)

end Walk

/-- Steps that suffice to traverse a tree if the visitor keeps its shape. -/
def Tree.budget (tree : Tree) : Nat := 2 * tree.nodes.size + 2

/-- Walks a tree with a visitor that keeps its shape, so that only refusals can end the walk. -/
def Tree.walk {state : Type} (tree : Tree) (types : NodeTypes) (visit : Visitor state)
    (own : state) : Except TreeError Unit × Tree × state :=
  match (Walk.walkRoot tree.budget types visit).runOn tree own with
  | (.ok (), left) => (.ok (), left)
  | (.error (.refused error), left) => (.error error, left)
  -- Never reached: no visitor that keeps the shape needs more steps than there are nodes, and the
  -- budget is larger. `Tree.Forest.runOn_eq_walk` is the proof.
  | (.error .exhausted, left) => (.ok (), left)

end ArgSchema
