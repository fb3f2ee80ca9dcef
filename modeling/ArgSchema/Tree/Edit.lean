import ArgSchema.Tree.Basic

/-! Edits of a tree, step by step: an edit that fails halfway leaves what it has done by then. -/

namespace ArgSchema

/-- A computation that changes a tree as it goes, and leaves the changed tree behind if it fails. -/
abbrev Editing := EStateM TreeError Tree

namespace Editing

/-- The live node of a handle. -/
def node (id : NodeId) : Editing Node := do ofExcept ((← get).node id)

/-- Changes the live node of a handle. -/
def change (id : NodeId) (f : Node → Node) : Editing Unit := do
  let _ ← node id
  modify (·.modify id f)

/-- Releases a node and everything below it. -/
def release (id : NodeId) : Editing Unit := modify (·.release id)

/-- Fails unless a node accepts another as its child. -/
def accept (above given : Node) : Editing Unit :=
  if given.type ∈ above.type.whitelist then return ()
  else throw (.illegalChild (.only above.type) (.only given.type) above.type.whitelist)

/-- Fails if a node has as many children as it accepts. -/
def room (above : Node) : Editing Unit :=
  match above.type.maxChildren? with
  | some max =>
    if max ≤ above.children.length then throw (.maximumChildren (.only above.type) max)
    else return ()
  | none => return ()

/-- Fails if a node has a parent. -/
def detached (id : NodeId) (given : Node) : Editing Unit :=
  if given.parent?.isSome then throw (.alreadyAttached id) else return ()

/-- Hangs a detached node below another as its last child. -/
def addChild (parent child : NodeId) : Editing Unit := do
  let given ← node child
  detached child given
  let above ← node parent
  room above
  accept above given
  change parent fun node => { node with children := node.children ++ [child] }
  change child fun node => { node with parent? := some parent }

/-- Takes a node from its parent, if it has one. -/
def detach (id : NodeId) : Editing Unit := do
  -- The parent is read before the link to it is cut.
  let given ← node id
  change id fun node => { node with parent? := none }
  match given.parent? with
  | none => return ()
  | some parent =>
    change parent fun node => { node with children := node.children.filter (· ≠ id) }

/-- Puts a node in place of a child and releases that child; the node leaves its own place first. -/
def replaceChild (parent : NodeId) (index : Nat) (new : NodeId) : Editing Unit := do
  let above ← node parent
  match above.children[index]? with
  | none => throw (.unknownNode new)
  | some old =>
    if old = new then return ()
    else
      let given ← node new
      accept above given
      detach new
      -- Leaving its place may have moved the child that is replaced, so that is looked for again.
      match (← node parent).children.idxOf? old with
      | none => throw (.unknownNode old)
      | some place =>
        change parent fun node => { node with children := node.children.set place new }
        change new fun node => { node with parent? := some parent }
        release old

/-- Makes a detached file the root, releasing the root before it. -/
def setRoot (id : NodeId) : Editing Unit := do
  let given ← node id
  if given.type ≠ .file then throw (.illegalRoot (.only given.type))
  else
    detached id given
    -- The new root is set before the former one is released.
    let before? := (← get).root?
    modify fun tree => { tree with root? := some id }
    match before? with
    | some old => if old = id then return () else release old
    | none => return ()

end Editing

/-- What a tree can be asked to change. -/
inductive Edit where
  /-- To hang a node below another. -/
  | addChild (parent child : NodeId)
  /-- To put a node in the place of a child. -/
  | replaceChild (parent : NodeId) (index : Nat) (new : NodeId)
  /-- To make a node the root. -/
  | setRoot (id : NodeId)
deriving DecidableEq, Repr

/-- The steps of an edit. -/
def Edit.steps : Edit → Editing Unit
  | .addChild parent child => Editing.addChild parent child
  | .replaceChild parent index new => Editing.replaceChild parent index new
  | .setRoot id => Editing.setRoot id

/-- Makes an edit: what it says, and the tree that it leaves. -/
def Tree.edit (tree : Tree) (edit : Edit) : EStateM.Result TreeError Tree Unit := edit.steps.run tree

end ArgSchema
