import ArgSchema.Tree.Node

/-! Schema trees: nodes known by handles, and the few operations that change how they hang together. -/

namespace ArgSchema

/-- Nodes that were made, the root among them, and the table of top-level names. -/
structure Tree where
  /-- The nodes in the order they were made, with nothing in place of released ones. -/
  nodes : Array (Option Node)
  /-- The file that the tree describes. -/
  root? : Option NodeId
  /-- Names of the top-level definitions. -/
  table : SymbolTable
deriving DecidableEq, Repr

namespace Tree

/-- A tree without nodes. -/
def empty : Tree := ⟨#[], none, SymbolTable.empty⟩

/-- The live node of a handle. -/
def get? (tree : Tree) (id : NodeId) : Option Node := tree.nodes[id.index]?.join

/-- The contents of the live node of a handle. -/
def kind? (tree : Tree) (id : NodeId) : Option NodeKind := (tree.get? id).map fun node => node.kind

/-- The live node of a handle, or the error that there is none. -/
def node (tree : Tree) (id : NodeId) : Except TreeError Node :=
  match tree.get? id with
  | some node => .ok node
  | none => .error (.unknownNode id)

/-- Whether a handle names a live node. -/
def contains (tree : Tree) (id : NodeId) : Bool := (tree.get? id).isSome

/-- Number of live nodes. -/
def size (tree : Tree) : Nat := tree.nodes.countP (·.isSome)

/-- The children of a node, none if it is not live. -/
def children (tree : Tree) (id : NodeId) : List NodeId :=
  ((tree.get? id).map (·.children)).getD []

/-- The parent of a live node. -/
def parent? (tree : Tree) (id : NodeId) : Option NodeId := (tree.get? id).bind (·.parent?)

/-- Whether a handle names a live node of one of some types. -/
def isOfType (tree : Tree) (types : NodeTypes) (id : NodeId) : Bool :=
  (tree.get? id).any (·.type ∈ types)

/-- The children of a node that are of some types, in order. -/
def childrenOfType (tree : Tree) (id : NodeId) (types : NodeTypes) : List NodeId :=
  (tree.children id).filter (tree.isOfType types)

/-- The first child of a node that is of some types. -/
def findChild? (tree : Tree) (id : NodeId) (types : NodeTypes) : Option NodeId :=
  (tree.childrenOfType id types).head?

/-- The names that are children of a node, with their categories and places. -/
def identifiers (tree : Tree) (id : NodeId) : List (String × Category × Span) :=
  (tree.children id).filterMap fun child =>
    match tree.get? child with
    | some ⟨.identifier name category, span, _, _⟩ => some (name, category, span)
    | _ => none

/-- The table of properties of a definition. -/
def table? (tree : Tree) (id : NodeId) : Option SymbolTable :=
  (tree.get? id).bind (·.kind.table?)

/-- The tree with a live node changed. -/
def modify (tree : Tree) (id : NodeId) (f : Node → Node) : Tree :=
  { tree with nodes := tree.nodes.modify id.index (·.map f) }

/-- The tree with the contents of a live node changed. -/
def modifyKind (tree : Tree) (id : NodeId) (f : NodeKind → NodeKind) : Tree :=
  tree.modify id fun node => { node with kind := f node.kind }

/-- The tree with the table of a definition replaced. -/
def setTable (tree : Tree) (id : NodeId) (table : SymbolTable) : Tree :=
  tree.modifyKind id (·.withTable table)

/-- The handle that the next node gets. -/
def nextId (tree : Tree) : NodeId := ⟨tree.nodes.size⟩

/-- The tree with one more node, which hangs nowhere; its handle is the next one. -/
def alloc (tree : Tree) (kind : NodeKind) (span : Span) : Tree :=
  { tree with nodes := tree.nodes.push (some ⟨kind, span, none, []⟩) }

/-- Releasing a live node leaves fewer of them. -/
theorem countP_release {nodes : Array (Option Node)} {index : Nat} {node : Node}
    (found : nodes[index]? = some (some node)) :
    (nodes.setIfInBounds index none).countP (·.isSome) < nodes.countP (·.isSome) := by
  obtain ⟨inside, live⟩ := Array.getElem?_eq_some_iff.mp found
  have counted : 0 < nodes.countP (·.isSome) :=
    Array.countP_pos_iff.mpr ⟨nodes[index], Array.getElem_mem inside, by simp [live]⟩
  -- The slot held a live node before and holds none afterwards.
  rw [Array.setIfInBounds_def, dif_pos inside, Array.countP_set]
  simp only [live, Option.isSome_some, Option.isSome_none, if_true, Bool.false_eq_true, if_false]
  omega

/-- Releases nodes and everything below them. -/
def releaseAll (nodes : Array (Option Node)) (pending : List NodeId) : Array (Option Node) :=
  match pending with
  | [] => nodes
  | id :: rest =>
    match _found : nodes[id.index]? with
    | some (some node) => releaseAll (nodes.setIfInBounds id.index none) (node.children ++ rest)
    -- A node that is gone has no children left to release.
    | _ => releaseAll nodes rest
termination_by (nodes.countP (·.isSome), pending.length)
decreasing_by
  · -- One live node fewer makes up for its children.
    exact .left _ _ (countP_release _found)
  · exact .right _ (Nat.lt_succ_self _)

/-- The tree without a node and everything below it. -/
def release (tree : Tree) (id : NodeId) : Tree :=
  { tree with nodes := releaseAll tree.nodes [id] }

/-- Makes a detached file the root, releasing the root before it. -/
def setRoot (tree : Tree) (id : NodeId) : Except TreeError Tree :=
  match tree.get? id with
  | none => .error (.unknownNode id)
  | some node =>
    if node.type ≠ .file then .error (.illegalRoot (.only node.type))
    else if node.parent?.isSome then .error (.alreadyAttached id)
    else
      -- The former root goes with everything below it.
      let released := match tree.root? with
        | some old => if old = id then tree else tree.release old
        | none => tree
      .ok { released with root? := some id }

/-- Hangs a detached node below another as its last child. -/
def addChild (tree : Tree) (parent child : NodeId) : Except TreeError Tree :=
  match tree.get? child, tree.get? parent with
  | none, _ => .error (.unknownNode child)
  -- A child that has a parent must be detached first.
  | some given, above? =>
    if given.parent?.isSome then .error (.alreadyAttached child)
    else match above? with
      | none => .error (.unknownNode parent)
      | some above =>
        match above.type.maxChildren? with
        | some max =>
          if max ≤ above.children.length then .error (.maximumChildren (.only above.type) max)
          else attach above given
        | none => attach above given
where
  /-- Links both nodes if the parent accepts the child's type. -/
  attach (above given : Node) : Except TreeError Tree :=
    if given.type ∈ above.type.whitelist then
      let grown := tree.modify parent fun node => { node with children := node.children ++ [child] }
      .ok (grown.modify child fun node => { node with parent? := some parent })
    else .error (.illegalChild (.only above.type) (.only given.type) above.type.whitelist)

/-- The tree with a node taken from its parent. -/
def detach (tree : Tree) (id : NodeId) : Tree :=
  match tree.parent? id with
  | none => tree
  | some parent =>
    -- Both ends of the link are cut.
    let freed := tree.modify id fun node => { node with parent? := none }
    freed.modify parent fun node => { node with children := node.children.filter (· ≠ id) }

/-- Puts a node in place of a child and releases that child; the node leaves its own place first. -/
def replaceChild (tree : Tree) (parent : NodeId) (index : Nat) (new : NodeId) :
    Except TreeError Tree :=
  match tree.get? parent with
  | none => .error (.unknownNode parent)
  | some above =>
    match above.children[index]? with
    | none => .error (.unknownNode new)
    | some old =>
      if old = new then .ok tree
      else match tree.get? new with
        | none => .error (.unknownNode new)
        | some given =>
          if given.type ∈ above.type.whitelist then
            -- Leaving its place may have moved the child that is replaced.
            let moved := (tree.detach new).modify parent fun node =>
              { node with children := replaceFirst (· = old) (fun _ => new) node.children }
            let linked := moved.modify new fun node => { node with parent? := some parent }
            .ok (linked.release old)
          else .error (.illegalChild (.only above.type) (.only given.type) above.type.whitelist)

end Tree

end ArgSchema
