import ArgSchema.Tree.NodeType

/-! Handles of tree nodes and the ways a tree operation can be refused. -/

namespace ArgSchema

/-- A handle that names a node of one tree. -/
structure NodeId where
  /-- Number of nodes that were made before this one. -/
  index : Nat
deriving DecidableEq, Repr, Inhabited

/-- A handle as messages print it. -/
def NodeId.describe (id : NodeId) : String := "#" ++ toString id.index

/-- Why a tree operation was refused. -/
inductive TreeError where
  /-- The parent does not accept children of this type. -/
  | illegalChild (parent given allowed : NodeTypes)
  /-- The parent has as many children as it accepts. -/
  | maximumChildren (parent : NodeTypes) (max : Nat)
  /-- The handle names no live node. -/
  | unknownNode (id : NodeId)
  /-- The node has a parent. -/
  | alreadyAttached (id : NodeId)
  /-- The node is not a file, so it cannot be the root. -/
  | illegalRoot (type : NodeTypes)
deriving DecidableEq, Repr

/-- The message of a refused tree operation. -/
def TreeError.message : TreeError → String
  | .illegalChild parent given allowed =>
    "cannot accept node of type " ++ given.describe ++ " as child of " ++ parent.describe ++
      " (only allows " ++ allowed.describe ++ ")"
  | .maximumChildren parent max =>
    "too many nodes given as child of " ++ parent.describe ++ "; cannot accept more than " ++
      toString max ++ " nodes"
  | .unknownNode id => "node " ++ id.describe ++ " does not exist"
  | .alreadyAttached id => "node " ++ id.describe ++ " already has a parent"
  | .illegalRoot type => "cannot use node of type " ++ type.describe ++ " as the tree root"

end ArgSchema
