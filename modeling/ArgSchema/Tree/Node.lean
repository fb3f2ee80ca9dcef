import ArgSchema.SymbolTable.Basic
import ArgSchema.Token

/-! The nodes of a schema tree: their contents, and the children each kind accepts. -/

namespace ArgSchema

/-- What a node stands for, with its contents. -/
inductive NodeKind where
  /-- A whole file. -/
  | file
  /-- A block that describes the schema itself. -/
  | metadata (table : SymbolTable)
  /-- A definition of a type. -/
  | typeDefinition (table : SymbolTable)
  /-- An argument known by its place. -/
  | positional (optional variadic : Bool) (table : SymbolTable)
  /-- An argument known by its labels. -/
  | option (optional valueOptional variadic : Bool) (table : SymbolTable)
  /-- A list of type names, with the definition each was resolved to. -/
  | types (resolved : List (Option NodeId))
  /-- The properties in a definition's body. -/
  | configs
  /-- One property: suppressions, its keyword, its values. -/
  | config
  /-- The values of a property. -/
  | values
  /-- A name. -/
  | identifier (name : String) (category : Category)
  /-- A quoted text. -/
  | string (text : String)
  /-- A regular expression. -/
  | regex (text : String)
  /-- An integer. -/
  | number (value : Int)
  /-- A decimal fraction. -/
  | decimal (value : Binary64)
  /-- A truth value. -/
  | boolean (value : Bool)
  /-- A use of another definition's property, with the property it was resolved to. -/
  | reference (target : String) (category : Category) (property : String)
      (resolved : Option NodeId)
  /-- A piece of code. -/
  | snippet (code : String)
  /-- An instruction to drop a class of warnings. -/
  | suppress (kind : WarningClass)
deriving DecidableEq, Repr, Inhabited

namespace NodeKind

/-- The type of a node with these contents. -/
def type : NodeKind → NodeType
  | .file => .file
  | .metadata _ => .metadata
  | .typeDefinition _ => .typeDefinition
  | .positional .. => .positional
  | .option .. => .option
  | .types _ => .types
  | .configs => .configs
  | .config => .config
  | .values => .values
  | .identifier .. => .identifier
  | .string _ => .string
  | .regex _ => .regex
  | .number _ => .number
  | .decimal _ => .decimal
  | .boolean _ => .boolean
  | .reference .. => .reference
  | .snippet _ => .snippet
  | .suppress _ => .suppress

/-- The table of properties that a definition owns. -/
def table? : NodeKind → Option SymbolTable
  | .metadata table | .typeDefinition table | .positional _ _ table | .option _ _ _ table =>
    some table
  | _ => none

/-- The contents with the table of properties replaced, if there is one. -/
def withTable (kind : NodeKind) (table : SymbolTable) : NodeKind :=
  match kind with
  | .metadata _ => .metadata table
  | .typeDefinition _ => .typeDefinition table
  | .positional optional variadic _ => .positional optional variadic table
  | .option optional valueOptional variadic _ => .option optional valueOptional variadic table
  -- Only definitions have tables.
  | other => other

end NodeKind

namespace NodeType

/-- The types of children that a node of a type accepts. -/
def whitelist : NodeType → NodeTypes
  | .file => NodeTypes.toplevel
  | .metadata => NodeTypes.only .configs
  | .typeDefinition => NodeTypes.ofList [.identifier, .configs]
  | .positional | .option => NodeTypes.ofList [.identifier, .types, .configs]
  | .types => NodeTypes.only .identifier
  | .configs => NodeTypes.only .config
  | .config => NodeTypes.ofList [.suppress, .identifier, .values]
  | .values => NodeTypes.valueKinds
  -- All other types are leaves.
  | _ => NodeTypes.empty

/-- The most children that a node of a type accepts, if there is a limit. -/
def maxChildren? : NodeType → Option Nat
  | .metadata => some 1
  | .typeDefinition => some 2
  | .positional => some 3
  | .option => some 4
  -- Lists are as long as they need to be.
  | .file | .types | .configs | .config | .values => none
  | _ => some 0

/-- Whether a node of a type accepts no children. -/
def isLeaf (type : NodeType) : Bool := type.whitelist.isEmpty

end NodeType

/-- A node with its links. -/
structure Node where
  /-- The contents. -/
  kind : NodeKind
  /-- The source text the node stands for. -/
  span : Span
  /-- The node it is a child of. -/
  parent? : Option NodeId
  /-- Its children, in order. -/
  children : List NodeId
deriving DecidableEq, Repr

/-- The type of a node. -/
def Node.type (node : Node) : NodeType := node.kind.type

end ArgSchema
