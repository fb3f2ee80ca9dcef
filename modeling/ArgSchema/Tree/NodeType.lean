/-! The kinds of nodes in a schema tree, and sets of them for whitelists and filters. -/

namespace ArgSchema

/-- What a node of the tree stands for, without its contents. -/
inductive NodeType where
  /-- A whole file. -/
  | file
  /-- A block that describes the schema itself. -/
  | metadata
  /-- A definition of a type. -/
  | typeDefinition
  /-- An argument known by its place. -/
  | positional
  /-- An argument known by its labels. -/
  | option
  /-- A name. -/
  | identifier
  /-- A list of type names. -/
  | types
  /-- The properties in a definition's body. -/
  | configs
  /-- One property with its values. -/
  | config
  /-- The values of a property. -/
  | values
  /-- A quoted text. -/
  | string
  /-- A regular expression. -/
  | regex
  /-- An integer. -/
  | number
  /-- A decimal fraction. -/
  | decimal
  /-- A truth value. -/
  | boolean
  /-- A use of another definition's property. -/
  | reference
  /-- A piece of code. -/
  | snippet
  /-- An instruction to drop a class of warnings. -/
  | suppress
deriving DecidableEq, Repr, Inhabited

namespace NodeType

/-- Every node type, in the order messages list them. -/
def all : List NodeType :=
  [.file, .metadata, .typeDefinition, .positional, .option, .identifier, .types, .configs,
    .config, .values, .string, .regex, .number, .decimal, .boolean, .reference, .snippet,
    .suppress]

/-- The words messages use for a node type. -/
def name : NodeType → String
  | .file => "file"
  | .metadata => "meta"
  | .typeDefinition => "type definition"
  | .positional => "positional"
  | .option => "option"
  | .identifier => "identifier"
  | .types => "types"
  | .configs => "configs"
  | .config => "config"
  | .values => "values"
  | .string => "string"
  | .regex => "regex"
  | .number => "number"
  | .decimal => "decimal"
  | .boolean => "boolean"
  | .reference => "reference"
  | .snippet => "snippet"
  | .suppress => "suppress"

/-- The node type of a name. -/
def ofName? (name : String) : Option NodeType := all.find? (·.name = name)

/-- The bit that stands for a node type in a set. -/
def index (type : NodeType) : Fin 18 :=
  match type with
  | .file => 0
  | .metadata => 1
  | .typeDefinition => 2
  | .positional => 3
  | .option => 4
  | .identifier => 5
  | .types => 6
  | .configs => 7
  | .config => 8
  | .values => 9
  | .string => 10
  | .regex => 11
  | .number => 12
  | .decimal => 13
  | .boolean => 14
  | .reference => 15
  | .snippet => 16
  | .suppress => 17

end NodeType

/-- A set of node types, one bit for each. -/
structure NodeTypes where
  /-- The bit of a type is set when the type belongs to the set. -/
  bits : BitVec 18
deriving DecidableEq, Repr, Inhabited

namespace NodeTypes

/-- The set without members. -/
def empty : NodeTypes := ⟨0⟩

/-- The set of one type. -/
def only (type : NodeType) : NodeTypes := ⟨BitVec.twoPow 18 type.index⟩

/-- The set of the types in a list. -/
def ofList (types : List NodeType) : NodeTypes :=
  -- Repetitions do not matter, since a bit is set once.
  ⟨types.foldl (fun bits type => bits ||| (only type).bits) 0⟩

instance : Membership NodeType NodeTypes :=
  ⟨fun set type => set.bits[type.index] = true⟩

instance (type : NodeType) (set : NodeTypes) : Decidable (type ∈ set) :=
  inferInstanceAs (Decidable (set.bits[type.index] = true))

/-- The types of either set. -/
def union (a b : NodeTypes) : NodeTypes := ⟨a.bits ||| b.bits⟩

/-- The types of both sets. -/
def inter (a b : NodeTypes) : NodeTypes := ⟨a.bits &&& b.bits⟩

instance : Union NodeTypes := ⟨union⟩

instance : Inter NodeTypes := ⟨inter⟩

/-- Whether every type of another set is in this one. -/
def includes (set other : NodeTypes) : Bool := set.bits &&& other.bits = other.bits

/-- Whether some type is in both sets. -/
def meets (a b : NodeTypes) : Bool := a.bits &&& b.bits ≠ 0

/-- Whether the set has no members. -/
def isEmpty (set : NodeTypes) : Bool := set.bits = 0

/-- The members, in the order messages list them. -/
def toList (set : NodeTypes) : List NodeType := NodeType.all.filter (· ∈ set)

/-- The names of the members. -/
def names (set : NodeTypes) : List String := set.toList.map (·.name)

/-- The members as a phrase, such as "a, b and c". -/
def describe (set : NodeTypes) : String :=
  match set.names with
  | [] => "nothing"
  | [name] => name
  | names => ", ".intercalate names.dropLast ++ " and " ++ names.getLastD ""

/-- The members as a debugging text. -/
def debug (set : NodeTypes) : String := "NodeType(" ++ " | ".intercalate set.names ++ ")"

/-- Anything that can stand in a value list. -/
def valueKinds : NodeTypes :=
  ofList [.string, .regex, .number, .decimal, .boolean, .reference, .snippet]

/-- Nodes that own a table of properties. -/
def definitions : NodeTypes := ofList [.metadata, .typeDefinition, .positional, .option]

/-- Nodes that can stand directly under a file. -/
def toplevel : NodeTypes := definitions ∪ only .suppress

end NodeTypes

end ArgSchema
