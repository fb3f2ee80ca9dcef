import ArgSchema.Diagnostic.Basic

/-! Tables of names: keys that ignore how a name is written, and entries in order of definition. -/

namespace ArgSchema

/-- Replaces the first element of a list that passes a test. -/
def replaceFirst {α : Type} (test : α → Bool) (f : α → α) : List α → List α
  | [] => []
  | a :: rest => if test a then f a :: rest else a :: replaceFirst test f rest

/-- A name without its dashes, its dot or its angle brackets. -/
def bareName : List Char → List Char
  | '-' :: '-' :: rest => rest
  | '-' :: rest => rest
  | '.' :: rest => rest
  -- A bracket alone is part of the name.
  | '<' :: rest => if rest.getLast? = some '>' then rest.dropLast else '<' :: rest
  | name => name

/-- The key of a name, which is the same for every way to write it. -/
def rawId (id : String) : String :=
  -- The word for the schema itself has a key that no bare word has.
  if id = "meta" then "[meta]" else String.ofList (bareName id.toList)

/-- A name that is written for a node. -/
structure Naming where
  /-- The name as it is written. -/
  id : String
  /-- The type of the node. -/
  type : NodeType
  /-- The node. -/
  node : NodeId
  /-- Where the name is written. -/
  span : Span
deriving DecidableEq, Repr

/-- A name that was registered. -/
structure Entry extends Naming where
  /-- The key of the name. -/
  rawId : String
  /-- Nodes that resolved against the name, in order. -/
  references : List NodeId
deriving DecidableEq, Repr

/-- The entry with one more reference, unless it has that one. -/
def Entry.refer (entry : Entry) (node : NodeId) : Entry :=
  if entry.references.contains node then entry
  else { entry with references := entry.references ++ [node] }

/-- Names in the order they were registered. -/
structure SymbolTable where
  /-- The registered names. -/
  entries : List Entry
deriving DecidableEq, Repr, Inhabited

namespace SymbolTable

/-- A table without names. -/
def empty : SymbolTable := ⟨[]⟩

/-- The first entry with the key of a name. -/
def get? (table : SymbolTable) (id : String) : Option Entry :=
  table.entries.find? (·.rawId = ArgSchema.rawId id)

/-- Whether a name has an entry. -/
def contains (table : SymbolTable) (id : String) : Bool := (table.get? id).isSome

/-- The entry of a name, or the problem that it has none. -/
def lookup (table : SymbolTable) (id : String) : Except NameProblem Entry :=
  match table.get? id with
  | some entry => .ok entry
  | none => .error (.unknownSymbol id)

/-- Number of entries. -/
def size (table : SymbolTable) : Nat := table.entries.length

/-- Whether there are no entries. -/
def isEmpty (table : SymbolTable) : Bool := table.entries.isEmpty

/-- The problem that a name of a type is defined again. -/
def duplicate (type : NodeType) (id : String) : NameProblem :=
  match type with
  | .typeDefinition => .duplicateType id
  | .config => .duplicateProperty id
  | _ => .duplicateArgument id

/-- The table with one more name, or the report that its key is taken.

Blocks that describe the schema are entered whatever is there, and merged later. -/
def add (table : SymbolTable) (naming : Naming) : Except Diagnostic SymbolTable :=
  let entered : SymbolTable := ⟨table.entries ++ [⟨naming, rawId naming.id, []⟩]⟩
  -- The schema may have several blocks, which are merged later.
  if naming.type = .metadata then .ok entered
  else match table.get? naming.id with
    | none => .ok entered
    | some previous =>
      let report := Diagnostic.located (.name (duplicate naming.type naming.id)) naming.span
      .error (report.withNote ⟨"previous definition is here", previous.span⟩)

/-- The table with more names in order, and reports of those whose keys were taken. -/
def addAll (table : SymbolTable) (namings : List Naming) : SymbolTable × List Diagnostic :=
  namings.foldl (fun (table, reports) naming =>
    match table.add naming with
    | .ok grown => (grown, reports)
    | .error report => (table, reports ++ [report])) (table, [])

/-- The table without the first entry that has the key of a name. -/
def remove (table : SymbolTable) (id : String) : SymbolTable :=
  ⟨table.entries.eraseP (·.rawId = ArgSchema.rawId id)⟩

/-- The table without the entry at a place. -/
def removeAt (table : SymbolTable) (index : Nat) : SymbolTable :=
  ⟨table.entries.eraseIdx index⟩

/-- The table after a node resolved against a name, which changes nothing if there is no entry. -/
def addReference (table : SymbolTable) (id : String) (node : NodeId) : SymbolTable :=
  ⟨replaceFirst (·.rawId = ArgSchema.rawId id) (·.refer node) table.entries⟩

end SymbolTable

end ArgSchema
