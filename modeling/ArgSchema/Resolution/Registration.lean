import ArgSchema.Reading
import ArgSchema.Tree.Traversal

/-! Registration: every definition's names go into the root table, every property's into its own. -/

namespace ArgSchema

/-- What registration keeps while it walks a tree. -/
structure Registration where
  /-- Names that were taken. -/
  reports : List Diagnostic
  /-- The definition whose body is being walked. -/
  definition? : Option NodeId

namespace Registration

/-- A registration that has not met a definition. -/
def start : Registration := ⟨[], none⟩

/-- The nodes that registration stops at. -/
def landmarks : NodeTypes := NodeTypes.definitions ∪ NodeTypes.only .config

/-- The names that a definition is known by. -/
def aliases (tree : Tree) (id : NodeId) (node : Node) : List Naming :=
  if node.type = .metadata then [⟨"meta", .metadata, id, node.span⟩]
  else (tree.identifiers id).map fun (name, category, span) =>
    ⟨category.external name, node.type, id, span⟩

/-- The name that a property is known by. -/
def keyword? (tree : Tree) (id : NodeId) : Option Naming :=
  (tree.identifiers id).head?.map fun (name, category, span) =>
    ⟨category.external name, .config, id, span⟩

/-- Enters names of definitions into the root table. -/
def enterNames (namings : List Naming) : Walk Registration Unit := do
  let tree ← Walk.tree
  let (table, reports) := tree.table.addAll namings
  Walk.setTree { tree with table := table }
  let own ← Walk.own
  Walk.setOwn { own with reports := own.reports ++ reports }

/-- Enters the name of a property into the table of the definition being walked. -/
def enterProperty (id : NodeId) : Walk Registration Unit := do
  let tree ← Walk.tree
  let own ← Walk.own
  match own.definition? with
  -- A property outside of any definition is not entered.
  | none => return ()
  | some definition =>
    match tree.table? definition with
    | none => return ()
    | some table =>
      let (grown, reports) := table.addAll (keyword? tree id).toList
      Walk.setTree (tree.setTable definition grown)
      Walk.setOwn { own with reports := own.reports ++ reports }

/-- Registers a definition and what is below it, or a property. -/
def register : Visitor Registration := fun id descend => do
  let node ← Walk.node id
  if node.type = .config then enterProperty id
  else
    enterNames (aliases (← Walk.tree) id node)
    -- Properties below are those of this definition, up to where its body ends.
    let outer := (← Walk.own).definition?
    Walk.setOwn { (← Walk.own) with definition? := some id }
    descend id
    Walk.setOwn { (← Walk.own) with definition? := outer }
  return id

/-- Clears the table of a definition. -/
def clearTable : Visitor Unit := fun id _ => do
  Walk.setTree ((← Walk.tree).setTable id SymbolTable.empty)
  return id

/-- Adds the properties of one block that describes the schema to those of another. -/
def mergeInto (first : NodeId) (merged : Tree × List Diagnostic) (later : Entry) :
    Tree × List Diagnostic :=
  let (tree, reports) := merged
  match tree.table? first with
  | none => merged
  | some table =>
    -- Entries are added in order, and one that clashes is reported and left out.
    let properties := ((tree.table? later.node).map (·.entries)).getD []
    let (grown, more) := table.addAll (properties.map (·.toNaming))
    (tree.setTable first grown, reports ++ more)

/-- The blocks that describe the schema, in order, each with its place in the table. -/
def schemaBlocks (table : SymbolTable) : List (Entry × Nat) :=
  table.entries.zipIdx.filter (·.1.type = .metadata)

/-- The table without the entries at some places, which are in ascending order. -/
def removePlaces (table : SymbolTable) (places : List Nat) : SymbolTable :=
  -- The last place goes first, so that those in front of it are still the places they were.
  places.reverse.foldl SymbolTable.removeAt table

/-- Merges the blocks that describe the schema into the first of them, and drops the others. -/
def mergeMeta (tree : Tree) : Tree × List Diagnostic :=
  match schemaBlocks tree.table with
  | [] => (tree, [])
  -- The first block takes the properties, and the others leave the table.
  | (first, _) :: later =>
    let (merged, reports) :=
      later.foldl (fun merged block => mergeInto first.node merged block.1) (tree, [])
    ({ merged with table := removePlaces merged.table (later.map (·.2)) }, reports)

end Registration

/-- Fills the tables of a tree anew from its definitions and properties. -/
def Tree.buildSymbolTable (tree : Tree) : Reading Tree Unit :=
  -- Tables of an earlier run are emptied first.
  let unnamed := { tree with table := SymbolTable.empty }
  match unnamed.walk NodeTypes.definitions Registration.clearTable () with
  | (.error error, cleared, _) => .fail (.tree error) cleared
  | (.ok (), cleared, _) =>
    match cleared.walk Registration.landmarks Registration.register Registration.start with
    | (.error error, filled, own) => ⟨own.reports, .error (.tree error), filled⟩
    | (.ok (), filled, own) =>
      let (merged, reports) := Registration.mergeMeta filled
      ⟨own.reports ++ reports, .ok (), merged⟩

end ArgSchema
