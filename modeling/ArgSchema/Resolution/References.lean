import ArgSchema.Reading
import ArgSchema.Tree.Traversal

/-! References: type lists and uses of properties are linked to what the tables say they name. -/

namespace ArgSchema

namespace Resolution

/-- The nodes that refer to others by name. -/
def referrers : NodeTypes := NodeTypes.ofList [.types, .reference]

/-- The types of definitions that a reference of some category can have as its target. -/
def admitted : Category → NodeTypes
  | .metadata => NodeTypes.only .metadata
  | .type => NodeTypes.only .typeDefinition
  | .identifier | .shortlabel | .longlabel | .property => NodeTypes.ofList [.positional, .option]

/-- The problem that the target of a reference is not defined. -/
def unknownTarget (category : Category) (target : String) : NameProblem :=
  match category with
  | .metadata => .unknownMeta
  | .type => .unknownType target
  | .identifier | .shortlabel | .longlabel | .property => .unknownArgument target

/-- The definition of a type name, or the problem that it names none. -/
def typeNamed (tree : Tree) (name : String) : Except NameProblem NodeId :=
  match tree.table.get? name with
  | none => .error (.unknownType name)
  | some entry =>
    -- The name may be that of an argument.
    if entry.type = .typeDefinition then .ok entry.node
    else .error (.notAType name (NodeTypes.only entry.type))

/-- Resolves one type name of a list and notes the list at the type's entry. -/
def resolveName (list : NodeId) (progress : Tree × List (Option NodeId) × List Diagnostic)
    (name : String × Category × Span) : Tree × List (Option NodeId) × List Diagnostic :=
  let (tree, slots, reports) := progress
  -- A type is entered with its brackets.
  let external := name.2.1.external name.1
  match typeNamed tree external with
  | .error problem =>
    (tree, slots ++ [none], reports ++ [.located (.name problem) name.2.2])
  | .ok definition =>
    ({ tree with table := tree.table.addReference external list }, slots ++ [some definition],
      reports)

/-- Links each name of a type list to its definition. -/
def resolveTypes (tree : Tree) (id : NodeId) : Tree × List Diagnostic :=
  let (named, slots, reports) := (tree.identifiers id).foldl (resolveName id) (tree, [], [])
  -- All slots are filled at once, whatever they held.
  let fill := fun
    | .types _ => .types slots
    | other => other
  (named.modifyKind id fill, reports)

/-- The definition that a reference has as its target. -/
def target? (tree : Tree) (category : Category) (target : String) : Option NodeId :=
  ((tree.table.get? target).filter (·.type ∈ admitted category)).map (·.node)

/-- Links a reference to the property that it uses; without a target its link stays as it was. -/
def resolveReference (tree : Tree) (id : NodeId) (span : Span) (target : String)
    (category : Category) (property : String) : Tree × List Diagnostic :=
  match target? tree category target with
  -- Nothing is looked up in a definition that there is not, and the link is left alone.
  | none => (tree, [.located (.name (unknownTarget category target)) span])
  | some definition =>
    -- What is not a definition has no properties.
    let table := (tree.table? definition).getD SymbolTable.empty
    let config? := (table.get? property).map (·.node)
    let fill := fun
      | .reference target category property _ => .reference target category property config?
      | other => other
    match config? with
    | some _ => ((tree.setTable definition (table.addReference property id)).modifyKind id fill, [])
    | none =>
      (tree.modifyKind id fill, [.located (.name (.unknownProperty target property)) span])

/-- Resolves what a node refers to. -/
def resolveNode (tree : Tree) (id : NodeId) (node : Node) : Tree × List Diagnostic :=
  match node.kind with
  | .types _ => resolveTypes tree id
  | .reference target category property _ =>
    resolveReference tree id node.span (category.external target) category property
  | _ => (tree, [])

/-- Resolves a node in the course of a walk. -/
def resolve : Visitor (List Diagnostic) := fun id _ => do
  let node ← Walk.node id
  let (tree, reports) := resolveNode (← Walk.tree) id node
  Walk.setTree tree
  Walk.setOwn ((← Walk.own) ++ reports)
  return id

end Resolution

/-- Resolves every type list and reference of a tree against its tables. -/
def Tree.checkReferences (tree : Tree) : Reading Tree Unit :=
  match tree.walk Resolution.referrers Resolution.resolve [] with
  | (.error error, left, reports) => ⟨reports, .error (.tree error), left⟩
  | (.ok (), left, reports) => ⟨reports, .ok (), left⟩

end ArgSchema
