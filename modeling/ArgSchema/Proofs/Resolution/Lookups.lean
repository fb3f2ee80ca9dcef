import ArgSchema.Proofs.SymbolTable.Entries
import ArgSchema.Proofs.Tree.Tables
import ArgSchema.Resolution.References

/-! What names refer to: lookups see the names in the tables, and not what was resolved before. -/

namespace ArgSchema

/-- What a node was resolved to. -/
def NodeKind.slots : NodeKind → List (Option NodeId)
  | .types resolved => resolved
  | .reference _ _ _ resolved => [resolved]
  | _ => []

/-- Replacing a table leaves what was resolved. -/
@[simp] theorem NodeKind.slots_withTable (kind : NodeKind) (table : SymbolTable) :
    (kind.withTable table).slots = kind.slots := by
  cases kind <;> rfl

/-- What the node of a handle was resolved to. -/
def Tree.slots (tree : Tree) (id : NodeId) : List (Option NodeId) :=
  ((tree.get? id).map (·.kind.slots)).getD []

/-- Two trees have the same syntax, and their tables the same names. -/
structure Tree.SameScopes (a b : Tree) : Prop where
  /-- The syntax is the same. -/
  syntactic : a.SameSyntax b
  /-- The top-level names are the same. -/
  names : a.table.SameNames b.table
  /-- The names of properties are the same in each definition. -/
  properties : ∀ id property, ((b.table? id).bind (·.get? property)).map (·.node) =
    ((a.table? id).bind (·.get? property)).map (·.node)

namespace Tree.SameScopes

variable {a b c : Tree}

/-- Every tree has its own scopes. -/
theorem refl (tree : Tree) : SameScopes tree tree := ⟨.refl _, .refl _, fun _ _ => rfl⟩

/-- Having the same scopes carries over. -/
theorem trans (first : SameScopes a b) (second : SameScopes b c) : SameScopes a c :=
  ⟨first.syntactic.trans second.syntactic, first.names.trans second.names,
    fun id property => (second.properties id property).trans (first.properties id property)⟩

/-- References to top-level names leave the scopes. -/
theorem table (tree : Tree) {table : SymbolTable} (same : tree.table.SameNames table) :
    SameScopes tree { tree with table := table } :=
  ⟨.table _ _, same, fun _ _ => rfl⟩

/-- Resolving a node leaves the scopes. -/
theorem modifyKind (tree : Tree) (id : NodeId) {f : NodeKind → NodeKind}
    (kept : ∀ kind, (f kind).bare = kind.bare ∧ (f kind).table? = kind.table?) :
    SameScopes tree (tree.modifyKind id f) := by
  refine ⟨.modifyKind _ _ fun kind => (kept kind).1, .refl _, fun other property => ?_⟩
  rw [table?_modifyKind tree id fun kind => (kept kind).2]

/-- References to properties leave the scopes. -/
theorem setTable {tree : Tree} {id : NodeId} {old : SymbolTable} (owned : tree.table? id = some old)
    {new : SymbolTable} (same : old.SameNames new) : SameScopes tree (tree.setTable id new) := by
  refine ⟨.setTable _ _ _, .refl _, fun other property => ?_⟩
  -- The names in the table are the same, and no other table is touched.
  by_cases here : other = id
  · subst here
    rw [table?_setTable_self owned, owned, Option.bind_some, Option.bind_some, same.node?]
  · rw [table?_setTable_of_ne here]

end Tree.SameScopes

namespace Resolution

/-- The definition that a name in a type list refers to. -/
def namedType? (tree : Tree) (name : String × Category × Span) : Option NodeId :=
  (typeNamed tree (name.2.1.external name.1)).toOption

/-- The report of a name in a type list that refers to no type. -/
def nameReports (tree : Tree) (name : String × Category × Span) : List Diagnostic :=
  match typeNamed tree (name.2.1.external name.1) with
  | .error problem => [.located (.name problem) name.2.2]
  | .ok _ => []

/-- The property of a definition that a word refers to. -/
def property? (tree : Tree) (definition : NodeId) (property : String) : Option NodeId :=
  ((tree.table? definition).bind (·.get? property)).map (·.node)

/-- What a node refers to, if the tables of the tree are asked. -/
def answers (tree : Tree) (id : NodeId) : List (Option NodeId) :=
  match (tree.get? id).map fun node : Node => node.kind.bare with
  | some (.types _) => (tree.identifiers id).map (namedType? tree)
  | some (.reference target category property _) =>
    [(target? tree category (category.external target)).bind (property? tree · property)]
  | _ => []

/-- Whether a node is no reference, or one whose target is there. -/
def targeted (tree : Tree) (id : NodeId) : Bool :=
  match (tree.get? id).map fun node : Node => node.kind.bare with
  | some (.reference target category _ _) =>
    (target? tree category (category.external target)).isSome
  | _ => true

/-- If nothing that a node refers to is missing, its target is not. -/
theorem targeted_of_complete {tree : Tree} {id : NodeId} (complete : none ∉ answers tree id) :
    targeted tree id = true := by
  unfold targeted
  unfold answers at complete
  split
  · next target category property slot same =>
    cases known : target? tree category (category.external target) with
    -- Without the target an answer would be missing.
    | none => simp [same, known] at complete
    | some definition => rfl
  · rfl

/-- What a node is, apart from tables and links, depends on the syntax only. -/
theorem bare_congr {a b : Tree} (same : a.SameSyntax b) (id : NodeId) :
    (b.get? id).map (fun node : Node => node.kind.bare) =
      (a.get? id).map fun node => node.kind.bare := by
  have equal := congrArg (Option.map Node.kind) (same.nodes id)
  simpa only [Option.map_map, Function.comp_def, Node.bare] using equal.symm

section Scopes

variable {a b : Tree} (same : a.SameScopes b)

include same

/-- The type of a name depends on the scopes only. -/
theorem typeNamed_congr (name : String) : typeNamed b name = typeNamed a name := by
  have found := same.names.get? name
  unfold typeNamed
  cases upper : a.table.get? name <;> cases lower : b.table.get? name <;>
    simp only [upper, lower, Option.map_some, Option.map_none, reduceCtorEq,
      Option.some.injEq] at found
  · rfl
  · next entry entry' =>
    -- Entries of the same name agree in what they stand for.
    obtain ⟨type, node⟩ := Entry.type_eq_of_plain found
    simp only [type, node]

/-- The target of a reference depends on the scopes only. -/
theorem target?_congr (category : Category) (target : String) :
    target? b category target = target? a category target := by
  -- The name is in both tables or in neither, and then its entries point at one node.
  have found := same.names.get? target
  unfold target?
  cases upper : a.table.get? target <;> cases lower : b.table.get? target <;>
    simp only [upper, lower, Option.map_some, Option.map_none, reduceCtorEq,
      Option.some.injEq] at found
  · rfl
  · next entry entry' =>
    obtain ⟨type, node⟩ := Entry.type_eq_of_plain found
    simp only [Option.filter_some, type]
    split <;> simp [node]

/-- Whether the target of a reference is there depends on the scopes only. -/
theorem targeted_congr (id : NodeId) : targeted b id = targeted a id := by
  -- A reference is the same in both trees, and so is what its target is looked up in.
  unfold targeted
  rw [bare_congr same.syntactic]
  simp only [target?_congr same]

/-- What a node refers to depends on the scopes only. -/
theorem answers_congr (id : NodeId) : answers b id = answers a id := by
  -- Each kind of answer is read off syntax, the names of the types, or a type's properties.
  have nodes := bare_congr same.syntactic id
  have names : namedType? b = namedType? a :=
    funext fun name => congrArg Except.toOption (typeNamed_congr same _)
  have properties : property? b = property? a :=
    funext fun definition => funext fun property => same.properties definition property
  unfold answers
  rw [nodes, same.syntactic.identifiers, names, properties]
  simp only [target?_congr same]

end Scopes

end Resolution

end ArgSchema
