import ArgSchema.Proofs.Tree.Tables

/-! Trees of the same tables: they have the same syntax, and differ in resolved names if at all. -/

namespace ArgSchema

namespace Tree

/-- Two trees of the same syntax hold the same tables. -/
structure SameTables (a b : Tree) : Prop where
  /-- The syntax is the same. -/
  syntactic : a.SameSyntax b
  /-- The tables of top-level names are the same. -/
  table : b.table = a.table
  /-- Each definition has the same table in both. -/
  owned : ∀ id, b.table? id = a.table? id

namespace SameTables

variable {a b : Tree}

/-- Trees of the same tables can be given the same table of top-level names. -/
theorem setNames (same : SameTables a b) (table : SymbolTable) :
    SameTables { a with table := table } { b with table := table } :=
  ⟨⟨same.syntactic.root, same.syntactic.nodes⟩, rfl, same.owned⟩

/-- Trees of the same tables can be given the same table of a definition. -/
theorem setTable (same : SameTables a b) (id : NodeId) (table : SymbolTable) :
    SameTables (a.setTable id table) (b.setTable id table) where
  syntactic := ((SameSyntax.setTable a id table).symm.trans same.syntactic).trans (.setTable b id table)
  table := same.table
  -- Either the definition gets the table in both trees, or neither tree changes what it owns.
  owned other := by rw [table?_setTable, table?_setTable, same.owned]

/-- Trees of the same tables can be changed in what their nodes were resolved to. -/
theorem modifyKind (same : SameTables a b) (id : NodeId) {f g : NodeKind → NodeKind}
    (keeps : ∀ kind, (f kind).bare = kind.bare ∧ (f kind).table? = kind.table?)
    (keeps' : ∀ kind, (g kind).bare = kind.bare ∧ (g kind).table? = kind.table?) :
    SameTables (a.modifyKind id f) (b.modifyKind id g) where
  syntactic := ((SameSyntax.modifyKind a id fun kind => (keeps kind).1).symm.trans
    same.syntactic).trans (.modifyKind b id fun kind => (keeps' kind).1)
  table := same.table
  owned other := by
    rw [table?_modifyKind b id (fun kind => (keeps' kind).2), same.owned,
      table?_modifyKind a id fun kind => (keeps kind).2]

end SameTables

/-- Two trees of the same tables with the same reports. -/
structure SameProgress (p q : Tree × List Diagnostic) : Prop where
  /-- The trees have the same tables. -/
  tables : p.1.SameTables q.1
  /-- The reports are the same. -/
  reports : q.2 = p.2

/-- What is done step by step to two trees keeps them alike if each step does. -/
theorem SameProgress.foldl {α : Type} {step : Tree × List Diagnostic → α → Tree × List Diagnostic}
    (each : ∀ {p q}, SameProgress p q → ∀ item, SameProgress (step p item) (step q item))
    (items : List α) : ∀ {p q}, SameProgress p q →
      SameProgress (items.foldl step p) (items.foldl step q) := by
  -- By induction on the items, for any two trees that are alike.
  induction items with
  | nil => exact fun same => same
  | cons item rest ih => exact fun same => ih (each same item)

/-- Changes of a tree's tables that leave all but those of some definitions, and no node more. -/
structure Confined (ids : List NodeId) (before after : Tree) : Prop where
  /-- As many nodes were made. -/
  size : after.nodes.size = before.nodes.size
  /-- The tables of all other definitions are left. -/
  others : ∀ id, id ∉ ids → after.table? id = before.table? id

namespace Confined

variable {ids : List NodeId} {a b c : Tree}

/-- No change is confined. -/
theorem refl (tree : Tree) : Confined ids tree tree := ⟨rfl, fun _ _ => rfl⟩

/-- Two changes are confined if each is. -/
theorem trans (first : Confined ids a b) (second : Confined ids b c) : Confined ids a c :=
  ⟨second.size.trans first.size,
    fun id absent => (second.others id absent).trans (first.others id absent)⟩

/-- A change of the top-level names is confined. -/
theorem setNames (tree : Tree) (table : SymbolTable) :
    Confined ids tree { tree with table := table } :=
  ⟨rfl, fun _ _ => rfl⟩

/-- A change of the table of one of the definitions is confined. -/
theorem setTable (tree : Tree) {id : NodeId} (member : id ∈ ids) (table : SymbolTable) :
    Confined ids tree (tree.setTable id table) where
  size := Array.size_modify
  others other absent := by
    -- A definition outside of the list is not the one that changes.
    have apart : other ≠ id := fun same => absent (same ▸ member)
    exact table?_setTable_of_ne apart table

/-- A change of no table is confined. -/
theorem modifyKind (tree : Tree) (id : NodeId) {f : NodeKind → NodeKind}
    (kept : ∀ kind, (f kind).table? = kind.table?) : Confined ids tree (tree.modifyKind id f) :=
  ⟨Array.size_modify, fun other _ => table?_modifyKind tree id kept other⟩

end Confined

/-- Trees that come of another by setting the table of top-level names and those of some definitions. -/
inductive Retables (ids : List NodeId) (tree : Tree) : Tree → Prop
  /-- The tree itself. -/
  | refl : Retables ids tree tree
  /-- With another table of top-level names. -/
  | names {after : Tree} (table : SymbolTable) : Retables ids tree after →
      Retables ids tree { after with table := table }
  /-- With another table of one of the definitions. -/
  | table {after : Tree} {id : NodeId} (table : SymbolTable) : Retables ids tree after → id ∈ ids →
      Retables ids tree (after.setTable id table)

/-- Setting the tables of some definitions leaves all others. -/
theorem Retables.confined {ids : List NodeId} {tree after : Tree} (retables : Retables ids tree after) :
    Confined ids tree after := by
  -- By induction on the tables that were set, each at one of the nodes.
  induction retables with
  | refl => exact .refl tree
  | names table _ ih => exact ih.trans (.setNames _ table)
  | table table _ member ih => exact ih.trans (.setTable _ member table)

end Tree

end ArgSchema
