import ArgSchema.Proofs.Registration.Merged
import ArgSchema.Proofs.Resolution.Visits
import ArgSchema.Proofs.Tree.SameTables

/-! Registration fills tables anew: what it enters and reports does not depend on what they held. -/

namespace ArgSchema

namespace Tree

/-- The definitions of a tree, in order, which are none without a root. -/
def toplevel (tree : Tree) : List NodeId := (tree.root?.map tree.definitions).getD []

/-- Trees of the same syntax have the same definitions. -/
theorem SameSyntax.toplevel {a b : Tree} (same : a.SameSyntax b) : b.toplevel = a.toplevel := by
  -- The definitions below the root are read off the syntax.
  unfold Tree.toplevel
  rw [same.root]
  cases b.root? with
  | none => rfl
  | some root => exact same.definitions root

/-- What is in the list of definitions is a definition. -/
theorem isOfType_of_mem_toplevel {tree : Tree} {id : NodeId} (member : id ∈ tree.toplevel) :
    tree.isOfType NodeTypes.definitions id = true := by
  unfold toplevel at member
  -- Without a root there are none, and else they were chosen by their type.
  cases rooted : tree.root? with
  | none => simp [rooted] at member
  | some root =>
    rw [rooted] at member
    exact isOfType_of_mem_definitions member

end Tree

namespace Registration

open ArgSchema.Tree (SameProgress SameTables Retables)

section Retables

variable {ids : List NodeId} {tree : Tree}

/-- Clearing sets the tables of the definitions. -/
theorem retables_cleared (tree : Tree) (ids : List NodeId) : Retables ids tree (cleared tree ids) := by
  -- The definitions ahead grow fewer, those whose tables may be set stay.
  have all : ∀ (rest : List NodeId) {start : Tree}, Retables ids tree start → rest ⊆ ids →
      Retables ids tree (rest.foldl (fun tree id => tree.setTable id .empty) start) := by
    intro rest
    induction rest with
    | nil => exact fun before _ => before
    | cons id rest ih =>
      intro start before inside
      exact ih (before.table _ (inside (by simp))) fun other member => inside (by simp [member])
  exact all ids (.names _ .refl) fun _ member => member

/-- Registering definitions sets their tables and the names. -/
theorem retables_registerOne (rest : List NodeId) (inside : rest ⊆ ids) :
    ∀ {progress : Tree × List Diagnostic}, Retables ids tree progress.1 →
      Retables ids tree (rest.foldl registerOne progress).1 := by
  induction rest with
  | nil => exact fun before => before
  | cons id rest ih =>
    -- Registering one sets its own table, and then the names.
    intro progress before
    exact ih (fun other member => inside (by simp [member])) (.names _ (before.table _ (inside (by simp))))

/-- Merging blocks sets the table of the first of them and the names. -/
theorem retables_mergeMeta {filled : Tree} (before : Retables ids tree filled)
    (blocks : ∀ entry ∈ filled.table.entries, entry.type = .metadata → entry.node ∈ ids) :
    Retables ids tree (mergeMeta filled).1 := by
  -- However many blocks follow, only the table of the first is set.
  have all : ∀ {first : NodeId}, first ∈ ids → ∀ (later : List Entry)
      {progress : Tree × List Diagnostic}, Retables ids tree progress.1 →
        Retables ids tree (later.foldl (mergeInto first) progress).1 := by
    intro first member later
    induction later with
    | nil => exact fun before => before
    | cons entry rest ih =>
      intro progress before
      refine ih ?_
      unfold mergeInto
      dsimp only
      split
      · exact before
      · exact before.table _ member
  rw [mergeMeta_eq]
  split
  · exact before
  · next first later same =>
    -- The first of the blocks is an entry of the table, and so a definition.
    have member : first ∈ filled.table.entries.filter (·.type = .metadata) := by simp [same]
    obtain ⟨inside, block⟩ := List.mem_filter.mp member
    exact .names _ (all (blocks first inside (by simpa using block)) later before)

end Retables

section Alike

variable {p q : Tree × List Diagnostic}

/-- Registering a definition does the same to trees of the same tables. -/
theorem sameProgress_registerOne (same : SameProgress p q) (id : NodeId) :
    SameProgress (registerOne p id) (registerOne q id) := by
  have names := names_of_sameSyntax same.tables.syntactic id
  have keywords := keywords_of_sameSyntax same.tables.syntactic id
  -- What is entered is read off the syntax and the tables, which are the same.
  unfold registerOne
  simp only [names, keywords, same.tables.table, same.tables.owned, same.reports]
  exact ⟨(same.tables.setTable id _).setNames _, rfl⟩

/-- Merging a block into another does the same to trees of the same tables. -/
theorem sameProgress_mergeInto (first : NodeId) (same : SameProgress p q) (later : Entry) :
    SameProgress (mergeInto first p later) (mergeInto first q later) := by
  -- A block is merged into the same table on both sides.
  unfold mergeInto
  simp only [same.tables.owned, same.reports]
  cases p.1.table? first with
  | none => exact same
  | some table => exact ⟨same.tables.setTable first _, rfl⟩

/-- Merging blocks does the same to trees of the same tables. -/
theorem sameProgress_mergeMeta {a b : Tree} (same : a.SameTables b) :
    SameProgress (mergeMeta a) (mergeMeta b) := by
  rw [mergeMeta_eq, mergeMeta_eq]
  rw [same.table]
  cases a.table.entries.filter (·.type = .metadata) with
  | nil => exact ⟨same, rfl⟩
  | cons first later =>
    -- The same blocks are merged one after the other, and then taken out of the names.
    have merged := SameProgress.foldl (sameProgress_mergeInto first.node) later
      (p := (a, [])) (q := (b, [])) ⟨same, rfl⟩
    dsimp only
    rw [merged.tables.table]
    exact ⟨merged.tables.setNames _, merged.reports⟩

/-- Trees of the same syntax have the same tables once those of their definitions are cleared, if they
have the same tables for the rest. -/
theorem sameTables_cleared {a b : Tree} {ids : List NodeId} (same : a.SameSyntax b)
    (own : ∀ id ∈ ids, a.isOfType NodeTypes.definitions id = true)
    (others : ∀ id, id ∉ ids → b.table? id = a.table? id) :
    (cleared a ids).SameTables (cleared b ids) where
  syntactic := ((sameSyntax_cleared a ids).symm.trans same).trans (sameSyntax_cleared b ids)
  table := (table_cleared b ids).trans (table_cleared a ids).symm
  owned id := by
    -- A definition's table is empty in both, and any other is left in both.
    by_cases member : id ∈ ids
    · rw [table?_cleared member (own id member),
        table?_cleared member ((same.isOfType _ _).trans (own id member))]
    · rw [(retables_cleared b ids).confined.others id member, others id member,
        (retables_cleared a ids).confined.others id member]

end Alike

end Registration

/-- What registration leaves, with a root or without one. -/
theorem Tree.Forest.buildSymbolTable_eq {tree : Tree} (forest : tree.Forest) :
    let filled := tree.toplevel.foldl Registration.registerOne
      (Registration.cleared tree tree.toplevel, [])
    let merged := Registration.mergeMeta filled.1
    tree.buildSymbolTable = ⟨filled.2 ++ merged.2, .ok (), merged.1⟩ := by
  cases rooted : tree.root? with
  | none =>
    -- Without a root nothing is cleared or entered.
    have none : tree.toplevel = [] := by simp [toplevel, rooted]
    rw [none, tree.buildSymbolTable_rootless rooted]
    rfl
  | some root =>
    have same : tree.toplevel = tree.definitions root := by simp [toplevel, rooted]
    rw [same]
    exact tree.buildSymbolTable_eq forest rooted

/-- Registration leaves the same tables and reports the same for trees of the same syntax that agree in
the tables of all nodes but their definitions. -/
theorem Tree.Forest.buildSymbolTable_anew {a b : Tree} (forest : a.Forest) (same : a.SameSyntax b)
    (others : ∀ id, id ∉ a.toplevel → b.table? id = a.table? id) :
    a.buildSymbolTable.next.SameTables b.buildSymbolTable.next ∧
      b.buildSymbolTable.reports = a.buildSymbolTable.reports := by
  have emptied := Registration.sameTables_cleared same
    (fun _ member => Tree.isOfType_of_mem_toplevel member) others
  -- From the cleared trees on, both are changed alike.
  have filled := SameProgress.foldl Registration.sameProgress_registerOne a.toplevel
    (p := (Registration.cleared a a.toplevel, [])) (q := (Registration.cleared b a.toplevel, []))
    ⟨emptied, rfl⟩
  have merged := Registration.sameProgress_mergeMeta filled.tables
  rw [forest.buildSymbolTable_eq, (forest.congr same.links).buildSymbolTable_eq, same.toplevel]
  exact ⟨merged.tables, congrArg₂ _ filled.reports merged.reports⟩

/-- Registration sets the tables of the definitions and the names, and nothing else. -/
theorem Tree.Forest.buildSymbolTable_retables {tree : Tree} (forest : tree.Forest) :
    Retables tree.toplevel tree tree.buildSymbolTable.next := by
  cases rooted : tree.root? with
  -- Without a root only the names are cleared.
  | none =>
    rw [tree.buildSymbolTable_rootless rooted]
    exact .names .empty .refl
  | some root =>
    have same : tree.toplevel = tree.definitions root := by simp [toplevel, rooted]
    obtain ⟨-, named, -⟩ := Registration.filled_spec forest root
    rw [tree.buildSymbolTable_eq forest rooted, same]
    -- The tables are cleared, then filled, then the blocks are merged.
    have emptied := Registration.retables_cleared tree (tree.definitions root)
    have filled := @Registration.retables_registerOne _ _ (tree.definitions root)
      (fun _ member => member) (Registration.cleared tree (tree.definitions root), []) emptied
    refine Registration.retables_mergeMeta filled fun entry member block => ?_
    exact (Registration.block_of_entry (named ▸ member) block).1

/-- The top-level names are those of definitions once the tables were filled. -/
theorem Tree.Forest.mem_toplevel_of_entry {tree : Tree} (forest : tree.Forest) {entry : Entry}
    (member : entry ∈ tree.buildSymbolTable.next.table.entries) : entry.node ∈ tree.toplevel := by
  -- Without a root the table is empty, and otherwise every entry is a definition's.
  cases rooted : tree.root? with
  | none =>
    rw [tree.buildSymbolTable_rootless rooted] at member
    cases member
  | some root =>
    obtain ⟨-, registers⟩ := tree.buildSymbolTable_registers forest rooted
    have same : tree.toplevel = tree.definitions root := by simp [toplevel, rooted]
    exact same ▸ registers.node_mem member

/-- What nodes were resolved to stays when tables are set. -/
theorem Tree.Retables.slots {ids : List NodeId} {tree after : Tree}
    (retables : Retables ids tree after) (id : NodeId) : after.slots id = tree.slots id := by
  -- Tables are no slots, so none of the steps changes one.
  induction retables with
  | refl => rfl
  | names table _ ih => exact ih
  | table table _ _ ih => exact (Resolution.slots_setTable _ _ table id).trans ih

end ArgSchema
