import ArgSchema.Proofs.Registration.Clashes

/-! Silent registration: nothing is reported exactly if all names that share a table are apart. -/

namespace ArgSchema

/-- The blocks for the schema among the definitions of a file. -/
def Tree.blocks (tree : Tree) (root : NodeId) : List NodeId :=
  (tree.definitions root).filter (tree.isOfType (NodeTypes.only .metadata))

namespace Registration

variable {tree : Tree}

/-- Registering definitions reports errors only. -/
theorem severity_foldl_registerOne (ids : List NodeId) :
    ∀ progress : Tree × List Diagnostic, (∀ report ∈ progress.2, report.severity = .error) →
      ∀ report ∈ (ids.foldl registerOne progress).2, report.severity = .error := by
  induction ids with
  | nil => exact fun _ errors => errors
  | cons first rest ih =>
    intro progress errors
    refine ih _ fun report member => ?_
    -- A report is an old one, or one about a name of the definition or about one of its properties.
    simp only [registerOne, List.mem_append] at member
    rcases member with (old | named) | owned
    · exact errors report old
    · exact SymbolTable.severity_addAll _ _ report named
    · exact SymbolTable.severity_addAll _ _ report owned

/-- What clashes with earlier blocks is what clashes when all properties of the blocks are added, if none
of them clashes in its own block. -/
theorem mergeClashes_of_silent {ids : List NodeId}
    (each : ∀ id ∈ ids, (SymbolTable.empty.addAll (keywords tree id)).2 = []) :
    ∀ before : List NodeId, gather (mergeClashes tree) before ids =
      ((SymbolTable.empty.addAll (before.flatMap (keywords tree))).1.addAll
        (ids.flatMap (keywords tree))).2 := by
  induction ids with
  | nil => exact fun _ => rfl
  | cons id rest ih =>
    intro before
    obtain ⟨silent, each⟩ := List.forall_mem_cons.mp each
    -- All properties of the block come first in it, so all of them are merged.
    have merged := SymbolTable.addAll_firstNames (plain_keywords tree id)
      (before.flatMap (keywords tree))
    rw [gather, mergeClashes, ih each, List.flatMap_append, List.flatMap_singleton, List.flatMap_cons,
      SymbolTable.addAll_append _ (keywords tree id)]
    rw [SymbolTable.firstNames_of_silent (plain_keywords tree id) silent] at merged ⊢
    rw [merged]

/-- Merging distinct blocks whose own properties were entered without a report reports what entering
the properties of all of them into one table does. -/
theorem reports_mergeMeta {filled : Tree} {ids : List NodeId}
    (blocks : (filled.table.entries.filter (·.type = .metadata)).map (·.node) = ids)
    (distinct : ids.Nodup)
    (each : ∀ id ∈ ids, filled.table? id = some (SymbolTable.empty.addAll (keywords tree id)).1 ∧
      (SymbolTable.empty.addAll (keywords tree id)).2 = []) :
    (mergeMeta filled).2 = (SymbolTable.empty.addAll (ids.flatMap (keywords tree))).2 := by
  obtain ⟨-, -, -, reports⟩ := mergeMeta_exact blocks distinct fun id member => (each id member).1
  exact reports.trans (mergeClashes_of_silent (fun id member => (each id member).2) [])

/-- The names of blocks for the schema among all names are those of the blocks. -/
theorem blocks_of_names {ids : List NodeId}
    (own : ∀ id ∈ ids, tree.isOfType NodeTypes.definitions id = true) :
    ((ids.flatMap (names tree)).filter (·.type = .metadata)).map (·.node) =
      ids.filter (tree.isOfType (NodeTypes.only .metadata)) := by
  -- By induction on the definitions, each of which is a block of the schema or has none of its
  -- names.
  induction ids with
  | nil => rfl
  | cons id rest ih =>
    rw [List.flatMap_cons, List.filter_append, List.map_append, List.filter_cons,
      ih fun other member => own other (.tail _ member)]
    obtain ⟨node, found, -⟩ := Tree.exists_of_isOfType (own id (.head _))
    simp only [Tree.isOfType_of_get? found, NodeTypes.mem_only]
    by_cases block : node.type = .metadata
    · -- A block has a single name, which is that of the schema.
      simp [names, found, aliases, block]
    · have none : (names tree id).filter (·.type = .metadata) = [] := by
        refine List.filter_eq_nil_iff.mpr fun naming member => ?_
        obtain ⟨node', found', -, type, -⟩ := mem_names member
        rw [found] at found'
        cases found'
        simpa [type] using block
      simp [none, block]

end Registration

/-- Registration of a file reports nothing exactly if the names of its definitions can be entered
together without a report, so can the properties of each definition, and so can those of all blocks
for the schema together. -/
theorem Tree.buildSymbolTable_silent_iff {tree : Tree} (forest : tree.Forest) {root : NodeId}
    (rooted : tree.root? = some root) :
    tree.buildSymbolTable.reports = [] ↔
      (SymbolTable.empty.addAll ((tree.definitions root).flatMap (Registration.names tree))).2 = [] ∧
      (∀ id ∈ tree.definitions root,
        (SymbolTable.empty.addAll (Registration.keywords tree id)).2 = []) ∧
      (SymbolTable.empty.addAll ((tree.blocks root).flatMap (Registration.keywords tree))).2 = [] := by
  obtain ⟨-, named, inside⟩ := Registration.filled_spec forest root
  have first := Registration.filled_silent_iff forest root
  rw [tree.buildSymbolTable_eq forest rooted]
  generalize (tree.definitions root).foldl Registration.registerOne _ = filled
    at first named inside ⊢
  rw [List.append_eq_nil_iff, first, and_assoc]
  refine and_congr_right fun quiet => and_congr_right fun each => ?_
  -- All names are entered, so the blocks among the entries are those among the definitions.
  have entries : filled.1.table.entries.map (·.toNaming) =
      (tree.definitions root).flatMap (Registration.names tree) := by
    rw [named, SymbolTable.entries_addAll_of_silent quiet, SymbolTable.empty, List.nil_append,
      List.map_map]
    exact List.map_id _
  have blocks : (filled.1.table.entries.filter (·.type = .metadata)).map (·.node) =
      tree.blocks root := by
    have own := fun id => @isOfType_of_mem_definitions tree root id
    rw [Tree.blocks, ← Registration.blocks_of_names own, ← entries, List.filter_map, List.map_map]
    rfl
  have distinct : (tree.blocks root).Nodup := (forest.nodup_definitions root).filter _
  rw [Registration.reports_mergeMeta blocks distinct fun id member =>
    have listed := (List.mem_filter.mp member).1
    ⟨inside id listed, each id listed⟩]

/-- Registration of a file reports errors only. -/
theorem Tree.severity_buildSymbolTable {tree : Tree} (forest : tree.Forest) {root : NodeId}
    (rooted : tree.root? = some root) :
    ∀ report ∈ tree.buildSymbolTable.reports, report.severity = .error := by
  -- Filling the tables and merging blocks report errors only.
  obtain ⟨-, named, inside⟩ := Registration.filled_spec forest root
  have errors := Registration.severity_foldl_registerOne (tree.definitions root)
    (Registration.cleared tree (tree.definitions root), []) (by simp)
  rw [tree.buildSymbolTable_eq forest rooted]
  generalize (tree.definitions root).foldl Registration.registerOne _ = filled
    at named inside errors ⊢
  have tabled := Registration.tabled_of_keywords inside
  obtain ⟨-, -, -, merged⟩ := Registration.mergeMeta_tabled tabled fun entry member =>
    Registration.block_of_entry (named ▸ member)
  exact fun report member => (List.mem_append.mp member).elim (errors report) (merged report)

end ArgSchema
