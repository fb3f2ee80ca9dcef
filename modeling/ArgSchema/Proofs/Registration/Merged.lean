import ArgSchema.Proofs.Registration.Result

/-! The tables after registration: whose names they hold, once blocks for the schema are merged. -/

namespace ArgSchema

namespace Registration

/-- Entries without all but the first that describe the schema itself. -/
def keepFirstMeta : List Entry → List Entry
  | [] => []
  | entry :: rest =>
    if entry.type = .metadata then entry :: rest.filter (·.type ≠ .metadata)
    else entry :: keepFirstMeta rest

/-- A definition's table holds names that a property was given, in the definition itself or, among
blocks that describe the schema, in any of them. -/
def Owns (tree : Tree) (ids : List NodeId) (id : NodeId) (table : SymbolTable) : Prop :=
  ∃ namings, table = (SymbolTable.empty.addAll namings).1 ∧ ∀ naming ∈ namings,
    ∃ owner ∈ ids, naming ∈ keywords tree owner ∧ (owner = id ∨
      (tree.isOfType (NodeTypes.only .metadata) id = true ∧
        tree.isOfType (NodeTypes.only .metadata) owner = true))

/-- Each definition has a table of its properties. -/
def Tabled (tree : Tree) (ids : List NodeId) (after : Tree) : Prop :=
  ∀ id ∈ ids, ∃ table, after.table? id = some table ∧ Owns tree ids id table

/-- What registration makes of a tree. -/
structure Registers (tree : Tree) (ids : List NodeId) (after : Tree) : Prop where
  /-- The syntax is kept. -/
  same : tree.SameSyntax after
  /-- The names of the definitions are entered in order, without the merged blocks. -/
  names : after.table.entries =
    keepFirstMeta (SymbolTable.empty.addAll (ids.flatMap (names tree))).1.entries
  /-- Each definition has a table of its properties. -/
  owned : Tabled tree ids after

/-- Definitions whose tables hold their own properties have tables of their properties. -/
theorem tabled_of_keywords {tree after : Tree} {ids : List NodeId}
    (inside : ∀ id ∈ ids, after.table? id = some (SymbolTable.empty.addAll (keywords tree id)).1) :
    Tabled tree ids after := fun id member =>
  ⟨_, inside id member, keywords tree id, rfl, fun _ given => ⟨id, member, given, .inl rfl⟩⟩

/-- A definition is known by its names, or by the word for the schema itself. -/
theorem mem_names {tree : Tree} {id : NodeId} {naming : Naming} (member : naming ∈ names tree id) :
    ∃ node, tree.get? id = some node ∧ naming.node = id ∧ naming.type = node.type ∧
      (node.type = .metadata ∧ naming.id = "meta" ∨ node.type ≠ .metadata ∧
        ∃ name category span, (name, category, span) ∈ tree.identifiers id ∧
          naming.id = category.external name) := by
  unfold names at member
  cases found : tree.get? id with
  | none => simp [found] at member
  | some node =>
    simp only [found, Option.map_some, Option.getD_some, aliases] at member
    refine ⟨node, rfl, ?_⟩
    by_cases block : node.type = .metadata
    -- A block has the word for the schema as its name, and all else has names of its own.
    · rw [if_pos block, List.mem_singleton] at member
      subst member
      exact ⟨rfl, block.symm, .inl ⟨block, rfl⟩⟩
    · rw [if_neg block] at member
      obtain ⟨⟨name, category, span⟩, given, rfl⟩ := List.mem_map.mp member
      exact ⟨rfl, rfl, .inr ⟨block, name, category, span, given, rfl⟩⟩

/-- A property is known by its keyword. -/
theorem mem_keywords {tree : Tree} {id : NodeId} {naming : Naming}
    (member : naming ∈ keywords tree id) :
    naming.type = .config ∧ naming.node ∈ tree.properties id ∧
      ∃ name category span, (tree.identifiers naming.node).head? = some (name, category, span) ∧
        naming.id = category.external name := by
  -- Each property gives at most one name, the first that stands below it.
  obtain ⟨config, inside, member⟩ := List.mem_flatMap.mp member
  rw [Option.mem_toList] at member
  obtain ⟨⟨name, category, span⟩, first, rfl⟩ := Option.map_eq_some_iff.mp member
  exact ⟨rfl, inside, name, category, span, first, rfl⟩

section Fill

/-- Registering definitions enters their names and their properties. -/
theorem foldl_registerOne (ids : List NodeId) :
    ∀ (progress : Tree × List Diagnostic), ids.Nodup →
      (∀ id ∈ ids, progress.1.isOfType NodeTypes.definitions id = true) →
      let filled := ids.foldl registerOne progress
      progress.1.SameSyntax filled.1 ∧
        filled.1.table = (progress.1.table.addAll (ids.flatMap (names progress.1))).1 ∧
        (∀ id ∈ ids, filled.1.table? id =
          (progress.1.table? id).map fun table => (table.addAll (keywords progress.1 id)).1) ∧
        ∀ id, id ∉ ids → filled.1.table? id = progress.1.table? id := by
  -- By induction on the definitions: each sets its own table and enters its names, and later ones
  -- leave that.
  induction ids with
  | nil => exact fun _ _ _ => ⟨.refl _, by simp, by simp, fun _ _ => rfl⟩
  | cons first rest ih =>
    intro progress once own
    obtain ⟨apart, once⟩ := List.nodup_cons.mp once
    obtain ⟨table, owned⟩ := Tree.exists_table? (own first (by simp))
    have same := sameSyntax_registerOne progress first
    -- Registering the first sets its own table alone.
    have changed : ∀ other, (registerOne progress first).1.table? other =
        if other = first then some (table.addAll (keywords progress.1 first)).1
        else progress.1.table? other := by
      intro other
      have set := Tree.table?_setTable progress.1 first
        (table.addAll (keywords progress.1 first)).1 other
      simp only [registerOne, owned, Option.getD_some]
      refine set.trans ?_
      split
      · next here => rw [here, owned]; rfl
      · rfl
    -- The rest are registered in a tree with the same syntax.
    obtain ⟨kept, named, inside, outside⟩ := ih (registerOne progress first) once
      fun id member => (same.isOfType _ _).trans (own id (by simp [member]))
    refine ⟨same.trans kept, ?_, ?_, ?_⟩
    · -- What the rest is called is read off the syntax, which is the same.
      have others : rest.flatMap (names (registerOne progress first).1) =
          rest.flatMap (names progress.1) :=
        List.flatMap_congr fun id _ => names_of_sameSyntax same id
      simp only [List.foldl_cons, named, others, List.flatMap_cons, SymbolTable.addAll_append]
      rfl
    · intro id member
      rw [List.foldl_cons]
      rcases List.mem_cons.mp member with rfl | member
      · rw [outside _ apart, changed, if_pos rfl, owned]
        rfl
      · have other : id ≠ first := fun same => apart (same ▸ member)
        rw [inside id member, changed, if_neg other, keywords_of_sameSyntax same]
    · intro id absent
      simp only [List.mem_cons, not_or] at absent
      rw [List.foldl_cons, outside id absent.2, changed, if_neg absent.1]

end Fill

section Places

/-- Without blocks for the schema all entries stay. -/
theorem keepFirstMeta_eq_self {entries : List Entry}
    (others : ∀ entry ∈ entries, entry.type ≠ .metadata) : keepFirstMeta entries = entries := by
  -- Nothing is filtered before a block is met.
  induction entries with
  | nil => rfl
  | cons entry rest ih =>
    rw [keepFirstMeta, if_neg (others entry (by simp)),
      ih fun other member => others other (by simp [member])]

/-- Dropping merged blocks leaves some of the entries. -/
theorem keepFirstMeta_subset (entries : List Entry) : keepFirstMeta entries ⊆ entries := by
  -- Behind the first block the rest is filtered, which adds nothing.
  induction entries with
  | nil => exact List.Subset.refl _
  | cons entry rest ih =>
    rw [keepFirstMeta]
    split
    · exact List.cons_subset_cons _ (List.filter_subset_self _)
    · exact List.cons_subset_cons _ ih

/-- The blocks are the entries that describe the schema. -/
theorem map_schemaBlocks (table : SymbolTable) :
    (schemaBlocks table).map (·.1) = table.entries.filter (·.type = .metadata) := by
  -- The places have no say in which entries are kept.
  calc (schemaBlocks table).map (·.1)
    _ = (table.entries.zipIdx.map Prod.fst).filter (·.type = .metadata) := by
      rw [List.filter_map]
      rfl
    _ = table.entries.filter (·.type = .metadata) := by rw [List.zipIdx_map_fst]

/-- One more entry moves the places of the blocks behind it, and has the first place if it is a block
itself. -/
theorem places_cons (entry : Entry) (rest : List Entry) :
    (schemaBlocks ⟨entry :: rest⟩).map (·.2) =
      (if entry.type = .metadata then [0] else []) ++
        ((schemaBlocks ⟨rest⟩).map (·.2)).map (· + 1) := by
  -- Behind the first entry, every place is one further on.
  have moved : rest.zipIdx 1 = rest.zipIdx.map fun block => (block.1, block.2 + 1) :=
    List.zipIdx_succ
  unfold schemaBlocks
  dsimp only
  rw [List.zipIdx_cons, List.filter_cons, Nat.zero_add, moved, List.filter_map]
  split <;> simp_all [Function.comp_def]

/-- Removing places behind the first entry leaves that one. -/
theorem removePlaces_succ (entry : Entry) (rest : List Entry) (places : List Nat) :
    (removePlaces ⟨entry :: rest⟩ (places.map (· + 1))).entries =
      entry :: (removePlaces ⟨rest⟩ places).entries := by
  -- By induction on the places, from the last one down.
  unfold removePlaces
  rw [List.foldl_reverse, List.foldl_reverse]
  induction places with
  | nil => rfl
  | cons place places ih =>
    rw [List.map_cons, List.foldr_cons, List.foldr_cons]
    unfold SymbolTable.removeAt at ih ⊢
    rw [ih, List.eraseIdx_cons_succ]

/-- Removing the places of all blocks leaves the entries that are none. -/
theorem removePlaces_schemaBlocks (entries : List Entry) :
    (removePlaces ⟨entries⟩ ((schemaBlocks ⟨entries⟩).map (·.2))).entries =
      entries.filter (·.type ≠ .metadata) := by
  induction entries with
  | nil => rfl
  | cons entry rest ih =>
    rw [places_cons]
    split
    · next block =>
      -- The first place is removed after all others, and by then it is alone in front of them.
      have last (places : List Nat) (table : SymbolTable) :
          removePlaces table (0 :: places) = (removePlaces table places).removeAt 0 := by
        simp [removePlaces]
      rw [List.singleton_append, last, SymbolTable.removeAt, removePlaces_succ, ih]
      simp [block]
    · next other =>
      rw [List.nil_append, removePlaces_succ, ih]
      simp [other]

/-- Removing the places of all blocks but the first leaves that one and the entries that are none. -/
theorem removePlaces_tail (entries : List Entry) :
    (removePlaces ⟨entries⟩ ((schemaBlocks ⟨entries⟩).tail.map (·.2))).entries =
      keepFirstMeta entries := by
  -- By induction on the entries: up to the first block nothing changes but the places.
  rw [List.map_tail]
  induction entries with
  | nil => rfl
  | cons entry rest ih =>
    rw [places_cons, keepFirstMeta]
    split
    · -- All places behind the first block are removed.
      rw [List.singleton_append, List.tail_cons, removePlaces_succ, removePlaces_schemaBlocks]
    · rw [List.nil_append, ← List.map_tail, removePlaces_succ, ih]

/-- Merging a block into another leaves the names of definitions. -/
theorem table_foldl_mergeInto (first : NodeId) (later : List Entry) :
    ∀ merged : Tree × List Diagnostic, (later.foldl (mergeInto first) merged).1.table = merged.1.table := by
  -- Merging changes the tables of blocks, never the table of the names.
  induction later with
  | nil => exact fun _ => rfl
  | cons entry rest ih =>
    intro merged
    refine (ih _).trans ?_
    unfold mergeInto
    dsimp only
    split <;> rfl

/-- What merging leaves, without the places: the first of the blocks gets the properties of the others,
and it is the only one that the names keep. -/
theorem mergeMeta_eq (tree : Tree) :
    mergeMeta tree = match tree.table.entries.filter (·.type = .metadata) with
      | [] => (tree, [])
      | first :: later =>
        let (merged, reports) := later.foldl (mergeInto first.node) (tree, [])
        ({ merged with table := ⟨keepFirstMeta merged.table.entries⟩ }, reports) := by
  -- The merge leaves the entries alone, so the places found before it are still theirs.
  unfold mergeMeta
  rw [← map_schemaBlocks]
  have removed := removePlaces_tail tree.table.entries
  cases blocks : schemaBlocks tree.table with
  | nil => rfl
  | cons first later =>
    rw [show schemaBlocks ⟨tree.table.entries⟩ = first :: later from blocks] at removed
    have kept := table_foldl_mergeInto first.1.node (later.map (·.1)) (tree, [])
    rw [List.map_cons]
    dsimp only
    rw [← List.foldl_map]
    generalize (later.map (·.1)).foldl (mergeInto first.1.node) (tree, []) = merged at kept ⊢
    rw [kept]
    exact congrArg (fun entries => ({ merged.1 with table := ⟨entries⟩ }, merged.2)) removed

end Places

section Merge

variable {tree : Tree} {ids : List NodeId}

/-- More names of properties can be added to a table. -/
theorem Owns.addAll {id other : NodeId} {table more : SymbolTable} (owns : Owns tree ids id table)
    (block : tree.isOfType (NodeTypes.only .metadata) id = true)
    (block' : tree.isOfType (NodeTypes.only .metadata) other = true)
    (owns' : Owns tree ids other more) :
    Owns tree ids id (table.addAll (more.entries.map (·.toNaming))).1 := by
  -- The names of both blocks follow each other.
  obtain ⟨namings, rfl, own⟩ := owns
  obtain ⟨others, rfl, own'⟩ := owns'
  refine ⟨namings ++ _, by rw [SymbolTable.addAll_append], fun naming member => ?_⟩
  rcases List.mem_append.mp member with member | member
  · exact own naming member
  · -- A name of the other block is a name that one of its properties was given.
    obtain ⟨entry, inside, rfl⟩ := List.mem_map.mp member
    obtain ⟨naming, given, rfl⟩ := SymbolTable.exists_naming_of_mem inside
    obtain ⟨owner, listed, known, same⟩ := own' naming given
    refine ⟨owner, listed, known, .inr ⟨block, ?_⟩⟩
    rcases same with rfl | ⟨_, both⟩
    · exact block'
    · exact both

/-- Merging one block into another keeps the syntax, the names and whose properties tables hold. -/
theorem mergeInto_tabled {first : NodeId} {merged : Tree × List Diagnostic} {later : Entry}
    (tabled : Tabled tree ids merged.1) (known : first ∈ ids) (known' : later.node ∈ ids)
    (block : tree.isOfType (NodeTypes.only .metadata) first = true)
    (block' : tree.isOfType (NodeTypes.only .metadata) later.node = true) :
    let after := mergeInto first merged later
    merged.1.SameSyntax after.1 ∧ after.1.table = merged.1.table ∧ Tabled tree ids after.1 ∧
      ((∀ report ∈ merged.2, report.severity = .error) →
        ∀ report ∈ after.2, report.severity = .error) := by
  obtain ⟨table, owned, owns⟩ := tabled first known
  obtain ⟨more, owned', owns'⟩ := tabled later.node known'
  simp only [mergeInto, owned, owned', Option.map_some, Option.getD_some]
  -- Only the table of the first block changes.
  refine ⟨.setTable _ _ _, rfl, fun id member => ?_, fun errors report member => ?_⟩
  · by_cases here : id = first
    · subst here
      exact ⟨_, Tree.table?_setTable_self owned _, owns.addAll block block' owns'⟩
    · rw [Tree.table?_setTable_of_ne here]
      exact tabled id member
  · rcases List.mem_append.mp member with member | member
    · exact errors report member
    · exact SymbolTable.severity_addAll _ _ report member

/-- Merging blocks into another keeps the syntax, the names and whose properties tables hold. -/
theorem foldl_mergeInto_tabled {first : NodeId} (known : first ∈ ids)
    (block : tree.isOfType (NodeTypes.only .metadata) first = true) (later : List Entry)
    (blocks : ∀ entry ∈ later, entry.node ∈ ids ∧
      tree.isOfType (NodeTypes.only .metadata) entry.node = true) :
    ∀ (merged : Tree × List Diagnostic), Tabled tree ids merged.1 →
      let after := later.foldl (mergeInto first) merged
      merged.1.SameSyntax after.1 ∧ after.1.table = merged.1.table ∧ Tabled tree ids after.1 ∧
        ((∀ report ∈ merged.2, report.severity = .error) →
          ∀ report ∈ after.2, report.severity = .error) := by
  induction later with
  | nil => exact fun _ tabled => ⟨.refl _, rfl, tabled, fun errors => errors⟩
  | cons entry rest ih =>
    intro merged tabled
    obtain ⟨listed, type⟩ := blocks entry (by simp)
    -- One block after the other, each into the same first one.
    obtain ⟨same, table, tabled', errors⟩ := mergeInto_tabled tabled known listed block type
    obtain ⟨same', table', tabled'', errors'⟩ :=
      ih (fun other member => blocks other (by simp [member])) _ tabled'
    exact ⟨same.trans same', table'.trans table, tabled'', fun old => errors' (errors old)⟩

/-- Merging keeps the syntax, drops the merged blocks' names and keeps whose properties tables
hold. -/
theorem mergeMeta_tabled {filled : Tree} (tabled : Tabled tree ids filled)
    (blocks : ∀ entry ∈ filled.table.entries, entry.type = .metadata → entry.node ∈ ids ∧
      tree.isOfType (NodeTypes.only .metadata) entry.node = true) :
    let after := mergeMeta filled
    filled.SameSyntax after.1 ∧ after.1.table.entries = keepFirstMeta filled.table.entries ∧
      Tabled tree ids after.1 ∧ ∀ report ∈ after.2, report.severity = .error := by
  rw [mergeMeta_eq]
  cases split : filled.table.entries.filter (·.type = .metadata) with
  | nil =>
    refine ⟨.refl _, (keepFirstMeta_eq_self fun entry member block => ?_).symm, tabled, by simp⟩
    have none := List.filter_eq_nil_iff.mp split entry member
    simp [block] at none
  | cons first later =>
    -- Every entry of a block stands for a node of the list that is a block.
    have each : ∀ entry ∈ first :: later, entry.node ∈ ids ∧
        tree.isOfType (NodeTypes.only .metadata) entry.node = true := by
      intro entry member
      rw [← split] at member
      obtain ⟨inside, block⟩ := List.mem_filter.mp member
      exact blocks entry inside (by simpa using block)
    obtain ⟨known, block⟩ := each first (by simp)
    obtain ⟨same, table, tabled', errors⟩ := foldl_mergeInto_tabled known block later
      (fun entry member => each entry (by simp [member])) (filled, []) tabled
    exact ⟨same.trans (.table _ _), congrArg (fun table => keepFirstMeta table.entries) table,
      tabled', errors (by simp)⟩

end Merge

/-- Before blocks are merged, the names of all definitions were entered in order, and those of
their properties in each definition. -/
theorem filled_spec {tree : Tree} (forest : tree.Forest) (root : NodeId) :
    let ids := tree.definitions root
    let filled := ids.foldl registerOne (cleared tree ids, [])
    tree.SameSyntax filled.1 ∧
      filled.1.table = (SymbolTable.empty.addAll (ids.flatMap (names tree))).1 ∧
      ∀ id ∈ ids, filled.1.table? id = some (SymbolTable.empty.addAll (keywords tree id)).1 := by
  have own := fun id => @Tree.isOfType_of_mem_definitions tree root id
  have emptied := sameSyntax_cleared tree (tree.definitions root)
  obtain ⟨same, named, inside, _⟩ := foldl_registerOne (tree.definitions root)
    (cleared tree (tree.definitions root), [])
    (forest.nodup_definitions root) fun id member => (emptied.isOfType _ _).trans (own id member)
  -- Clearing changes no syntax.
  have names : (tree.definitions root).flatMap (names (cleared tree (tree.definitions root))) =
      (tree.definitions root).flatMap (names tree) :=
    List.flatMap_congr fun id _ => names_of_sameSyntax emptied id
  rw [table_cleared, names] at named
  refine ⟨emptied.trans same, named, fun id member => ?_⟩
  rw [inside id member, table?_cleared member (own id member), keywords_of_sameSyntax emptied]
  rfl

/-- The entries of blocks for the schema are those of definitions of this kind. -/
theorem block_of_entry {tree : Tree} {ids : List NodeId} {entry : Entry}
    (member : entry ∈ (SymbolTable.empty.addAll (ids.flatMap (names tree))).1.entries)
    (block : entry.type = .metadata) :
    entry.node ∈ ids ∧ tree.isOfType (NodeTypes.only .metadata) entry.node = true := by
  obtain ⟨naming, given, rfl⟩ := SymbolTable.exists_naming_of_mem member
  obtain ⟨id, listed, given⟩ := List.mem_flatMap.mp given
  obtain ⟨node, found, node', type, _⟩ := mem_names given
  have here : naming.entry.node = id := node'
  -- The entry has the type of the node that its name belongs to.
  have block : node.type = .metadata := type.symm.trans block
  rw [here, Tree.isOfType_of_get? found]
  exact ⟨listed, by simp [block]⟩

/-- The entries of the top-level names are those of definitions. -/
theorem Registers.node_mem {tree after : Tree} {ids : List NodeId}
    (registers : Registers tree ids after) {entry : Entry} (member : entry ∈ after.table.entries) :
    entry.node ∈ ids := by
  -- An entry that is kept was made for a name of a definition.
  rw [registers.names] at member
  obtain ⟨naming, given, rfl⟩ := SymbolTable.exists_naming_of_mem (keepFirstMeta_subset _ member)
  obtain ⟨id, listed, given⟩ := List.mem_flatMap.mp given
  obtain ⟨node, -, here, -⟩ := mem_names given
  have here : naming.entry.node = id := here
  exact here ▸ listed

end Registration

/-- Registration succeeds for a file, and enters all names and properties. -/
theorem Tree.buildSymbolTable_registers {tree : Tree} (forest : tree.Forest) {root : NodeId}
    (rooted : tree.root? = some root) :
    tree.buildSymbolTable.result = .ok () ∧
      Registration.Registers tree (tree.definitions root) tree.buildSymbolTable.next := by
  -- First the tables are filled, and then blocks for the schema are merged.
  obtain ⟨same, named, inside⟩ := Registration.filled_spec forest root
  rw [tree.buildSymbolTable_eq forest rooted]
  generalize (tree.definitions root).foldl Registration.registerOne _ = filled
    at same named inside ⊢
  have tabled := Registration.tabled_of_keywords inside
  obtain ⟨same', table, tabled', _⟩ := Registration.mergeMeta_tabled tabled fun entry member =>
    Registration.block_of_entry (named ▸ member)
  exact ⟨rfl, same.trans same', by rw [table, named], tabled'⟩

end ArgSchema
