import ArgSchema.Proofs.Registration.Merged

/-! Complete registration: what a file says by name is found in its tables, unless it was reported. -/

namespace ArgSchema

/-- The keys in the table of a definition. -/
def Tree.keysOf (tree : Tree) (id : NodeId) : List String := ((tree.table? id).map (·.keys)).getD []

/-- A word has a property in a definition if its key is in the definition's table. -/
theorem Tree.mem_keysOf {tree : Tree} {id : NodeId} {property : String} :
    rawId property ∈ tree.keysOf id ↔
      ∃ table entry, tree.table? id = some table ∧ table.get? property = some entry := by
  -- A definition has a key exactly if its table finds it.
  unfold keysOf
  cases tree.table? id with
  | none => simp
  | some table =>
    have found : table.get? property = none ↔ _ := table.get?_eq_none
    cases got : table.get? property <;> simp_all

namespace Registration

/-- Dropping merged blocks makes no difference to a search in which blocks come out alike. -/
theorem find?_keepFirstMeta {test : Entry → Bool} {entries : List Entry}
    (alike : ∀ a ∈ entries, ∀ b ∈ entries, a.type = .metadata → b.type = .metadata →
      test a = test b) : (keepFirstMeta entries).find? test = entries.find? test := by
  induction entries with
  | nil => rfl
  | cons entry rest ih =>
    have ih := ih fun a member b member' => alike a (by simp [member]) b (by simp [member'])
    rw [keepFirstMeta]
    split
    · next block =>
      rw [List.find?_cons, List.find?_cons]
      cases found : test entry with
      | true => rfl
      | false =>
        -- The first block is not what is looked for, so neither are those that are dropped.
        rw [← List.head?_filter, ← List.head?_filter, List.filter_filter]
        refine congrArg List.head? (List.filter_congr fun other member => ?_)
        cases hit : test other with
        | false => rfl
        | true =>
          have plain : other.type ≠ .metadata := fun block' => by
            have both := alike entry (by simp) other (by simp [member]) block block'
            rw [found, hit] at both
            cases both
          exact decide_eq_true plain
    · rw [List.find?_cons, List.find?_cons, ih]

/-- Registering a definition leaves the tables of the others. -/
theorem table?_registerOne {progress : Tree × List Diagnostic} {id other : NodeId}
    (apart : other ≠ id) : (registerOne progress id).1.table? other = progress.1.table? other :=
  @Tree.table?_setTable_of_ne progress.1 _ _ apart _

/-- Nothing is reported of definitions exactly if nothing is reported of all their names together, and
of the properties of each. -/
theorem foldl_registerOne_silent_iff (ids : List NodeId) :
    ∀ progress : Tree × List Diagnostic, ids.Nodup →
      ((ids.foldl registerOne progress).2 = [] ↔ progress.2 = [] ∧
        (progress.1.table.addAll (ids.flatMap (names progress.1))).2 = [] ∧
        ∀ id ∈ ids, (((progress.1.table? id).getD .empty).addAll (keywords progress.1 id)).2 = []) := by
  induction ids with
  | nil => exact fun progress _ => by simp
  | cons first rest ih =>
    intro progress once
    obtain ⟨absent, once⟩ := List.nodup_cons.mp once
    -- The rest finds its names, its properties and its tables as they were in front of the first.
    have same := sameSyntax_registerOne progress first
    have others : rest.flatMap (names (registerOne progress first).1) =
        rest.flatMap (names progress.1) :=
      List.flatMap_congr fun id _ => names_of_sameSyntax same id
    have owned : (∀ id ∈ rest, ((((registerOne progress first).1.table? id).getD .empty).addAll
          (keywords (registerOne progress first).1 id)).2 = []) ↔
        ∀ id ∈ rest, (((progress.1.table? id).getD .empty).addAll (keywords progress.1 id)).2 = [] := by
      refine forall₂_congr fun id member => ?_
      have apart : id ≠ first := fun here => absent (here ▸ member)
      rw [table?_registerOne apart, keywords_of_sameSyntax same]
    rw [List.foldl_cons, ih _ once, others, owned, List.flatMap_cons, SymbolTable.addAll_append,
      List.forall_mem_cons, List.append_eq_nil_iff]
    simp only [registerOne, List.append_eq_nil_iff]
    tauto

/-- Before blocks are merged, nothing is reported of a file exactly if nothing is reported of the names
of its definitions together, and of the properties of each. -/
theorem filled_silent_iff {tree : Tree} (forest : tree.Forest) (root : NodeId) :
    ((tree.definitions root).foldl registerOne (cleared tree (tree.definitions root), [])).2 = [] ↔
      (SymbolTable.empty.addAll ((tree.definitions root).flatMap (names tree))).2 = [] ∧
      ∀ id ∈ tree.definitions root, (SymbolTable.empty.addAll (keywords tree id)).2 = [] := by
  -- The tables are empty at first, and what definitions and properties are called depends on the
  -- syntax.
  have emptied := sameSyntax_cleared tree (tree.definitions root)
  have named : (tree.definitions root).flatMap (names (cleared tree (tree.definitions root))) =
      (tree.definitions root).flatMap (names tree) :=
    List.flatMap_congr fun id _ => names_of_sameSyntax emptied id
  have owned : (∀ id ∈ tree.definitions root,
      ((((cleared tree (tree.definitions root)).table? id).getD .empty).addAll
        (keywords (cleared tree (tree.definitions root)) id)).2 = []) ↔
      ∀ id ∈ tree.definitions root, (SymbolTable.empty.addAll (keywords tree id)).2 = [] := by
    refine forall₂_congr fun id member => ?_
    rw [table?_cleared member (Tree.isOfType_of_mem_definitions member), Option.getD_some,
      keywords_of_sameSyntax emptied]
  rw [foldl_registerOne_silent_iff _ _ (forest.nodup_definitions root), named, owned, table_cleared]
  exact and_iff_right rfl

section Merge

variable {tree : Tree} {ids : List NodeId} {first : NodeId} {merged : Tree × List Diagnostic}
  {later : Entry} {key : String}

/-- Merging one block into another loses no keys. -/
theorem keysOf_mergeInto {id : NodeId} (member : key ∈ merged.1.keysOf id) :
    key ∈ (mergeInto first merged later).1.keysOf id := by
  unfold mergeInto
  cases owned : merged.1.table? first with
  | none => simpa only [owned] using member
  | some table =>
    simp only [owned]
    unfold Tree.keysOf at member ⊢
    -- Only the first block's table has changed, and it has its keys and more.
    by_cases here : id = first
    · subst here
      rw [owned] at member
      rw [Tree.table?_setTable_self owned]
      exact SymbolTable.mem_keys_addAll.mpr (.inl member)
    · rwa [Tree.table?_setTable_of_ne here]

/-- The keys of a merged block are among those of the block that it is merged into. -/
theorem keysOf_mergeInto_later (tabled : Tabled tree ids merged.1) (known : first ∈ ids)
    (known' : later.node ∈ ids) (member : key ∈ merged.1.keysOf later.node) :
    key ∈ (mergeInto first merged later).1.keysOf first := by
  obtain ⟨table, owned, -⟩ := tabled first known
  obtain ⟨more, owned', namings, rfl, -⟩ := tabled later.node known'
  unfold Tree.keysOf at member ⊢
  rw [owned'] at member
  obtain ⟨entry, inside, rfl⟩ := List.mem_map.mp member
  simp only [mergeInto, owned, owned']
  rw [Tree.table?_setTable_self owned]
  refine SymbolTable.mem_keys_addAll.mpr (.inr ⟨_, List.mem_map_of_mem inside, ?_⟩)
  -- The entry is that of a name that was added, so its key is that of its name.
  obtain ⟨naming, -, rfl⟩ := SymbolTable.exists_naming_of_mem inside
  rfl

/-- The keys of all merged blocks are among those of the block that they are merged into. -/
theorem keysOf_foldl_mergeInto (key : String) (known : first ∈ ids)
    (block : tree.isOfType (NodeTypes.only .metadata) first = true) (entries : List Entry)
    (blocks : ∀ entry ∈ entries, entry.node ∈ ids ∧
      tree.isOfType (NodeTypes.only .metadata) entry.node = true) :
    ∀ merged : Tree × List Diagnostic, Tabled tree ids merged.1 →
      (∀ id, key ∈ merged.1.keysOf id →
        key ∈ (entries.foldl (mergeInto first) merged).1.keysOf id) ∧
      ∀ entry ∈ entries, key ∈ merged.1.keysOf entry.node →
        key ∈ (entries.foldl (mergeInto first) merged).1.keysOf first := by
  induction entries with
  | nil => exact fun _ _ => ⟨fun _ member => member, by simp⟩
  | cons entry rest ih =>
    intro merged tabled
    obtain ⟨listed, type⟩ := blocks entry (by simp)
    obtain ⟨kept, gathered⟩ := ih (fun other member => blocks other (by simp [member])) _
      (mergeInto_tabled tabled known listed block type).2.2.1
    refine ⟨fun id member => kept id (keysOf_mergeInto member), fun other inside member => ?_⟩
    -- The keys of this block are moved now, those of a later one in its own turn.
    rcases List.mem_cons.mp inside with rfl | inside
    · exact kept first (keysOf_mergeInto_later tabled known listed member)
    · exact gathered other inside (keysOf_mergeInto member)

/-- Merging loses no keys, and all blocks' keys are among those of the first block. -/
theorem keysOf_mergeMeta (key : String) {filled : Tree} (tabled : Tabled tree ids filled)
    (blocks : ∀ entry ∈ filled.table.entries, entry.type = .metadata → entry.node ∈ ids ∧
      tree.isOfType (NodeTypes.only .metadata) entry.node = true) :
    (∀ id, key ∈ filled.keysOf id → key ∈ (mergeMeta filled).1.keysOf id) ∧
      ∀ first, filled.table.entries.find? (·.type = .metadata) = some first →
        ∀ entry ∈ filled.table.entries, entry.type = .metadata → key ∈ filled.keysOf entry.node →
          key ∈ (mergeMeta filled).1.keysOf first.node := by
  rw [mergeMeta_eq]
  -- The first block among the entries is the one that the later ones are merged into.
  cases split : filled.table.entries.filter (·.type = .metadata) with
  | nil =>
    refine ⟨fun _ member => member, fun first found => ?_⟩
    rw [← List.head?_filter, split] at found
    cases found
  | cons first later =>
    -- All of them are blocks of the schema among the definitions.
    have each : ∀ entry ∈ first :: later, entry.node ∈ ids ∧
        tree.isOfType (NodeTypes.only .metadata) entry.node = true := by
      intro entry member
      obtain ⟨inside, block⟩ := List.mem_filter.mp (split ▸ member)
      exact blocks entry inside (of_decide_eq_true block)
    obtain ⟨known, block⟩ := each first (by simp)
    obtain ⟨kept, gathered⟩ := keysOf_foldl_mergeInto key known block later
      (fun entry member => each entry (by simp [member])) (filled, []) tabled
    refine ⟨kept, fun entry found other member block' inside => ?_⟩
    rw [← List.head?_filter, split] at found
    obtain rfl := Option.some.inj found
    have listed : other ∈ first :: later := split ▸ List.mem_filter.mpr ⟨member, by simp [block']⟩
    rcases List.mem_cons.mp listed with rfl | listed
    · exact kept _ inside
    · exact gathered other listed inside

end Merge

/-- Everything that a file says by name is found: properties in their definitions, and those of all
blocks for the schema in the first of them. -/
structure Finds (tree : Tree) (ids : List NodeId) (after : Tree) : Prop where
  /-- The names of definitions are found as in a table without merged blocks. -/
  names : ∀ id, after.table.get? id =
    (SymbolTable.empty.addAll (ids.flatMap (names tree))).1.get? id
  /-- The keywords of a definition have their keys in its table. -/
  keywords : ∀ id ∈ ids, ∀ naming ∈ keywords tree id, rawId naming.id ∈ after.keysOf id
  /-- The keywords of each block have their keys in the table of a block that is found first. -/
  blocks : ∀ block ∈ ids, tree.isOfType (NodeTypes.only .metadata) block = true →
    ∃ first, after.table.get? "meta" = some first ∧ (first.type = .metadata →
      ∀ naming ∈ Registration.keywords tree block, rawId naming.id ∈ after.keysOf first.node)

/-- All blocks for the schema have the same key. -/
theorem rawId_of_block {tree : Tree} {ids : List NodeId} {entry : Entry}
    (member : entry ∈ (SymbolTable.empty.addAll (ids.flatMap (names tree))).1.entries)
    (block : entry.type = .metadata) : entry.rawId = rawId "meta" := by
  -- A block has no other name than the word for the schema.
  obtain ⟨naming, given, rfl⟩ := SymbolTable.exists_naming_of_mem member
  obtain ⟨id, -, given⟩ := List.mem_flatMap.mp given
  obtain ⟨node, -, -, type, schema | ⟨other, -⟩⟩ := mem_names given
  · exact congrArg rawId schema.2
  · exact absurd (type.symm.trans block) other

/-- A block for the schema is known by the word for the schema. -/
theorem exists_naming_of_block {tree : Tree} {id : NodeId}
    (block : tree.isOfType (NodeTypes.only .metadata) id = true) :
    ∃ naming ∈ names tree id, naming.type = .metadata ∧ naming.node = id ∧ naming.id = "meta" := by
  obtain ⟨node, found, type⟩ := Tree.exists_of_isOfType_only block
  exact ⟨⟨"meta", .metadata, id, node.span⟩, by simp [names, found, aliases, type], rfl, rfl, rfl⟩

end Registration

/-- Whatever a file says by name is found after registration. -/
theorem Tree.buildSymbolTable_finds {tree : Tree} (forest : tree.Forest) {root : NodeId}
    (rooted : tree.root? = some root) :
    Registration.Finds tree (tree.definitions root) tree.buildSymbolTable.next := by
  -- The definitions fill the tables, and merging only moves keys between blocks.
  obtain ⟨-, named, inside⟩ := Registration.filled_spec forest root
  rw [tree.buildSymbolTable_eq forest rooted]
  generalize (tree.definitions root).foldl Registration.registerOne _ = filled at named inside ⊢
  have tabled := Registration.tabled_of_keywords inside
  have blocks : ∀ entry ∈ filled.1.table.entries, entry.type = .metadata →
      entry.node ∈ tree.definitions root ∧
        tree.isOfType (NodeTypes.only .metadata) entry.node = true :=
    fun entry member => Registration.block_of_entry (named ▸ member)
  have schema : ∀ entry ∈ filled.1.table.entries, entry.type = .metadata →
      entry.rawId = rawId "meta" := fun entry member => Registration.rawId_of_block (named ▸ member)
  have own : ∀ id ∈ tree.definitions root, ∀ naming ∈ Registration.keywords tree id,
      rawId naming.id ∈ filled.1.keysOf id := by
    intro id member naming given
    rw [Tree.keysOf, inside id member]
    exact SymbolTable.mem_keys_addAll.mpr (.inr ⟨naming, given, rfl⟩)
  obtain ⟨-, entries, -, -⟩ := Registration.mergeMeta_tabled tabled blocks
  -- Merging drops blocks from the root table, but all of them have one key and the first is kept.
  have names : ∀ id, (Registration.mergeMeta filled.1).1.table.get? id = filled.1.table.get? id := by
    intro id
    unfold SymbolTable.get?
    rw [entries]
    refine Registration.find?_keepFirstMeta fun a member b member' block block' => ?_
    rw [schema a member block, schema b member' block']
  -- Merging moves each block's keys to the first block.
  have gathers := fun key => Registration.keysOf_mergeMeta key tabled blocks
  refine ⟨fun id => by rw [names, named], fun id member naming given => ?_, fun block member type => ?_⟩
  · exact (gathers _).1 id (own id member naming given)
  -- A block is named, and so its name was entered and is found.
  · obtain ⟨naming, given, block', node, spelled⟩ := Registration.exists_naming_of_block type
    have listed : naming ∈ (tree.definitions root).flatMap (Registration.names tree) :=
      List.mem_flatMap.mpr ⟨block, member, given⟩
    have entered : naming.entry ∈ filled.1.table.entries :=
      named ▸ SymbolTable.mem_addAll_of_metadata listed block'
    rw [names]
    cases found : filled.1.table.get? "meta" with
    | none =>
      refine absurd (List.mem_map_of_mem entered) (?_ : rawId naming.id ∉ filled.1.table.keys)
      rw [spelled]
      exact SymbolTable.get?_eq_none.mp found
    | some first =>
      refine ⟨first, rfl, fun kind keyword given => ?_⟩
      refine (gathers _).2 first ?_ naming.entry entered block' ?_
      · -- Blocks all have the key, so no block stands in front of the entry that is found.
        obtain ⟨-, front, back, split, apart⟩ := List.find?_eq_some_iff_append.mp found
        refine List.find?_eq_some_iff_append.mpr ⟨decide_eq_true kind, front, back, split, ?_⟩
        intro entry member
        have other := apart entry member
        rw [Bool.not_eq_true', decide_eq_false_iff_not] at other ⊢
        exact fun same => other (schema entry (by simp [split, member]) same)
      · rw [show naming.entry.node = block from node]
        exact own block member keyword given

/-- If nothing is reported, each name of a definition is found, and it leads to the definition. -/
theorem Tree.get?_of_silent {tree : Tree} (forest : tree.Forest) {root : NodeId}
    (rooted : tree.root? = some root) (silent : tree.buildSymbolTable.reports = []) {id : NodeId}
    (listed : id ∈ tree.definitions root) {node : Node} (live : tree.get? id = some node)
    (plain : node.type ≠ .metadata) {name : String} {category : Category} {span : Span}
    (written : (name, category, span) ∈ tree.identifiers id) :
    ∃ entry, tree.buildSymbolTable.next.table.get? (category.external name) = some entry ∧
      entry.type = node.type ∧ entry.node = id := by
  rw [tree.buildSymbolTable_eq forest rooted] at silent
  -- A name that was entered without a report was the first with its key.
  obtain ⟨quiet, -⟩ :=
    (Registration.filled_silent_iff forest root).mp (List.append_eq_nil_iff.mp silent).1
  have given : ⟨category.external name, node.type, id, span⟩ ∈ Registration.names tree id := by
    simp only [Registration.names, live, Option.map_some, Option.getD_some, Registration.aliases,
      if_neg plain]
    exact List.mem_map.mpr ⟨_, written, rfl⟩
  have found := SymbolTable.get?_addAll_of_silent quiet
    (List.mem_flatMap.mpr ⟨id, listed, given⟩) plain
  exact ⟨_, ((tree.buildSymbolTable_finds forest rooted).names _).trans found, rfl, rfl⟩

/-- A file with one definition that has one name and one property is registered without a report. -/
theorem Tree.buildSymbolTable_of_single {tree : Tree} (forest : tree.Forest) {root : NodeId}
    (rooted : tree.root? = some root) {id : NodeId} (single : tree.definitions root = [id])
    {name keyword : Naming} (named : Registration.names tree id = [name])
    (declared : Registration.keywords tree id = [keyword]) :
    tree.buildSymbolTable.reports = [] := by
  have definition : tree.isOfType NodeTypes.definitions id = true :=
    isOfType_of_mem_definitions (single ▸ List.mem_singleton_self id : id ∈ tree.definitions root)
  have emptied := Registration.sameSyntax_cleared tree [id]
  have filled : Registration.registerOne (Registration.cleared tree [id], []) id =
      ({ (Registration.cleared tree [id]).setTable id (SymbolTable.empty.enter keyword) with
        table := SymbolTable.empty.enter name }, []) := by
    simp only [Registration.registerOne, Registration.names_of_sameSyntax emptied,
      Registration.keywords_of_sameSyntax emptied, Registration.table_cleared,
      Registration.table?_cleared (List.mem_singleton_self id) definition, named, declared,
      Option.getD_some, SymbolTable.addAll_singleton, List.append_nil]
  rw [tree.buildSymbolTable_eq forest rooted, single]
  simp only [List.foldl_cons, List.foldl_nil, filled, List.nil_append]
  -- There is at most one block, so there is nothing to merge.
  rw [Registration.mergeMeta_eq]
  simp only [SymbolTable.enter, SymbolTable.empty, List.nil_append]
  by_cases block : name.entry.type = .metadata <;> simp [block]

end ArgSchema
