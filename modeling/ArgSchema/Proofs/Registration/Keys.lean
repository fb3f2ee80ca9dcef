import ArgSchema.Proofs.Registration.Merged

/-! Keys after registration: they are distinct in each table, save for one clash with the schema. -/

namespace ArgSchema

namespace Registration

/-- In front of the first block for the schema all entries stay. -/
theorem keepFirstMeta_append {front back : List Entry}
    (others : ∀ entry ∈ front, entry.type ≠ .metadata) :
    keepFirstMeta (front ++ back) = front ++ keepFirstMeta back := by
  -- By induction on the front, which has no block to keep.
  induction front with
  | nil => rfl
  | cons entry rest ih =>
    rw [List.cons_append, keepFirstMeta, if_neg (others entry (by simp)),
      ih fun other member => others other (by simp [member])]
    rfl

/-- Without blocks for the schema, added names have distinct keys. -/
theorem nodup_keys_addAll {namings : List Naming}
    (others : ∀ naming ∈ namings, naming.type ≠ .metadata) :
    (SymbolTable.empty.addAll namings).1.keys.Nodup := by
  obtain ⟨entered, same, once, _⟩ := SymbolTable.keys_addAll SymbolTable.empty namings
  -- The keys of names that are no blocks are distinct, and these are all.
  have kept : entered.filter (·.type ≠ .metadata) = entered := by
    refine List.filter_eq_self.mpr fun entry member => ?_
    have inside : entry ∈ (SymbolTable.empty.addAll namings).1.entries := by simp [same, member]
    obtain ⟨naming, given, rfl⟩ := SymbolTable.exists_naming_of_mem inside
    exact decide_eq_true (others naming given)
  rw [kept] at once
  rw [SymbolTable.keys, same]
  exact once

/-- With a first block for the schema, keys are distinct unless an earlier name has its key. -/
theorem nodup_keepFirstMeta {before after : List Naming} {block : Naming}
    (others : ∀ naming ∈ before, naming.type ≠ .metadata) (first : block.type = .metadata) :
    ((keepFirstMeta (SymbolTable.empty.addAll (before ++ block :: after)).1.entries).map
        (·.rawId)).Nodup ↔
      ∀ naming ∈ before, rawId naming.id ≠ rawId block.id := by
  have front := nodup_keys_addAll others
  generalize start : (SymbolTable.empty.addAll before).1 = table at front
  -- In front of the block there is no other.
  have early : ∀ entry ∈ table.entries, entry.type ≠ .metadata := by
    intro entry member
    rw [← start] at member
    obtain ⟨naming, given, rfl⟩ := SymbolTable.exists_naming_of_mem member
    exact others naming given
  obtain ⟨entered, same, once, apart⟩ := SymbolTable.keys_addAll (table.enter block) after
  have entries : (SymbolTable.empty.addAll (before ++ block :: after)).1.entries =
      table.entries ++ block.entry :: entered := by
    rw [SymbolTable.addAll_append, start, SymbolTable.addAll_cons_of_admits (.inl first), same]
    simp [SymbolTable.enter]
  have kept : keepFirstMeta (block.entry :: entered) =
      block.entry :: entered.filter (·.type ≠ .metadata) := by
    rw [keepFirstMeta, if_pos (by exact first)]
  rw [entries, keepFirstMeta_append early, kept, List.map_append, List.map_cons]
  -- Later names are new, so only the block itself can clash with what stands in front of it.
  have later : ∀ key ∈ (entered.filter (·.type ≠ .metadata)).map (·.rawId),
      key ∉ table.keys ∧ key ≠ rawId block.id := by
    intro key member
    obtain ⟨entry, inside, rfl⟩ := List.mem_map.mp member
    obtain ⟨inside, other⟩ := List.mem_filter.mp inside
    have new := apart entry inside (by simpa using other)
    simpa [SymbolTable.keys, SymbolTable.enter, Naming.entry, not_or] using new
  have taken : rawId block.id ∈ table.keys ↔ ∃ naming ∈ before, rawId naming.id = rawId block.id := by
    rw [← start, SymbolTable.mem_keys_addAll]
    simp [SymbolTable.keys, SymbolTable.empty]
  constructor
  · intro distinct naming given clash
    have disjoint := (List.nodup_append.mp distinct).2.2
    exact disjoint _ (taken.mpr ⟨naming, given, clash⟩) _ (List.mem_cons_self) rfl
  · intro free
    refine List.nodup_append.mpr ⟨front, List.nodup_cons.mpr ⟨fun again => ?_, once⟩, ?_⟩
    · exact (later _ again).2 rfl
    -- A key on both sides would be that of the block.
    · rintro key here _ there rfl
      rcases List.mem_cons.mp there with rfl | there
      · obtain ⟨naming, given, clash⟩ := taken.mp here
        exact free naming given clash
      · exact (later key there).1 here

section Registers

variable {tree after : Tree} {ids : List NodeId} (registers : Registers tree ids after)

include registers

/-- No two properties in the table of a definition have the same key. -/
theorem Registers.nodup_keys_of_mem {id : NodeId} (member : id ∈ ids) {table : SymbolTable}
    (owned : after.table? id = some table) : table.keys.Nodup := by
  obtain ⟨table', owned', namings, rfl, own⟩ := registers.owned id member
  rw [owned] at owned'
  cases owned'
  -- A property is no block for the schema, and everything else is entered once only.
  refine nodup_keys_addAll fun naming given => ?_
  obtain ⟨owner, _, known, _⟩ := own naming given
  rw [(mem_keywords known).1]
  exact nofun

/-- No two top-level names have the same key, unless a definition in front of the first block for
the schema has a name with the key of that block. -/
theorem Registers.nodup_keys_iff
    (live : ∀ id ∈ ids, tree.isOfType NodeTypes.definitions id = true) :
    after.table.keys.Nodup ↔ ∀ before block rest, ids = before ++ block :: rest →
      (∀ id ∈ before, tree.isOfType (NodeTypes.only .metadata) id = false) →
      tree.isOfType (NodeTypes.only .metadata) block = true →
      ∀ id ∈ before, ∀ naming ∈ Registration.names tree id, rawId naming.id ≠ rawId "meta" := by
  -- The first block parts the definitions, and only names in front of it can clash with it.
  rw [SymbolTable.keys, registers.names]
  -- Only blocks have names of blocks.
  have plain : ∀ front : List NodeId,
      (∀ id ∈ front, tree.isOfType (NodeTypes.only .metadata) id = false) →
      ∀ naming ∈ front.flatMap (Registration.names tree), naming.type ≠ .metadata := by
    intro front others naming given block
    obtain ⟨id, inside, given⟩ := List.mem_flatMap.mp given
    obtain ⟨node, found, _, type, _⟩ := mem_names given
    have other := others id inside
    rw [Tree.isOfType_of_get? found, ← type, block] at other
    simp at other
  have split : ∀ before block rest, ids = before ++ block :: rest →
      (∀ id ∈ before, tree.isOfType (NodeTypes.only .metadata) id = false) →
      tree.isOfType (NodeTypes.only .metadata) block = true →
      (((keepFirstMeta (SymbolTable.empty.addAll (ids.flatMap (Registration.names tree))).1.entries).map
        (·.rawId)).Nodup ↔
          ∀ id ∈ before, ∀ naming ∈ Registration.names tree id, rawId naming.id ≠ rawId "meta") := by
    rintro before block rest rfl others first
    -- The block has a single name, the word for the schema.
    obtain ⟨node, found, type⟩ := Tree.exists_of_isOfType_only first
    have single : Registration.names tree block = [⟨"meta", .metadata, block, node.span⟩] := by
      simp [Registration.names, found, aliases, type]
    rw [List.flatMap_append, List.flatMap_cons, single, List.singleton_append,
      nodup_keepFirstMeta (plain before others) rfl]
    simp only [List.mem_flatMap, forall_exists_index, and_imp]
    exact ⟨fun free id member naming given => free naming id member given,
      fun free naming id member given => free id member naming given⟩
  -- Both directions cut the definitions at the first block, if there is one.
  constructor
  · exact fun distinct before block rest same others first => (split before block rest same others
      first).mp distinct
  · intro free
    by_cases blocks : ∃ id ∈ ids, tree.isOfType (NodeTypes.only .metadata) id = true
    · -- The definitions up to the first block have no block among them.
      obtain ⟨id, given, type⟩ := blocks
      obtain ⟨block, before, rest, others, first, same, _⟩ := List.exists_of_eraseP given type
      have others : ∀ id ∈ before, tree.isOfType (NodeTypes.only .metadata) id = false :=
        fun id member => Bool.eq_false_iff.mpr (others id member)
      exact (split before block rest same others first).mpr
        (free before block rest same others first)
    · simp only [not_exists, not_and, Bool.not_eq_true] at blocks
      rw [keepFirstMeta_eq_self fun entry member => ?_]
      · exact nodup_keys_addAll (plain ids blocks)
      · obtain ⟨naming, given, rfl⟩ := SymbolTable.exists_naming_of_mem member
        exact plain ids blocks naming given

end Registers

end Registration

end ArgSchema
