import ArgSchema.Proofs.Registration.Silent
import ArgSchema.Proofs.Resolution.Linked
import ArgSchema.Proofs.Resolution.Links
import Mathlib.Data.List.Pairwise

/-! Lookups without order: if names are distinct, what they refer to does not depend on what is first. -/

namespace ArgSchema

namespace Tree

/-- No two names of definitions have the same key, other than those of blocks for the schema. -/
def DistinctNames (tree : Tree) (root : NodeId) : Prop :=
  ((tree.definitions root).flatMap (Registration.names tree)).Pairwise fun a b =>
    rawId a.id = rawId b.id → a.type = .metadata ∧ b.type = .metadata

/-- A definition of one of some types that has the key of a name. -/
def HasKey (tree : Tree) (root : NodeId) (name : String) (types : NodeTypes) (id : NodeId) : Prop :=
  id ∈ tree.definitions root ∧
    ∃ naming ∈ Registration.names tree id, rawId naming.id = rawId name ∧ naming.type ∈ types

/-- A property of a definition that has the key of a word. -/
def HasProperty (tree : Tree) (definition : NodeId) (property : String) (config : NodeId) : Prop :=
  ∃ naming ∈ Registration.keywords tree definition,
    rawId naming.id = rawId property ∧ naming.node = config

/-- Two definitions whose properties are found together: they are one, or both are blocks for the
schema. -/
def Together (tree : Tree) (a b : NodeId) : Prop :=
  a = b ∨ (tree.isOfType (NodeTypes.only .metadata) b = true ∧
    tree.isOfType (NodeTypes.only .metadata) a = true)

/-- A name of a block for the schema is the word for it. -/
theorem eq_meta_of_names {tree : Tree} {id : NodeId} {naming : Naming}
    (given : naming ∈ Registration.names tree id) (schema : naming.type = .metadata) :
    naming.id = "meta" := by
  -- A name is of a block for the schema if it is the word, and of no other kind of node.
  obtain ⟨_, -, -, type, ⟨-, spelled⟩ | ⟨plain, -⟩⟩ := Registration.mem_names given
  · exact spelled
  · exact absurd (type.symm.trans schema) plain

/-- If one block for the schema has the key of a name, all blocks have it. -/
theorem HasKey.of_block {tree : Tree} {root : NodeId} {name : String} {types : NodeTypes}
    {id other : NodeId} (keyed : tree.HasKey root name types id)
    (block : tree.isOfType (NodeTypes.only .metadata) id = true)
    (listed : other ∈ tree.definitions root)
    (block' : tree.isOfType (NodeTypes.only .metadata) other = true) :
    tree.HasKey root name types other := by
  obtain ⟨-, naming, given, key, fits⟩ := keyed
  obtain ⟨node, live, -, type, -⟩ := Registration.mem_names given
  -- The name of the one block is the word for the schema, which each block has.
  have schema : naming.type = .metadata := by
    simpa [Tree.isOfType_of_get? live, type] using block
  obtain ⟨naming', given', schema', -, spelled⟩ := Registration.exists_naming_of_block block'
  refine ⟨listed, naming', given', ?_, by rw [schema', ← schema]; exact fits⟩
  rw [spelled, ← eq_meta_of_names given schema, key]

/-- Distinct names are entered without a report. -/
theorem DistinctNames.silent {tree : Tree} {root : NodeId} (distinct : tree.DistinctNames root) :
    (SymbolTable.empty.addAll ((tree.definitions root).flatMap (Registration.names tree))).2 = [] := by
  -- The root table is empty at first, so only the names can clash with each other.
  refine SymbolTable.addAll_silent_iff.mpr ⟨fun naming _ => .inr (by simp [SymbolTable.keys,
    SymbolTable.empty]), distinct.imp fun {first later} apart => ?_⟩
  by_cases same : rawId later.id = rawId first.id
  · exact .inl (apart same.symm).2
  · exact .inr same

/-- Among distinct names only those of blocks for the schema have the key of such a block. -/
theorem DistinctNames.metadata {tree : Tree} {root : NodeId} (distinct : tree.DistinctNames root)
    {a b : Naming} (first : a ∈ (tree.definitions root).flatMap (Registration.names tree))
    (second : b ∈ (tree.definitions root).flatMap (Registration.names tree))
    (same : rawId a.id = rawId b.id) (block : a.type = .metadata) : b.type = .metadata := by
  -- Names with one key are the same, or both are of blocks.
  by_cases equal : a = b
  · exact equal ▸ block
  · -- Names at different places are distinct in either order.
    have symm : Std.Symm fun a b : Naming =>
        rawId a.id = rawId b.id → a.type = .metadata ∧ b.type = .metadata :=
      ⟨fun x y apart same => (apart same.symm).symm⟩
    exact (List.Pairwise.forall distinct first second equal same).2

end Tree

namespace SymbolTable

/-- A table does not tell names of the same key apart. -/
theorem get?_congr {table : SymbolTable} {a b : String} (same : rawId a = rawId b) :
    table.get? a = table.get? b := by
  unfold get?
  rw [same]

/-- Of names that are entered without a report no two have the same key. -/
theorem eq_of_silent {namings : List Naming} (silent : (empty.addAll namings).2 = []) {a b : Naming}
    (first : a ∈ namings) (second : b ∈ namings) (plain : a.type ≠ .metadata)
    (plain' : b.type ≠ .metadata) (same : rawId a.id = rawId b.id) : a = b := by
  -- Both names lead to the one entry of their key.
  have found := get?_addAll_of_silent silent first plain
  rw [get?_congr same, get?_addAll_of_silent silent second plain'] at found
  exact congrArg Entry.toNaming (Option.some.inj found).symm

end SymbolTable

namespace Resolution

open Registration (Registers)

section Lookups

variable {tree : Tree} {root : NodeId} (forest : tree.Forest) (rooted : tree.root? = some root)

include forest rooted

/-- What is found by a name is a definition that has the key of the name. -/
theorem exists_naming_of_get? {name : String} {entry : Entry}
    (found : tree.buildSymbolTable.next.table.get? name = some entry) :
    entry.node ∈ tree.definitions root ∧ ∃ naming ∈ Registration.names tree entry.node,
      rawId naming.id = rawId name ∧ naming.type = entry.type := by
  rw [(tree.buildSymbolTable_finds forest rooted).names] at found
  obtain ⟨member, key⟩ := SymbolTable.get?_eq_some found
  obtain ⟨naming, given, rfl⟩ := SymbolTable.exists_naming_of_mem member
  -- Each entry of the table was entered for a name of a definition.
  obtain ⟨id, listed, given⟩ := List.mem_flatMap.mp given
  obtain ⟨_, -, here, -⟩ := Registration.mem_names given
  have here : naming.entry.node = id := here
  rw [here]
  exact ⟨listed, naming, given, key, rfl⟩

variable (distinct : tree.DistinctNames root)

include distinct

/-- A definition that has the key of a name is what is found by the name, unless both are blocks for
the schema. -/
theorem get?_of_hasKey {name : String} {types : NodeTypes} {id : NodeId}
    (keyed : tree.HasKey root name types id) :
    ∃ entry, tree.buildSymbolTable.next.table.get? name = some entry ∧ entry.type ∈ types ∧
      tree.Together id entry.node := by
  -- A name was registered for the definition, so its key is in the table.
  obtain ⟨listed, naming, given, key, fits⟩ := keyed
  have finds := tree.buildSymbolTable_finds forest rooted
  have known := List.mem_flatMap.mpr ⟨id, listed, given⟩
  obtain ⟨node, live, here, type, -⟩ := Registration.mem_names given
  by_cases schema : naming.type = .metadata
  · -- A block is found by the word for the schema, if not this one then another.
    have block : tree.isOfType (NodeTypes.only .metadata) id = true := by
      simp [Tree.isOfType_of_get? live, ← type, schema]
    have word : rawId name = rawId "meta" := by rw [← key, Tree.eq_meta_of_names given schema]
    obtain ⟨first, found, -⟩ := finds.blocks id listed block
    obtain ⟨listed', naming', given', key', type'⟩ := exists_naming_of_get? forest rooted found
    have schema' : first.type = .metadata := type' ▸ distinct.metadata known
      (List.mem_flatMap.mpr ⟨_, listed', given'⟩) (key.trans (word.trans key'.symm)) schema
    obtain ⟨node', live', -, type'', -⟩ := Registration.mem_names given'
    have block' : tree.isOfType (NodeTypes.only .metadata) first.node = true := by
      simp [Tree.isOfType_of_get? live', ← type'', type', schema']
    refine ⟨first, (SymbolTable.get?_congr word).trans found, ?_, .inr ⟨block', block⟩⟩
    rw [schema', ← schema]
    exact fits
  · -- Any other name is found, since its entry is the only one of the key.
    refine ⟨naming.entry, ?_, fits, .inl here.symm⟩
    rw [← SymbolTable.get?_congr key, finds.names]
    exact SymbolTable.get?_addAll_of_silent distinct.silent known schema

/-- A name in a type list refers to the type that has its key, wherever the type stands. -/
theorem namedType?_iff {name : String × Category × Span} {id : NodeId} :
    namedType? tree.buildSymbolTable.next name = some id ↔
      tree.HasKey root (name.2.1.external name.1) (NodeTypes.only .typeDefinition) id := by
  rw [namedType?_eq]
  constructor
  · intro answer
    obtain ⟨entry, chosen, rfl⟩ := Option.map_eq_some_iff.mp answer
    obtain ⟨found, type⟩ := Option.filter_eq_some_iff.mp chosen
    obtain ⟨listed, naming, given, key, same⟩ := exists_naming_of_get? forest rooted found
    exact ⟨listed, naming, given, key, by simpa [same] using type⟩
  · intro keyed
    obtain ⟨entry, found, fits, here⟩ := get?_of_hasKey forest rooted distinct keyed
    have type : entry.type = .typeDefinition := by simpa using fits
    -- The entry is that of a type, and so of no block.
    obtain ⟨-, naming, given, -, same⟩ := exists_naming_of_get? forest rooted found
    obtain ⟨node, live, -, type', -⟩ := Registration.mem_names given
    have here := here.resolve_right fun blocks => by
      simp [Tree.isOfType_of_get? live, ← type', same, type] at blocks
    simp [found, type, here]

omit distinct in
/-- Without a report, two properties of the same key that a definition or all blocks together have are
one. -/
theorem eq_of_hasProperty (silent : tree.buildSymbolTable.reports = []) {owner other found : NodeId}
    {property : String} {config config' : NodeId} (listed : owner ∈ tree.definitions root)
    (listed' : other ∈ tree.definitions root) (has : tree.HasProperty owner property config)
    (has' : tree.HasProperty other property config')
    (same : tree.Together owner found) (same' : tree.Together other found) : config = config' := by
  -- Properties of one table have different keys if nothing was reported.
  obtain ⟨-, each, blocks⟩ := (Tree.buildSymbolTable_silent_iff forest rooted).mp silent
  obtain ⟨naming, given, key, rfl⟩ := has
  obtain ⟨naming', given', key', rfl⟩ := has'
  have plain : ∀ {id : NodeId} {naming : Naming}, naming ∈ Registration.keywords tree id →
      naming.type ≠ .metadata := by
    intro id naming given schema
    cases (Registration.mem_keywords given).1.symm.trans schema
  refine congrArg Naming.node (?_ : naming = naming')
  by_cases block : tree.isOfType (NodeTypes.only .metadata) found = true
  · -- Both belong to blocks, whose properties were all merged without a report.
    have inside : ∀ {id naming}, id ∈ tree.definitions root → naming ∈ Registration.keywords tree id →
        tree.Together id found → naming ∈ (tree.blocks root).flatMap (Registration.keywords tree) := by
      intro id naming listed given same
      have block : tree.isOfType (NodeTypes.only .metadata) id = true := by
        rcases same with rfl | ⟨-, block⟩
        · exact block
        · exact block
      exact List.mem_flatMap.mpr ⟨id, List.mem_filter.mpr ⟨listed, block⟩, given⟩
    exact SymbolTable.eq_of_silent blocks (inside listed given same) (inside listed' given' same')
      (plain given) (plain given') (key.trans key'.symm)
  -- Any other definition has a table of its own.
  · obtain rfl := same.resolve_right fun both => block both.1
    obtain rfl := same'.resolve_right fun both => block both.1
    exact SymbolTable.eq_of_silent (each _ listed) given given' (plain given) (plain given')
      (key.trans key'.symm)

omit distinct in
/-- What is found by a name has the keys of its properties, and a block that is found has those of all
blocks. -/
theorem keysOf_of_get? {name : String} {entry : Entry}
    (found : tree.buildSymbolTable.next.table.get? name = some entry) {owner : NodeId}
    (together : tree.Together owner entry.node) (listed : owner ∈ tree.definitions root) :
    ∀ naming ∈ Registration.keywords tree owner,
      rawId naming.id ∈ tree.buildSymbolTable.next.keysOf entry.node := by
  -- A definition's properties are in its own table, and those of a block in that of the first
  -- block.
  have finds := tree.buildSymbolTable_finds forest rooted
  rcases together with rfl | ⟨block, block'⟩
  · exact finds.keywords _ listed
  · -- The block that is found is the first that is found by the word for the schema.
    obtain ⟨-, naming, given, key, type⟩ := exists_naming_of_get? forest rooted found
    obtain ⟨node, live, -, type', -⟩ := Registration.mem_names given
    have schema : naming.type = .metadata := by
      simpa [Tree.isOfType_of_get? live, type'] using block
    obtain ⟨first, found', keys⟩ := finds.blocks owner listed block'
    rw [SymbolTable.get?_congr (show rawId "meta" = rawId name by
      rw [← key, Tree.eq_meta_of_names given schema]), found] at found'
    cases found'
    exact keys (type.symm.trans schema)

/-- Without a report, a reference refers to the property that has its key and belongs to a definition
that has the key of its target, or to any block for the schema, wherever these stand. -/
theorem reference_iff (silent : tree.buildSymbolTable.reports = []) {category : Category}
    {target property : String} {config : NodeId} :
    (target? tree.buildSymbolTable.next category target).bind
        (property? tree.buildSymbolTable.next · property) = some config ↔
      ∃ owner, tree.HasKey root target (admitted category) owner ∧
        tree.HasProperty owner property config := by
  obtain ⟨-, registers⟩ := tree.buildSymbolTable_registers forest rooted
  constructor
  · intro answer
    obtain ⟨found, chosen, answer⟩ := Option.bind_eq_some_iff.mp answer
    obtain ⟨entry, kept, rfl⟩ := Option.map_eq_some_iff.mp chosen
    obtain ⟨known, fits⟩ := Option.filter_eq_some_iff.mp kept
    obtain ⟨listed, naming, given, key, type⟩ := exists_naming_of_get? forest rooted known
    have keyed : tree.HasKey root target (admitted category) entry.node :=
      ⟨listed, naming, given, key, by simpa [type] using fits⟩
    obtain ⟨owner, listed', has, rfl | ⟨block, block'⟩⟩ :=
      exists_keyword_of_property? registers listed answer
    · exact ⟨_, keyed, has⟩
    · exact ⟨owner, keyed.of_block block listed' block', has⟩
  · rintro ⟨owner, keyed, has⟩
    -- A definition is found by the name and has the key, even if the owner is another block.
    have listed := keyed.1
    obtain ⟨entry, found, fits, together⟩ := get?_of_hasKey forest rooted distinct keyed
    obtain ⟨inside, -⟩ := exists_naming_of_get? forest rooted found
    have chosen : target? tree.buildSymbolTable.next category target = some entry.node := by
      simp [target?, found, fits]
    have keys := keysOf_of_get? forest rooted found together
    obtain ⟨naming, given, key, rfl⟩ := has
    obtain ⟨table, entry', owned, got⟩ := Tree.mem_keysOf.mp (key ▸ keys listed naming given)
    have answer : property? tree.buildSymbolTable.next entry.node property = some entry'.node := by
      rw [property?, owned, Option.bind_some, got]
      rfl
    -- The property that is found is the only one of its key.
    obtain ⟨other, listed', has', together'⟩ :=
      exists_keyword_of_property? registers inside answer
    rw [chosen, Option.bind_some, answer, eq_of_hasProperty forest rooted silent listed listed'
      ⟨naming, given, key, rfl⟩ has' together together']

end Lookups

end Resolution

end ArgSchema
