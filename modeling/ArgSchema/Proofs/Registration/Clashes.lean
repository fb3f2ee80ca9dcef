import ArgSchema.Proofs.Registration.Complete
import ArgSchema.Proofs.SymbolTable.Occurrences

/-! Clashes: what registration reports of each definition, and of each block that is merged. -/

namespace ArgSchema

namespace Registration

variable {tree : Tree}

/-- The reports of a definition, given the definitions in front of it: of its names that are taken by
earlier names of the file, and of its properties that repeat one of its own. -/
def ownClashes (tree : Tree) (before : List NodeId) (id : NodeId) : List Diagnostic :=
  clashes (before.flatMap (names tree)) (names tree id) ++ clashes [] (keywords tree id)

/-- The reports of a block for the schema when it is merged, given the blocks in front of it: of its
properties that are taken by those of an earlier block. One that repeats a property of its own block
is not merged. -/
def mergeClashes (tree : Tree) (before : List NodeId) (id : NodeId) : List Diagnostic :=
  (firstNames (keywords tree id)).filterMap (clash? (before.flatMap (keywords tree)))

/-- Names of properties are no blocks. -/
theorem plain_keywords (tree : Tree) (id : NodeId) :
    ∀ naming ∈ keywords tree id, naming.type ≠ .metadata := by
  -- A keyword is a property, never the block of the schema.
  intro naming member block
  have property := (mem_keywords member).1
  rw [block] at property
  cases property

/-- Registering definitions reports of each what clashes with the definitions in front of it, and what
clashes in it. -/
theorem reports_foldl_registerOne (ids : List NodeId) :
    ∀ (before : List NodeId) (progress : Tree × List Diagnostic), ids.Nodup →
      tree.SameSyntax progress.1 →
      progress.1.table = (SymbolTable.empty.addAll (before.flatMap (names tree))).1 →
      (∀ id ∈ ids, progress.1.table? id = some .empty) →
      (ids.foldl registerOne progress).2 = progress.2 ++ gather (ownClashes tree) before ids := by
  -- The table holds the names of all definitions in front, and those that follow have empty tables.
  induction ids with
  | nil => exact fun _ progress _ _ _ _ => (List.append_nil progress.2).symm
  | cons first rest ih =>
    intro before progress once same named cleared
    obtain ⟨absent, once⟩ := List.nodup_cons.mp once
    have own : names progress.1 first = names tree first := names_of_sameSyntax same first
    have properties : keywords progress.1 first = keywords tree first :=
      keywords_of_sameSyntax same first
    -- The names of the first are those of one more definition in front of the rest.
    have table : (registerOne progress first).1.table =
        (SymbolTable.empty.addAll ((before ++ [first]).flatMap (names tree))).1 := by
      rw [List.flatMap_append, List.flatMap_singleton, SymbolTable.addAll_append, ← named, ← own]
      rfl
    -- Only the table of the first was filled.
    have left : ∀ id ∈ rest, (registerOne progress first).1.table? id = some .empty := by
      intro id member
      have apart : id ≠ first := fun here => absent (here ▸ member)
      rw [table?_registerOne apart]
      exact cleared id (.tail _ member)
    have reported : (registerOne progress first).2 = progress.2 ++ ownClashes tree before first := by
      rw [registerOne, own, properties, cleared first (.head _), named, ownClashes,
        SymbolTable.reports_addAll, Option.getD_some, ← SymbolTable.reports_addAll _ [],
        SymbolTable.addAll_nil, List.append_assoc]
    rw [List.foldl_cons, ih (before ++ [first]) _ once
      (same.trans (sameSyntax_registerOne progress first)) table left, reported, gather,
      List.append_assoc]

/-- Merging blocks into one of them, which holds the properties of those in front, leaves it with the
properties of all, and reports of each what clashes with the blocks in front of it. -/
theorem foldl_mergeInto_exact {first : NodeId} (later : List Entry) :
    ∀ (before : List NodeId) {merged : Tree × List Diagnostic},
      merged.1.table? first = some (SymbolTable.empty.addAll (before.flatMap (keywords tree))).1 →
      (∀ entry ∈ later, entry.node ≠ first ∧ merged.1.table? entry.node =
        some (SymbolTable.empty.addAll (keywords tree entry.node)).1) →
      let after := later.foldl (mergeInto first) merged
      let blocks := later.map (·.node)
      after.1.table? first =
          some (SymbolTable.empty.addAll ((before ++ blocks).flatMap (keywords tree))).1 ∧
        (∀ id, id ≠ first → after.1.table? id = merged.1.table? id) ∧
        after.1.table = merged.1.table ∧
        after.2 = merged.2 ++ gather (mergeClashes tree) before blocks := by
  -- The table of the first block holds the properties of all blocks that were merged so far.
  induction later with
  | nil => exact fun before merged owned _ => ⟨by simpa using owned, fun _ _ => rfl, rfl,
      (List.append_nil _).symm⟩
  | cons entry rest ih =>
    intro before merged owned each
    obtain ⟨apart, given⟩ := each entry (.head _)
    -- The entries of the block are those of its properties that come first in it.
    have own := SymbolTable.addAll_of_plain (plain_keywords tree entry.node)
    have inside : ((SymbolTable.empty.addAll (keywords tree entry.node)).1.entries.map
        (·.toNaming)) = firstNames (keywords tree entry.node) := by
      rw [own, List.map_map]
      exact List.map_id _
    have merging : mergeInto first merged entry =
        (merged.1.setTable first
          (SymbolTable.empty.addAll ((before ++ [entry.node]).flatMap (keywords tree))).1,
          merged.2 ++ mergeClashes tree before entry.node) := by
      simp only [mergeInto, owned, given, Option.map_some, Option.getD_some, inside,
        SymbolTable.addAll_firstNames (plain_keywords tree entry.node), List.flatMap_append,
        List.flatMap_singleton, mergeClashes]
    -- The first block has the merged table now, and the others are as they were.
    have grown := Tree.table?_setTable_self owned
      (SymbolTable.empty.addAll ((before ++ [entry.node]).flatMap (keywords tree))).1
    have left : ∀ id, id ≠ first → (merged.1.setTable first
        (SymbolTable.empty.addAll ((before ++ [entry.node]).flatMap (keywords tree))).1).table? id =
          merged.1.table? id := fun id other => Tree.table?_setTable_of_ne other _
    have kept : (merged.1.setTable first (SymbolTable.empty.addAll
        ((before ++ [entry.node]).flatMap (keywords tree))).1).table = merged.1.table := rfl
    rw [List.foldl_cons, merging]
    -- The later blocks are merged in turn, with this one among the earlier ones.
    generalize merged.1.setTable first _ = next at grown left kept ⊢
    obtain ⟨first', others, table, reports⟩ :=
      @ih (before ++ [entry.node]) (next, merged.2 ++ mergeClashes tree before entry.node) grown
        fun other member => by
          obtain ⟨apart', given'⟩ := each other (.tail _ member)
          exact ⟨apart', (left _ apart').trans given'⟩
    refine ⟨?_, fun id other => (others id other).trans (left id other), table.trans kept, ?_⟩
    · rw [first', List.append_assoc]
      rfl
    · rw [reports, List.append_assoc]
      rfl

/-- Merging all blocks leaves the first of them with the properties of all, leaves the other tables,
and reports of each block what clashes with those in front of it. -/
theorem mergeMeta_exact {filled : Tree} {blocks : List NodeId}
    (listed : (filled.table.entries.filter (·.type = .metadata)).map (·.node) = blocks)
    (once : blocks.Nodup) (each : ∀ id ∈ blocks, filled.table? id =
      some (SymbolTable.empty.addAll (keywords tree id)).1) :
    let after := mergeMeta filled
    (∀ first, blocks.head? = some first → after.1.table? first =
        some (SymbolTable.empty.addAll (blocks.flatMap (keywords tree))).1) ∧
      (∀ id, blocks.head? ≠ some id → after.1.table? id = filled.table? id) ∧
      after.1.table.entries = keepFirstMeta filled.table.entries ∧
      after.2 = gather (mergeClashes tree) [] blocks := by
  rw [mergeMeta_eq]
  generalize given : filled.table.entries.filter (·.type = .metadata) = entries at listed
  subst listed
  cases entries with
  | nil =>
    -- Without a block nothing is merged.
    have plain : ∀ entry ∈ filled.table.entries, entry.type ≠ .metadata := by
      intro entry member block
      have none := List.filter_eq_nil_iff.mp given entry member
      simp [block] at none
    exact ⟨by simp, fun _ _ => rfl, (keepFirstMeta_eq_self plain).symm, rfl⟩
  | cons block later =>
    rw [List.map_cons] at once each
    obtain ⟨absent, -⟩ := List.nodup_cons.mp once
    have owned := each block.node (.head _)
    rw [← List.flatMap_singleton (keywords tree)] at owned
    obtain ⟨first, others, table, reports⟩ :=
      @foldl_mergeInto_exact tree block.node later [block.node] (filled, []) owned
        fun entry member => by
          have member : entry.node ∈ later.map (·.node) := List.mem_map_of_mem member
          exact ⟨fun here => absent (here ▸ member), each _ (.tail _ member)⟩
    -- Nothing is in front of the first block, so none of its properties clashes.
    have silent : mergeClashes tree [] block.node = [] := by
      refine List.filterMap_eq_nil_iff.mpr fun naming _ => ?_
      rw [clash?, List.flatMap_nil]
      split <;> rfl
    refine ⟨fun id same => ?_, fun id other => ?_, congrArg (fun table => keepFirstMeta table.entries)
      table, ?_⟩
    · cases same
      exact first
    · refine others id fun here => other ?_
      rw [here]
      rfl
    · rw [List.map_cons, gather, silent, reports]
      rfl

end Registration

end ArgSchema
