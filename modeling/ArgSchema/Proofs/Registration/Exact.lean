import ArgSchema.Proofs.Registration.Silent
import ArgSchema.Proofs.SymbolTable.Occurrences
import ArgSchema.Proofs.Walk.Operations

/-! Exact registration: which names every table holds, and which are reported instead. -/

namespace ArgSchema

namespace SymbolTable

/-- Once a block was entered, all others are left out. -/
theorem filter_entered_of_block (namings : List Naming) :
    ∀ earlier : List Naming, (∃ block ∈ earlier, block.type = .metadata) →
      (gather (fun earlier naming => if (clash? earlier naming).isNone then [naming.entry] else [])
        earlier namings).filter (·.type ≠ .metadata) =
        (firstBehind earlier namings).map Naming.entry := by
  -- The block stays among the names in front of those that are left.
  induction namings with
  | nil => exact fun _ _ => rfl
  | cons naming rest ih =>
    intro earlier found
    obtain ⟨block, member, first⟩ := found
    have later := ih (earlier ++ [naming]) ⟨block, List.mem_append_left _ member, first⟩
    rw [gather, List.filter_append, later, firstBehind, gather, List.map_append]
    congr 1
    by_cases other : naming.type = .metadata
    · -- Another block never clashes, but it does not come first.
      have behind : comesFirst earlier naming = false := by
        rw [comesFirst, if_pos other, List.all_eq_false]
        exact ⟨block, member, by simp [first]⟩
      rw [behind, clash?, if_pos other]
      simp [Naming.entry, other]
    · rw [comesFirst_of_plain other]
      split <;> simp [Naming.entry, other]

/-- The entries of several names, without all blocks but the first, are those of the names that come
first. -/
theorem keepFirstMeta_entered (namings : List Naming) :
    ∀ earlier : List Naming, (∀ naming ∈ earlier, naming.type ≠ .metadata) →
      Registration.keepFirstMeta (gather (fun earlier naming =>
        if (clash? earlier naming).isNone then [naming.entry] else []) earlier namings) =
        (firstBehind earlier namings).map Naming.entry := by
  -- Up to the first block both sides keep the same entries, and behind it no block is left.
  induction namings with
  | nil => exact fun _ _ => rfl
  | cons naming rest ih =>
    intro earlier plain
    rw [gather, firstBehind, gather, List.map_append]
    by_cases block : naming.type = .metadata
    · -- This is the first block, so all others behind it are left out.
      have first : comesFirst earlier naming = true := by
        rw [comesFirst, if_pos block, List.all_eq_true]
        exact fun other member => by simpa using plain other member
      have rest := filter_entered_of_block rest (earlier ++ [naming]) ⟨naming, by simp, block⟩
      have type : naming.entry.type = .metadata := block
      rw [first, if_pos rfl, clash?, if_pos block, Option.isNone_none, if_pos rfl,
        List.singleton_append, Registration.keepFirstMeta, if_pos type, rest]
      rfl
    · have others := ih (earlier ++ [naming]) fun other member => by
        rcases List.mem_append.mp member with old | new
        · exact plain other old
        · rwa [List.mem_singleton.mp new]
      have type : naming.entry.type ≠ .metadata := block
      rw [comesFirst_of_plain block]
      -- Any other name is kept if it is not taken, and blocks are looked for behind it.
      split
      · rw [List.singleton_append, Registration.keepFirstMeta, if_neg type, others]
        rfl
      · exact others

/-- Names of blocks are entered all. -/
theorem blocks_addAll (namings : List Naming) :
    ∀ table : SymbolTable, (table.addAll namings).1.entries.filter (·.type = .metadata) =
      table.entries.filter (·.type = .metadata) ++
        (namings.filter (·.type = .metadata)).map Naming.entry := by
  -- By induction on the names: a block is never refused.
  induction namings with
  | nil => exact fun table => (List.append_nil _).symm
  | cons naming rest ih =>
    intro table
    by_cases admitted : table.Admits naming
    · rw [addAll_cons_of_admits admitted, ih, enter, List.filter_append, List.append_assoc]
      congr 1
      by_cases block : naming.type = .metadata <;> simp [Naming.entry, block]
    · -- What is refused is no block.
      obtain ⟨report, -, added⟩ := addAll_cons_of_not_admits admitted rest
      have other : naming.type ≠ .metadata := fun block => admitted (.inl block)
      rw [added, ih, List.filter_cons_of_neg (by simpa using other)]

end SymbolTable

/-- What registration of a file leaves and reports. The top-level names are those of all definitions
that come first, with the first block for the schema only. Each definition has those of its properties
that come first in it, but the first block has those that come first in all blocks. All other names and
properties are reported, in document order, first those of single definitions, and then those of blocks
that only clash with an earlier block. -/
theorem Tree.buildSymbolTable_exact {tree : Tree} (forest : tree.Forest) {root : NodeId}
    (rooted : tree.root? = some root) :
    let definitions := tree.definitions root
    let blocks := tree.blocks root
    let built := tree.buildSymbolTable
    built.result = .ok () ∧
      built.next.table.entries =
        (firstNames (definitions.flatMap (Registration.names tree))).map Naming.entry ∧
      (∀ first, blocks.head? = some first → built.next.table? first =
        some ⟨(firstNames (blocks.flatMap (Registration.keywords tree))).map Naming.entry⟩) ∧
      (∀ id ∈ definitions, blocks.head? ≠ some id → built.next.table? id =
        some ⟨(firstNames (Registration.keywords tree id)).map Naming.entry⟩) ∧
      built.reports = gather (Registration.ownClashes tree) [] definitions ++
        gather (Registration.mergeClashes tree) [] blocks := by
  intro definitions blocks built
  have own := fun id => @isOfType_of_mem_definitions tree root id
  obtain ⟨-, named, inside⟩ := Registration.filled_spec forest root
  have emptied := Registration.sameSyntax_cleared tree definitions
  -- Each definition is registered behind those in front of it, with all tables empty at first.
  have reported := Registration.reports_foldl_registerOne definitions []
    (Registration.cleared tree definitions, []) (forest.nodup_definitions root) emptied
    (Registration.table_cleared tree definitions)
    fun id member => Registration.table?_cleared member (own id member)
  -- All blocks among the definitions have an entry, until they are merged.
  have listed : ((definitions.foldl Registration.registerOne
      (Registration.cleared tree definitions, [])).1.table.entries.filter
        (·.type = .metadata)).map (·.node) = blocks := by
    rw [named, SymbolTable.blocks_addAll, List.map_append, List.map_map]
    exact Registration.blocks_of_names own
  -- Merging gives the first block all properties of the blocks.
  obtain ⟨first, others, names, merged⟩ := Registration.mergeMeta_exact listed
    ((forest.nodup_definitions root).filter _) fun id member =>
      inside id (List.mem_filter.mp member).1
  have same : built = _ := tree.buildSymbolTable_eq forest rooted
  rw [same]
  refine ⟨rfl, ?_, fun id head => ?_, fun id member other => ?_, congrArg₂ _ reported merged⟩
  · -- All names were entered that do not clash, and then all blocks but the first were dropped.
    rw [names, named]
    have entries := SymbolTable.entries_addAll_of_names
      ((tree.definitions root).flatMap (Registration.names tree)) []
    exact (congrArg _ entries).trans (SymbolTable.keepFirstMeta_entered _ [] (by simp))
  · -- The first block has the properties of all blocks, none of which is a block itself.
    refine (first id head).trans (congrArg some ?_)
    rw [SymbolTable.addAll_of_plain]
    intro naming given
    obtain ⟨block, -, known⟩ := List.mem_flatMap.mp given
    exact Registration.plain_keywords tree block naming known
  · rw [others id other, inside id member,
      SymbolTable.addAll_of_plain (Registration.plain_keywords tree id)]

namespace Walk

/-- A name and a property are entered once, and reported where they are written again. -/
theorem reports_of_taken_names :
    ∃ (tree : Tree) (root : NodeId), tree.Forest ∧ tree.root? = some root ∧
      tree.buildSymbolTable.next.table.entries.map (·.id) = ["meta", "<t>"] ∧
      (gather (Registration.ownClashes tree) [] (tree.definitions root)).length = 1 ∧
      (gather (Registration.mergeClashes tree) [] (tree.blocks root)).length = 1 ∧
      tree.buildSymbolTable.reports.length = 2 := by
  -- The tree has a clash among its definitions and one between its blocks.
  let fill : Walk Unit Unit := do
    let file ← alloc .file default
    let block ← alloc (.metadata .empty) default
    let configs ← alloc .configs default
    let config ← alloc .config default
    let keyword ← alloc (.identifier "a" .property) default
    let later ← alloc (.metadata .empty) default
    let others ← alloc .configs default
    let other ← alloc .config default
    let again ← alloc (.identifier "a" .property) default
    let type ← alloc (.typeDefinition .empty) default
    let name ← alloc (.identifier "t" .type) default
    let argument ← alloc (.positional false false .empty) default
    let label ← alloc (.identifier "t" .identifier) default
    change (·.addChild file block)
    change (·.addChild block configs)
    change (·.addChild configs config)
    change (·.addChild config keyword)
    change (·.addChild file later)
    change (·.addChild later others)
    change (·.addChild others other)
    change (·.addChild other again)
    change (·.addChild file type)
    change (·.addChild type name)
    change (·.addChild file argument)
    change (·.addChild argument label)
    change (·.setRoot file)
  let tree := (fill.after (Tree.empty, ())).1
  -- Every step of the walk is an operation, so what it leaves is reachable.
  have reachable : tree.Reachable := by
    refine ⟨Unit, Unit, fill, (), ?_, rfl⟩
    exact .bind (.alloc _ _) fun file => .bind (.alloc _ _) fun block =>
      .bind (.alloc _ _) fun configs => .bind (.alloc _ _) fun config =>
      .bind (.alloc _ _) fun keyword => .bind (.alloc _ _) fun later =>
      .bind (.alloc _ _) fun others => .bind (.alloc _ _) fun other =>
      .bind (.alloc _ _) fun again => .bind (.alloc _ _) fun type =>
      .bind (.alloc _ _) fun name => .bind (.alloc _ _) fun argument =>
      .bind (.alloc _ _) fun label =>
      .bind (.addChild _ _) fun _ => .bind (.addChild _ _) fun _ =>
      .bind (.addChild _ _) fun _ => .bind (.addChild _ _) fun _ =>
      .bind (.addChild _ _) fun _ => .bind (.addChild _ _) fun _ =>
      .bind (.addChild _ _) fun _ => .bind (.addChild _ _) fun _ =>
      .bind (.addChild _ _) fun _ => .bind (.addChild _ _) fun _ =>
      .bind (.addChild _ _) fun _ => .bind (.addChild _ _) fun _ => .setRoot _
  have rooted : tree.root? = some ⟨0⟩ := by decide +kernel
  obtain ⟨-, names, -, -, reports⟩ := Tree.buildSymbolTable_exact reachable.forest rooted
  -- The second block and the second definition called t are left out.
  have entered : (firstNames ((tree.definitions ⟨0⟩).flatMap (Registration.names tree))).map
      (·.id) = ["meta", "<t>"] := by decide +kernel
  have taken : ((gather (Registration.ownClashes tree) [] (tree.definitions ⟨0⟩)).length,
      (gather (Registration.mergeClashes tree) [] (tree.blocks ⟨0⟩)).length) = (1, 1) := by
    decide +kernel
  obtain ⟨own, merged⟩ := Prod.mk.inj taken
  refine ⟨tree, ⟨0⟩, reachable.forest, rooted, ?_, own, merged, ?_⟩
  · rw [names, List.map_map]
    exact entered
  · rw [reports, List.length_append, own, merged]

end Walk

end ArgSchema
