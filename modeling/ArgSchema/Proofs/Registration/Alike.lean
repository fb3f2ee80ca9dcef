import ArgSchema.Proofs.Registration.Merged
import ArgSchema.Proofs.SymbolTable.Alike
import ArgSchema.Proofs.Tree.Twins

/-! Registration of files that look the same: tables that are alike, and reports of the same kind. -/

namespace ArgSchema

/-- Trees whose tables are alike, given which definitions go together. -/
structure Tree.AlikeTables (Twin : NodeId → NodeId → Prop) (a b : Tree) : Prop where
  /-- The top-level names are alike. -/
  names : a.table.Alike Twin b.table
  /-- The names of the properties are alike in definitions that go together. -/
  owned : ∀ id id', Twin id id' →
    Option.Rel (SymbolTable.Alike fun _ _ => True) (a.table? id) (b.table? id')

namespace Registration

variable {Twin : NodeId → NodeId → Prop} {a b : Tree} {id id' : NodeId}

/-- Twins have names that are alike. -/
theorem names_alike (twins : a.Twins b id id') (together : Twin id id') :
    List.Forall₂ (Naming.Alike Twin) (names a id) (names b id') := by
  obtain ⟨node, node', found, found', kind⟩ := twins.live
  have type : node.type = node'.type := congrArg NodeKind.type kind
  simp only [names, found, found', Option.map_some, Option.getD_some, aliases, ← type]
  -- A block is named by the word for the schema, and anything else by its own names.
  split
  · exact .cons ⟨rfl, rfl, together⟩ .nil
  · refine List.rel_map (fun x y same => ?_) twins.identifiers
    exact ⟨congrArg₂ Category.external same.2 same.1, rfl, together⟩

/-- Twins have properties whose names are alike. -/
theorem keywords_alike (twins : a.Twins b id id') :
    List.Forall₂ (Naming.Alike fun _ _ => True) (keywords a id) (keywords b id') := by
  refine List.rel_flatMap (R := a.Twins b) ?_ fun config config' same => ?_
  · -- Properties stand two levels below a definition, and a twin has twins there.
    exact List.rel_flatMap twins.children fun part part' same => same.childrenOfType _
  -- The keyword is the property's first identifier, if it has one.
  · have labels := same.identifiers
    unfold keyword?
    generalize a.identifiers config = names, b.identifiers config' = others at labels
    cases labels with
    | nil => exact .nil
    | cons first _ => exact .cons ⟨congrArg₂ Category.external first.2 first.1, rfl, trivial⟩ .nil

section Tables

variable (unique : Relator.BiUnique Twin)

include unique

/-- Replacing tables of definitions that go together by tables that are alike keeps tables alike. -/
theorem alike_setTable (alike : a.AlikeTables Twin b) (together : Twin id id')
    {table table' : SymbolTable} (same : table.Alike (fun _ _ => True) table') :
    (a.setTable id table).AlikeTables Twin (b.setTable id' table') := by
  refine ⟨alike.names, fun other other' given => ?_⟩
  have owned := alike.owned other other' given
  have here : other = id ↔ other' = id' := Relator.rel_eq unique given together
  rw [Tree.table?_setTable, Tree.table?_setTable]
  by_cases equal : other = id
  · -- Twins are the same on both sides or on neither, so both tables are replaced or none.
    rw [if_pos equal, if_pos (here.mp equal)]
    generalize a.table? other = table?, b.table? other' = table?' at owned
    cases owned with
    | none => exact .none
    | some => exact .some same
  -- Other nodes keep their tables on both sides.
  · rw [if_neg equal, if_neg fun equal' => equal (here.mpr equal')]
    exact owned

/-- Registering definitions that go together keeps tables alike, and reports alike. -/
theorem alike_registerOne {s s' : Tree × List Diagnostic} (same : a.SameSyntax s.1)
    (same' : b.SameSyntax s'.1) (alike : s.1.AlikeTables Twin s'.1) (reports : SameSeverities s.2 s'.2)
    (twins : a.Twins b id id') (together : Twin id id') :
    (registerOne s id).1.AlikeTables Twin (registerOne s' id').1 ∧
      SameSeverities (registerOne s id).2 (registerOne s' id').2 := by
  have named := names_alike twins together
  have entered := keywords_alike twins
  -- Registration changes no syntax, so the names are those of the files.
  rw [← names_of_sameSyntax same, ← names_of_sameSyntax same'] at named
  rw [← keywords_of_sameSyntax same, ← keywords_of_sameSyntax same'] at entered
  have owned : ((s.1.table? id).getD .empty).Alike (fun _ _ => True)
      ((s'.1.table? id').getD .empty) := by
    have given := alike.owned id id' together
    generalize s.1.table? id = table?, s'.1.table? id' = table?' at given
    cases given with
    | none => exact .empty
    | some same => exact same
  obtain ⟨tops, topReports⟩ := alike.names.addAll named
  -- Names that are alike are entered in tables that are alike.
  obtain ⟨inner, innerReports⟩ := owned.addAll entered
  refine ⟨⟨tops, (alike_setTable unique alike together inner).owned⟩, ?_⟩
  exact (reports.append topReports).append innerReports

/-- Registering definitions that go together in order keeps tables alike, and reports alike. -/
theorem alike_foldl_registerOne {ids ids' : List NodeId}
    (all : List.Forall₂ (fun id id' => a.Twins b id id' ∧ Twin id id') ids ids') :
    ∀ {s s' : Tree × List Diagnostic}, a.SameSyntax s.1 → b.SameSyntax s'.1 →
      s.1.AlikeTables Twin s'.1 → SameSeverities s.2 s'.2 →
      (ids.foldl registerOne s).1.AlikeTables Twin (ids'.foldl registerOne s').1 ∧
        SameSeverities (ids.foldl registerOne s).2 (ids'.foldl registerOne s').2 := by
  -- By induction on the definitions of both sides together.
  induction all with
  | nil => exact fun _ _ alike reports => ⟨alike, reports⟩
  | cons first _ ih =>
    intro s s' same same' alike reports
    obtain ⟨alike, reports⟩ := alike_registerOne unique same same' alike reports first.1 first.2
    exact ih (same.trans (sameSyntax_registerOne s _)) (same'.trans (sameSyntax_registerOne s' _))
      alike reports

/-- Merging blocks that go together into such blocks keeps tables alike, and reports alike. -/
theorem alike_mergeInto {s s' : Tree × List Diagnostic} (alike : s.1.AlikeTables Twin s'.1)
    (reports : SameSeverities s.2 s'.2) (together : Twin id id') {later later' : Entry}
    (entries : later.Alike Twin later') :
    (mergeInto id s later).1.AlikeTables Twin (mergeInto id' s' later').1 ∧
      SameSeverities (mergeInto id s later).2 (mergeInto id' s' later').2 := by
  have first := alike.owned id id' together
  have more := alike.owned later.node later'.node entries.naming.node
  unfold mergeInto
  generalize found : s.1.table? id = table?, found' : s'.1.table? id' = table?' at first
  simp only [found, found']
  cases first with
  | none => exact ⟨alike, reports⟩
  | some same =>
    generalize s.1.table? later.node = more?, s'.1.table? later'.node = more?' at more
    -- The properties of both later blocks have the same names, entry by entry.
    have names : List.Forall₂ (Naming.Alike fun _ _ => True)
        (((more?.map (·.entries)).getD []).map (·.toNaming))
        (((more?'.map (·.entries)).getD []).map (·.toNaming)) := by
      cases more with
      | none => exact .nil
      | some given => exact given.namings
    obtain ⟨tables, added⟩ := same.addAll names
    exact ⟨alike_setTable unique alike together tables, reports.append added⟩

/-- Merging block after block keeps tables alike, and reports alike. -/
theorem alike_foldl_mergeInto (together : Twin id id') {later later' : List Entry}
    (entries : List.Forall₂ (Entry.Alike Twin) later later') :
    ∀ {s s' : Tree × List Diagnostic}, s.1.AlikeTables Twin s'.1 → SameSeverities s.2 s'.2 →
      (later.foldl (mergeInto id) s).1.AlikeTables Twin (later'.foldl (mergeInto id') s').1 ∧
        SameSeverities (later.foldl (mergeInto id) s).2 (later'.foldl (mergeInto id') s').2 := by
  -- By induction on the later blocks of both sides together.
  induction entries with
  | nil => exact fun alike reports => ⟨alike, reports⟩
  | cons first _ ih =>
    intro s s' alike reports
    obtain ⟨alike, reports⟩ := alike_mergeInto unique alike reports together first
    exact ih alike reports

omit unique in
/-- Dropping all blocks for the schema but the first keeps entries alike. -/
theorem alike_keepFirstMeta {entries entries' : List Entry}
    (alike : List.Forall₂ (Entry.Alike Twin) entries entries') :
    List.Forall₂ (Entry.Alike Twin) (keepFirstMeta entries) (keepFirstMeta entries') := by
  induction alike with
  | nil => exact .nil
  | @cons entry entry' rest rest' first others ih =>
    rw [keepFirstMeta, keepFirstMeta, first.type]
    -- A block on one side is a block on the other, and is kept or dropped in both.
    split
    · exact .cons first (List.rel_filter (fun x y same => by simp [same.type]) others)
    · exact .cons first ih

/-- Merging the blocks for the schema keeps tables alike, and reports alike. -/
theorem alike_mergeMeta (alike : a.AlikeTables Twin b) :
    (mergeMeta a).1.AlikeTables Twin (mergeMeta b).1 ∧
      SameSeverities (mergeMeta a).2 (mergeMeta b).2 := by
  -- Entries that are alike have the same type, so the blocks go together.
  have blocks : List.Forall₂ (Entry.Alike Twin) (a.table.entries.filter (·.type = .metadata))
      (b.table.entries.filter (·.type = .metadata)) :=
    List.rel_filter (fun x y same => by simp [same.type]) alike.names
  rw [mergeMeta_eq, mergeMeta_eq]
  generalize a.table.entries.filter (·.type = .metadata) = list,
    b.table.entries.filter (·.type = .metadata) = list' at blocks
  cases blocks with
  | nil => exact ⟨alike, rfl⟩
  | @cons first first' later later' block others =>
    -- The later blocks are merged into the first on both sides.
    obtain ⟨merged, reports⟩ := @alike_foldl_mergeInto _ _ _ unique block.naming.node _ _ others
      (a, []) (b, []) alike rfl
    exact ⟨⟨alike_keepFirstMeta merged.names, merged.owned⟩, reports⟩

end Tables

/-- Emptied tables are alike in definitions that go together. -/
theorem alike_cleared {ids ids' : List NodeId} (tables : ∀ id ∈ ids, a.isOfType NodeTypes.definitions id)
    (tables' : ∀ id ∈ ids', b.isOfType NodeTypes.definitions id)
    (inside : ∀ id id', Twin id id' → id ∈ ids ∧ id' ∈ ids') :
    (cleared a ids).AlikeTables Twin (cleared b ids') := by
  -- All definitions have empty tables, on both sides.
  refine ⟨?_, fun id id' together => ?_⟩
  · rw [table_cleared, table_cleared]
    exact .empty
  · obtain ⟨member, member'⟩ := inside id id' together
    rw [table?_cleared member (tables id member), table?_cleared member' (tables' id' member')]
    exact .some .empty

end Registration

/-- Definitions of two files that stand at the same place. -/
def Tree.Beside (a b : Tree) (root root' id id' : NodeId) : Prop :=
  (id, id') ∈ (a.definitions root).zip (b.definitions root')

/-- In each file no definition stands at two places. -/
theorem Tree.biUnique_beside {a b : Tree} (forest : a.Forest) (forest' : b.Forest)
    (root root' : NodeId) : Relator.BiUnique (a.Beside b root root') := by
  have once := forest.nodup_definitions root
  have once' := forest'.nodup_definitions root'
  -- Two definitions beside each other have the same number.
  have place : ∀ {id id'}, a.Beside b root root' id id' → ∃ (i : Nat) (inside : i < _) (inside' : i < _),
      (a.definitions root)[i] = id ∧ (b.definitions root')[i] = id' := by
    intro id id' member
    obtain ⟨i, inside, same⟩ := List.getElem_of_mem member
    rw [List.getElem_zip] at same
    obtain ⟨first, second⟩ := Prod.mk.inj same
    rw [List.length_zip] at inside
    exact ⟨i, by omega, by omega, first, second⟩
  constructor
  · -- A definition that stands at one place has one number.
    rintro x y z first second
    obtain ⟨i, inside, inside', rfl, rfl⟩ := place first
    obtain ⟨j, within, within', rfl, same⟩ := place second
    simp only [(List.Nodup.getElem_inj_iff once').mp same]
  · rintro x y z first second
    obtain ⟨i, inside, inside', rfl, rfl⟩ := place first
    obtain ⟨j, within, within', same, rfl⟩ := place second
    simp only [(List.Nodup.getElem_inj_iff once).mp same]

/-- Registration of files that look the same leaves tables that are alike, and reports of the same
severities in the same order. -/
theorem Tree.Twins.registers {a b : Tree} {root root' : NodeId} (twins : a.Twins b root root')
    (forest : a.Forest) (forest' : b.Forest) (rooted : a.root? = some root)
    (rooted' : b.root? = some root') :
    a.buildSymbolTable.next.AlikeTables (a.Beside b root root') b.buildSymbolTable.next ∧
      SameSeverities a.buildSymbolTable.reports b.buildSymbolTable.reports := by
  have unique := Tree.biUnique_beside forest forest' root root'
  -- Files that look the same have as many definitions, one beside the other.
  have all : List.Forall₂ (fun id id' => a.Twins b id id' ∧ a.Beside b root root' id id')
      (a.definitions root) (b.definitions root') := by
    obtain ⟨long, each⟩ := List.forall₂_iff_zip.mp (twins.childrenOfType NodeTypes.definitions)
    exact List.forall₂_iff_zip.mpr ⟨long, fun member => ⟨each member, member⟩⟩
  have emptied : (Registration.cleared a (a.definitions root)).AlikeTables (a.Beside b root root')
      (Registration.cleared b (b.definitions root')) :=
    Registration.alike_cleared (fun _ => Tree.isOfType_of_mem_definitions)
      (fun _ => Tree.isOfType_of_mem_definitions) fun id id' member => List.of_mem_zip member
  obtain ⟨filled, reports⟩ := @Registration.alike_foldl_registerOne _ _ _ unique _ _ all
    (Registration.cleared a (a.definitions root), [])
    (Registration.cleared b (b.definitions root'), [])
    (Registration.sameSyntax_cleared a _) (Registration.sameSyntax_cleared b _) emptied rfl
  obtain ⟨merged, more⟩ := Registration.alike_mergeMeta unique filled
  rw [a.buildSymbolTable_eq forest rooted, b.buildSymbolTable_eq forest' rooted']
  exact ⟨merged, reports.append more⟩

end ArgSchema
