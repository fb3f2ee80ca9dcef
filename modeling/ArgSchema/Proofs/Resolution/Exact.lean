import ArgSchema.Proofs.Registration.Anew
import ArgSchema.Proofs.Registration.Keys
import ArgSchema.Proofs.Resolution.Repeated
import ArgSchema.Proofs.Resolution.Uses
import ArgSchema.Proofs.Walk.Operations

/-! Exact resolution: which uses of names are reported, and which are noted at each entry. -/

namespace ArgSchema

namespace Resolution

/-- The problem with a name in a type list: it has no entry, or that of something else than a type. -/
def typeFault? (tree : Tree) (name : String) (span : Span) : Option Diagnostic :=
  match tree.table.get? name with
  | none => some (.located (.name (.unknownType name)) span)
  | some entry =>
    if entry.type = .typeDefinition then none
    else some (.located (.name (.notAType name (.only entry.type))) span)

/-- Whether a definition is what a reference can have as its target: the word for the schema refers to
the schema, a type's name to a type, and any other name to an argument. -/
def isTarget (category : Category) (type : NodeType) : Bool :=
  match category with
  | .metadata => type = .metadata
  | .type => type = .typeDefinition
  | .identifier | .shortlabel | .longlabel | .property => type = .positional ∨ type = .option

/-- The problem with a reference: nothing that it can have as its target has the name, or the target
has no such property. -/
def referenceFault? (tree : Tree) (target : String) (category : Category) (property : String)
    (span : Span) : Option Diagnostic :=
  match (tree.table.get? target).filter (isTarget category ·.type) with
  | none =>
    let problem : NameProblem := match category with
      | .metadata => .unknownMeta
      | .type => .unknownType target
      | .identifier | .shortlabel | .longlabel | .property => .unknownArgument target
    some (.located (.name problem) span)
  | some entry =>
    if ((tree.table? entry.node).bind (·.get? property)).isSome then none
    else some (.located (.name (.unknownProperty target property)) span)

/-- The problems with what a node refers to: one at most for each name of a type list, in order, and
one at most for a reference. -/
def faults (tree : Tree) (id : NodeId) : List Diagnostic :=
  match tree.get? id with
  | some ⟨.types _, _, _, _⟩ => (tree.identifiers id).filterMap fun (name, category, span) =>
      typeFault? tree (category.external name) span
  | some ⟨.reference target category property _, span, _, _⟩ =>
    (referenceFault? tree (category.external target) category property span).toList
  | _ => []

/-- Whether a node is a type list with a name that is found as an entry of a type. -/
def usesType (tree : Tree) (entry : Entry) (id : NodeId) : Bool :=
  match tree.get? id with
  | some ⟨.types _, _, _, _⟩ => (tree.identifiers id).any fun (name, category, _) =>
      tree.table.get? (category.external name) = some entry ∧ entry.type = .typeDefinition
  | _ => false

/-- Whether a node is a reference that has a definition as its target, and whose property is found as
an entry of it. -/
def usesProperty (tree : Tree) (definition : NodeId) (entry : Entry) (id : NodeId) : Bool :=
  match tree.get? id with
  | some ⟨.reference target category property _, _, _, _⟩ =>
    (tree.table.get? (category.external target)).any (fun found =>
      isTarget category found.type ∧ found.node = definition) &&
      (tree.table? definition).bind (·.get? property) = some entry
  | _ => false

/-- What a reference can have as its target is what resolution admits. -/
theorem isTarget_eq (category : Category) (type : NodeType) :
    isTarget category type = decide (type ∈ admitted category) := by
  cases category <;> simp [isTarget, admitted]

/-- What is reported of a name in a type list is the problem with it. -/
theorem nameReports_eq (tree : Tree) (name : String × Category × Span) :
    nameReports tree name = (typeFault? tree (name.2.1.external name.1) name.2.2).toList := by
  -- A name is reported exactly if its entry is missing or is no type.
  unfold nameReports typeNamed typeFault?
  cases tree.table.get? (name.2.1.external name.1) with
  | none => rfl
  | some entry =>
    dsimp only
    by_cases type : entry.type = .typeDefinition
    · simp only [type, if_true, Option.toList_none]
    · simp only [type, if_false, Option.toList_some]

/-- A name that is looked up as an entry is that of a type if the entry is. -/
theorem isSome_typeNamed {tree : Tree} {name : String} {entry : Entry}
    (found : tree.table.get? name = some entry) :
    (typeNamed tree name).toOption.isSome = decide (entry.type = .typeDefinition) := by
  -- The entry is a type or it is not.
  unfold typeNamed
  rw [found]
  dsimp only
  split
  · next type => exact (decide_eq_true type).symm
  · next other => exact (decide_eq_false other).symm

/-- What resolving a node reports are the problems with what it refers to. -/
theorem reported_eq_faults (tree : Tree) (id : NodeId) : reported tree id = faults tree id := by
  -- The cases are the kinds of nodes, and only type lists and references refer to anything.
  unfold reported faults
  cases tree.get? id with
  | none => rfl
  | some node =>
    obtain ⟨kind, span, parent, children⟩ := node
    rw [Option.map_some, Option.getD_some, resolveNode]
    cases kind
    case types =>
      -- Each name of the list is reported for itself.
      rw [reports_resolveTypes, List.filterMap_eq_flatMap_toList]
      exact List.flatMap_congr fun name _ => nameReports_eq tree name
    case reference target category property slot =>
      -- The target is that of an entry, which is asked for its node.
      dsimp only
      rw [reports_resolveReference, target?]
      unfold referenceFault?
      simp only [isTarget_eq]
      cases (tree.table.get? (category.external target)).filter (·.type ∈ admitted category) with
      | none => cases category <;> rfl
      | some entry =>
        simp only [Option.map_some, property?]
        cases (tree.table? entry.node).bind (·.get? property) <;> rfl
    all_goals rfl

/-- Nodes that refer to nothing are not reported. -/
theorem reported_of_other {tree : Tree} {id : NodeId} (other : tree.isOfType referrers id = false) :
    reported tree id = [] := by
  rw [reported_eq_faults, faults]
  cases found : tree.get? id with
  | none => rfl
  | some node =>
    rw [Tree.isOfType_of_get? found] at other
    obtain ⟨kind, span, parent, children⟩ := node
    -- Only lists of types and references refer to something.
    cases kind
    case types => simp [Node.type, NodeKind.type, referrers] at other
    case reference => simp [Node.type, NodeKind.type, referrers] at other
    all_goals rfl

/-- Before anything refers to it, an entry is known by its name. -/
theorem finds_iff {table : SymbolTable} (unused : ∀ entry ∈ table.entries, entry.references = [])
    {entry : Entry} (member : entry ∈ table.entries) (name : String) :
    table.Finds name entry ↔ table.get? name = some entry := by
  unfold SymbolTable.Finds
  constructor
  · intro finds
    obtain ⟨found, search, alike⟩ := Option.map_eq_some_iff.mp finds
    have none := unused found (SymbolTable.get?_eq_some search).1
    have none' := unused entry member
    obtain ⟨naming, key, references⟩ := found
    obtain ⟨naming', key', references'⟩ := entry
    obtain ⟨rfl, rfl⟩ := Prod.mk.inj alike
    -- The references are empty in both, and all else is the same.
    cases none
    cases none'
    exact search
  · intro found
    rw [found]
    rfl

section Unused

variable {tree : Tree}

/-- While no top-level name is referred to, the types that a list uses are found as the entries that it
is noted at. -/
theorem any_typesUsed (unused : ∀ entry ∈ tree.table.entries, entry.references = []) {entry : Entry}
    (member : entry ∈ tree.table.entries) (id : NodeId) :
    ((typesUsed tree id).any fun name => tree.table.Finds name entry) = usesType tree entry id := by
  unfold typesUsed usesType
  cases tree.get? id with
  | none => rfl
  | some node =>
    obtain ⟨kind, span, parent, children⟩ := node
    -- Only a list of types uses types, and it uses those names that are found as types.
    cases kind
    case types =>
      rw [Option.map_some]
      simp only [NodeKind.bare]
      rw [List.any_filter, List.any_map]
      refine List.any_congr rfl fun name => ?_
      simp only [Function.comp_apply, finds_iff unused member]
      rw [Bool.eq_iff_iff, Bool.and_eq_true, decide_eq_true_eq, decide_eq_true_eq]
      constructor
      · rintro ⟨type, found⟩
        exact ⟨found, by simpa [isSome_typeNamed found] using type⟩
      · rintro ⟨found, type⟩
        exact ⟨by simpa [isSome_typeNamed found] using type, found⟩
    all_goals rfl

/-- While no property of a definition is referred to, those that a node uses are found as the entries
that it is noted at. -/
theorem any_propertiesUsed {definition : NodeId} {table : SymbolTable}
    (owned : tree.table? definition = some table)
    (unused : ∀ entry ∈ table.entries, entry.references = []) {entry : Entry}
    (member : entry ∈ table.entries) (id : NodeId) :
    ((propertiesUsed tree definition id).any fun name => table.Finds name entry) =
      usesProperty tree definition entry id := by
  -- Only a reference uses a property, and it uses at most one.
  unfold propertiesUsed usesProperty
  cases tree.get? id with
  | none => rfl
  | some node =>
    obtain ⟨kind, span, parent, children⟩ := node
    cases kind
    case reference target category property slot =>
      rw [Option.map_some]
      simp only [NodeKind.bare]
      have aim : target? tree category (category.external target) = some definition ↔
          (tree.table.get? (category.external target)).any (fun found =>
            isTarget category found.type ∧ found.node = definition) = true := by
        unfold target?
        simp only [isTarget_eq, decide_eq_true_eq]
        cases tree.table.get? (category.external target) with
        | none => simp
        | some found => by_cases kind : found.type ∈ admitted category <;> simp [kind]
      rw [property?, owned, Option.bind_some, Option.isSome_map]
      rw [Bool.eq_iff_iff, Bool.and_eq_true, ← aim, decide_eq_true_eq]
      -- A property that is found as an entry is one that the definition has.
      constructor
      · intro used
        split at used
        · next both =>
          rw [List.any_cons, List.any_nil, Bool.or_false, decide_eq_true_eq,
            finds_iff unused member] at used
          exact ⟨both.1, used⟩
        · cases used
      · rintro ⟨known, found⟩
        rw [if_pos ⟨known, by rw [found]; rfl⟩, List.any_cons, List.any_nil, Bool.or_false,
          decide_eq_true_eq, finds_iff unused member]
        exact found
    all_goals rfl

end Unused

end Resolution

namespace Registration

/-- Entries without all blocks but the first are of different names if the other entries have distinct
keys. -/
theorem nodup_plain_keepFirstMeta {entries : List Entry}
    (once : ((entries.filter (·.type ≠ .metadata)).map (·.rawId)).Nodup) :
    ((keepFirstMeta entries).map Entry.plain).Nodup := by
  -- Entries of one name have the same type and the same key.
  have alike : ∀ {a b : Entry}, a.plain = b.plain → a.type = b.type ∧ a.rawId = b.rawId :=
    fun same => ⟨(Entry.type_eq_of_plain same).1, congrArg Prod.snd same⟩
  induction entries with
  | nil => exact List.nodup_nil
  | cons entry rest ih =>
    rw [keepFirstMeta]
    by_cases block : entry.type = .metadata
    · rw [List.filter_cons_of_neg (by simpa using block)] at once
      rw [if_pos block, List.map_cons, List.nodup_cons]
      refine ⟨fun again => ?_, List.Nodup.of_map Prod.snd (by rwa [List.map_map])⟩
      obtain ⟨other, member, same⟩ := List.mem_map.mp again
      have plain := (List.mem_filter.mp member).2
      rw [(alike same).1, block] at plain
      simp at plain
    · rw [List.filter_cons_of_pos (by simpa using block), List.map_cons, List.nodup_cons] at once
      rw [if_neg block, List.map_cons, List.nodup_cons]
      refine ⟨fun again => ?_, ih once.2⟩
      -- An entry of the same name would be no block either, and have the key of this one.
      obtain ⟨other, member, same⟩ := List.mem_map.mp again
      obtain ⟨type, key⟩ := alike same
      refine once.1 (List.mem_map.mpr ⟨other, List.mem_filter.mpr ⟨keepFirstMeta_subset _ member, ?_⟩,
        key⟩)
      simpa [type] using block

section Registers

variable {tree after : Tree} {ids : List NodeId} (registers : Registers tree ids after)

include registers

/-- The top-level names that registration leaves are those of different entries, and nothing refers to
them yet. -/
theorem Registers.unused : after.table.Distinct ∧
    ∀ entry ∈ after.table.entries, entry.references = [] := by
  -- The entries are those that were made for names, and a new entry has no references.
  refine ⟨?_, fun entry member => ?_⟩
  · -- Leaving out the blocks behind the first leaves the entries different.
    obtain ⟨entered, same, once, -⟩ :=
      SymbolTable.keys_addAll .empty (ids.flatMap (Registration.names tree))
    rw [SymbolTable.Distinct, registers.names, same]
    exact nodup_plain_keepFirstMeta once
  · rw [registers.names] at member
    obtain ⟨naming, -, rfl⟩ := SymbolTable.exists_naming_of_mem (keepFirstMeta_subset _ member)
    rfl

/-- The properties that registration leaves in a definition are those of different entries, and nothing
refers to them yet. -/
theorem Registers.unused_of_mem {id : NodeId} (member : id ∈ ids) {table : SymbolTable}
    (owned : after.table? id = some table) : table.Distinct ∧
      ∀ entry ∈ table.entries, entry.references = [] := by
  have keys := registers.nodup_keys_of_mem member owned
  -- Different keys belong to different entries.
  refine ⟨List.Nodup.of_map Prod.snd (by rwa [List.map_map]), fun entry inside => ?_⟩
  obtain ⟨table', owned', namings, rfl, -⟩ := registers.owned id member
  rw [owned] at owned'
  cases owned'
  obtain ⟨naming, -, rfl⟩ := SymbolTable.exists_naming_of_mem inside
  rfl

end Registers

end Registration

/-- Resolution of a file reports, in document order, the problem of each name in a type list and of each
reference that has one, whatever the tables hold, and nothing else. Right after registration it notes at
each top-level name the type lists, and at each property the references, that were resolved through it,
each once and in document order. -/
theorem Tree.checkReferences_exact {tree : Tree} (forest : tree.Forest) {growth : Growth}
    (rooted : tree.root? = some growth.id) (grows : tree.Grows growth) :
    let checked := tree.checkReferences
    let built := tree.buildSymbolTable.next
    let linked := built.checkReferences.next
    growth.ids.Nodup ∧ checked.result = .ok () ∧
      checked.reports = growth.ids.flatMap (Resolution.faults tree) ∧
      linked.table.entries = built.table.entries.map (fun entry => { entry with
        references := growth.ids.filter (Resolution.usesType built entry) }) ∧
      (∀ id ∈ tree.definitions growth.id, ∃ table, built.table? id = some table ∧
        linked.table? id = some ⟨table.entries.map fun entry => { entry with
          references := growth.ids.filter (Resolution.usesProperty built id entry) }⟩) ∧
      ∀ id, id ∉ tree.definitions growth.id → linked.table? id = built.table? id := by
  intro checked built linked
  have once : growth.ids.Nodup := Grows.nodup forest growth grows
  obtain ⟨-, reports, -⟩ := Resolution.foldl_resolving
    (growth.ids.filter (tree.isOfType Resolution.referrers))
    (fun id member => (List.mem_filter.mp member).2)
    (show tree.SameScopes (tree, ([] : List Diagnostic)).1 from .refl tree)
  -- Registration keeps the shape, so the same nodes are visited afterwards.
  obtain ⟨-, registers⟩ := tree.buildSymbolTable_registers forest rooted
  have forest' : built.Forest := forest.congr registers.same.links
  have rooted' : built.root? = some growth.id := registers.same.root.symm.trans rooted
  obtain ⟨names, properties⟩ := Tree.checkReferences_tables forest' rooted'
    (Grows.congr registers.same.links growth grows)
  obtain ⟨distinct, unused⟩ := registers.unused
  have checked_eq := Tree.checkReferences_eq forest rooted grows
  refine ⟨once, congrArg Reading.result checked_eq, ?_, ?_, fun id member => ?_, fun id absent => ?_⟩
  · refine (congrArg Reading.reports checked_eq).trans (reports.trans ?_)
    -- Nodes that are not visited have no problems.
    rw [List.nil_append, flatMap_filter]
    · exact List.flatMap_congr fun id _ => Resolution.reported_eq_faults tree id
    · exact fun id other => Resolution.reported_of_other other
  · refine (congrArg SymbolTable.entries names).trans
      ((SymbolTable.entries_addReferences_rounds distinct unused once _).trans ?_)
    refine List.map_congr_left fun entry member => ?_
    exact congrArg (fun references => ({ entry with references := references } : Entry))
      (List.filter_congr fun id _ => Resolution.any_typesUsed unused member id)
  · obtain ⟨table, owned, -⟩ := registers.owned id member
    obtain ⟨distinct', unused'⟩ := registers.unused_of_mem member owned
    refine ⟨table, owned, (properties id).trans ?_⟩
    rw [owned, Option.map_some]
    refine congrArg some (congrArg SymbolTable.mk
      ((SymbolTable.entries_addReferences_rounds distinct' unused' once _).trans ?_))
    refine List.map_congr_left fun entry inside => ?_
    exact congrArg (fun references => ({ entry with references := references } : Entry))
      (List.filter_congr fun use _ => Resolution.any_propertiesUsed owned unused' inside use)
  · exact (forest'.confined_checkReferences fun entry member =>
      registers.node_mem member).others id absent

namespace Walk

/-- A list that names a type twice is reported for both names while the type is not registered, and noted
at the type once afterwards. -/
theorem references_of_repeated_type :
    ∃ (tree : Tree) (growth : Growth),
      tree.Forest ∧ tree.root? = some growth.id ∧ tree.Grows growth ∧
        (growth.ids.flatMap (Resolution.faults tree)).length = 2 ∧
        (tree.buildSymbolTable.next.table.entries.map fun entry =>
          growth.ids.filter (Resolution.usesType tree.buildSymbolTable.next entry)) = [[⟨5⟩], []] := by
  -- The argument in the tree has the type twice, and the type is there once.
  let fill : Walk Unit Unit := do
    let file ← alloc .file default
    let type ← alloc (.typeDefinition .empty) default
    let name ← alloc (.identifier "t" .type) default
    let argument ← alloc (.positional false false .empty) default
    let label ← alloc (.identifier "x" .identifier) default
    let types ← alloc (.types []) default
    let first ← alloc (.identifier "t" .type) default
    let second ← alloc (.identifier "t" .type) default
    change (·.addChild file type)
    change (·.addChild type name)
    change (·.addChild file argument)
    change (·.addChild argument label)
    change (·.addChild argument types)
    change (·.addChild types first)
    change (·.addChild types second)
    change (·.setRoot file)
  let tree := (fill.after (Tree.empty, ())).1
  -- Every step of the walk is an operation, so what it leaves is reachable.
  have reachable : tree.Reachable := by
    refine ⟨Unit, Unit, fill, (), ?_, rfl⟩
    exact .bind (.alloc _ _) fun file => .bind (.alloc _ _) fun type =>
      .bind (.alloc _ _) fun name => .bind (.alloc _ _) fun argument =>
      .bind (.alloc _ _) fun label => .bind (.alloc _ _) fun types =>
      .bind (.alloc _ _) fun first => .bind (.alloc _ _) fun second =>
      .bind (.addChild _ _) fun _ => .bind (.addChild _ _) fun _ =>
      .bind (.addChild _ _) fun _ => .bind (.addChild _ _) fun _ =>
      .bind (.addChild _ _) fun _ => .bind (.addChild _ _) fun _ =>
      .bind (.addChild _ _) fun _ => .setRoot _
  have forest := reachable.forest
  have rooted : tree.root? = some ⟨0⟩ := by decide +kernel
  obtain ⟨file, found, -⟩ := forest.root_file rooted
  obtain ⟨growth, grows, top⟩ := Tree.exists_growth forest found
  obtain ⟨-, -, reports, names, -⟩ := Tree.checkReferences_exact forest (top ▸ rooted) grows
  -- What the passes leave is known, and the law says what it stands for.
  have counted : tree.checkReferences.reports.length = 2 := by decide +kernel
  have noted : tree.buildSymbolTable.next.checkReferences.next.table.entries.map (·.references) =
      [[⟨5⟩], []] := by decide +kernel
  rw [reports] at counted
  rw [names, List.map_map] at noted
  exact ⟨tree, growth, forest, top ▸ rooted, grows, counted, noted⟩

end Walk

end ArgSchema
