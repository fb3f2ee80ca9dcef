import ArgSchema.Proofs.SymbolTable.Entries

/-! Back-references: which entries nodes are noted at when they resolve against names. -/

namespace ArgSchema

namespace Entry

/-- Noting a reference changes neither the name nor its key. -/
@[simp] theorem plain_refer (entry : Entry) (node : NodeId) : (entry.refer node).plain = entry.plain := by
  unfold refer
  split <;> rfl

/-- The entry with more references in order, each noted once. -/
def referAll (entry : Entry) (nodes : List NodeId) : Entry := nodes.foldl refer entry

/-- Noting references changes neither the name nor its key. -/
@[simp] theorem plain_referAll (nodes : List NodeId) :
    ∀ entry : Entry, (entry.referAll nodes).plain = entry.plain := by
  -- By induction on the references, each of which leaves the rest of the entry alone.
  induction nodes with
  | nil => exact fun _ => rfl
  | cons node rest ih => exact fun entry => (ih (entry.refer node)).trans (entry.plain_refer node)

/-- References are noted piece by piece. -/
theorem referAll_append (entry : Entry) (nodes more : List NodeId) :
    entry.referAll (nodes ++ more) = (entry.referAll nodes).referAll more :=
  List.foldl_append

/-- A node that is noted already is not noted again. -/
theorem refer_of_mem {entry : Entry} {node : NodeId} (noted : node ∈ entry.references) :
    entry.refer node = entry := by
  rw [refer, if_pos (List.contains_iff_mem.mpr noted)]

/-- A node that is not noted yet is noted last. -/
theorem refer_of_not_mem {entry : Entry} {node : NodeId} (fresh : node ∉ entry.references) :
    entry.refer node = { entry with references := entry.references ++ [node] } := by
  rw [refer, if_neg fun noted => fresh (List.contains_iff_mem.mp noted)]

/-- However often a node is noted that was not noted yet, it is noted once. -/
theorem referAll_same {α : Type} {entry : Entry} {node : NodeId} (fresh : node ∉ entry.references)
    (uses : List α) : entry.referAll (uses.map fun _ => node) =
      if uses.isEmpty then entry else { entry with references := entry.references ++ [node] } := by
  cases uses with
  | nil => rfl
  | cons use rest =>
    -- After the first time the node is there, and nothing changes any more.
    have again : ∀ (rest : List α) {entry : Entry}, node ∈ entry.references →
        entry.referAll (rest.map fun _ => node) = entry := by
      intro rest
      induction rest with
      | nil => exact fun _ => rfl
      | cons _ rest ih =>
        intro entry noted
        rw [List.map_cons, referAll, List.foldl_cons, refer_of_mem noted]
        exact ih noted
    rw [List.map_cons, referAll, List.foldl_cons, refer_of_not_mem fresh]
    exact again rest (by simp)

/-- Nodes that note themselves any number of times, one after the other, are noted once each in their
order, those left out that do not note themselves at all. -/
theorem referAll_rounds {ids : List NodeId} {α : Type} (uses : NodeId → List α) :
    ∀ {entry : Entry}, ids.Nodup → (∀ id ∈ ids, id ∉ entry.references) →
      entry.referAll (ids.flatMap fun id => (uses id).map fun _ => id) =
        { entry with references := entry.references ++ ids.filter fun id => !(uses id).isEmpty } := by
  -- In each round a single node notes itself, which did not do so in an earlier one.
  induction ids with
  | nil => exact fun {entry} _ _ => by simp [referAll]
  | cons first rest ih =>
    intro entry once fresh
    obtain ⟨absent, once⟩ := List.nodup_cons.mp once
    rw [List.flatMap_cons, referAll_append, referAll_same (fresh first (.head _)), List.filter_cons]
    cases (uses first).isEmpty with
    | true => exact ih once fun id member => fresh id (.tail _ member)
    | false =>
      -- The nodes that follow are others, so they are not noted yet.
      have later := @ih { entry with references := entry.references ++ [first] } once
        fun id member noted => by
          rcases List.mem_append.mp noted with old | new
          · exact fresh id (.tail _ member) old
          · exact absent (List.mem_singleton.mp new ▸ member)
      rw [if_neg Bool.false_ne_true, later, List.append_assoc]
      rfl

end Entry

namespace SymbolTable

/-- Whether a name is looked up as an entry, whatever refers to it. -/
def Finds (table : SymbolTable) (name : String) (entry : Entry) : Prop :=
  (table.get? name).map Entry.plain = some entry.plain

instance (table : SymbolTable) (name : String) (entry : Entry) : Decidable (table.Finds name entry) :=
  inferInstanceAs (Decidable (_ = _))

/-- No two entries are of the same name, apart from what refers to them. -/
def Distinct (table : SymbolTable) : Prop := (table.entries.map Entry.plain).Nodup

/-- A name is looked up as the same entry in tables of the same names. -/
theorem SameNames.finds {a b : SymbolTable} (same : a.SameNames b) (name : String) {entry other : Entry}
    (alike : other.plain = entry.plain) : b.Finds name other ↔ a.Finds name entry := by
  rw [Finds, same.get? name, alike, Finds]

/-- The table after nodes resolved against names, in order. -/
def addReferences (table : SymbolTable) (uses : List (String × NodeId)) : SymbolTable :=
  uses.foldl (fun table use => table.addReference use.1 use.2) table

/-- References are added piece by piece. -/
theorem addReferences_append (table : SymbolTable) (uses more : List (String × NodeId)) :
    table.addReferences (uses ++ more) = (table.addReferences uses).addReferences more :=
  List.foldl_append

/-- Adding references keeps the names. -/
theorem SameNames.addReferences (uses : List (String × NodeId)) :
    ∀ table : SymbolTable, SameNames table (table.addReferences uses) := by
  -- By induction on the uses, none of which renames an entry.
  induction uses with
  | nil => exact fun table => .refl table
  | cons use rest ih =>
    exact fun table => (SameNames.addReference table use.1 use.2).trans (ih _)

/-- The first entry of the key of a name is what the name is looked up as. -/
theorem finds_of_key {entry : Entry} {name : String} (key : entry.rawId = rawId name)
    (rest : List Entry) (other : Entry) :
    Finds ⟨entry :: rest⟩ name other ↔ entry.plain = other.plain := by
  rw [Finds, get?, List.find?_cons, decide_eq_true key, Option.map_some, Option.some.injEq]

/-- An entry of another key is passed over. -/
theorem finds_of_ne {entry : Entry} {name : String} (key : entry.rawId ≠ rawId name)
    (rest : List Entry) (other : Entry) :
    Finds ⟨entry :: rest⟩ name other ↔ Finds ⟨rest⟩ name other := by
  rw [Finds, get?, List.find?_cons, decide_eq_false key]
  rfl

/-- What a name is looked up as has the key of the name. -/
theorem Finds.key {table : SymbolTable} {name : String} {entry : Entry}
    (finds : table.Finds name entry) : entry.rawId = rawId name := by
  obtain ⟨found, search, alike⟩ := Option.map_eq_some_iff.mp finds
  exact (congrArg Prod.snd alike).symm.trans (get?_eq_some search).2

/-- A reference is added to the entry that its name is looked up as, and to no other. -/
theorem entries_addReference {table : SymbolTable} (distinct : table.Distinct) (name : String)
    (node : NodeId) : (table.addReference name node).entries =
      table.entries.map fun entry => if table.Finds name entry then entry.refer node else entry := by
  obtain ⟨entries⟩ := table
  unfold addReference
  -- Only the first entry of a key is replaced, and it is the one that is looked up.
  induction entries with
  | nil => rfl
  | cons entry rest ih =>
    obtain ⟨apart, distinct⟩ := List.nodup_cons.mp distinct
    rw [replaceFirst, List.map_cons]
    by_cases key : entry.rawId = rawId name
    · -- The first entry of the key is found, and it is none of those that follow.
      have others : ∀ other ∈ rest, (if Finds ⟨entry :: rest⟩ name other then other.refer node
          else other) = other := by
        intro other member
        refine if_neg fun found => apart ?_
        rw [(finds_of_key key rest other).mp found]
        exact List.mem_map_of_mem member
      rw [if_pos (decide_eq_true key), if_pos ((finds_of_key key rest entry).mpr rfl),
        List.map_congr_left others, List.map_id']
    · -- What is found further on has the key, so it is not this entry.
      have other : ¬Finds ⟨entry :: rest⟩ name entry := fun found => key found.key
      rw [if_neg (by simpa using key), if_neg other]
      refine congrArg (entry :: ·) ((ih distinct).trans (List.map_congr_left fun later _ => ?_))
      simp only [finds_of_ne key rest later]

/-- References are added to each entry by those uses of a name that is looked up as the entry. -/
theorem entries_addReferences (uses : List (String × NodeId)) :
    ∀ {table : SymbolTable}, table.Distinct → (table.addReferences uses).entries =
      table.entries.map fun entry =>
        entry.referAll ((uses.filter fun use => table.Finds use.1 entry).map Prod.snd) := by
  -- References change what is stored with names, but not what the names are looked up as.
  induction uses with
  | nil => exact fun _ => (List.map_id' _).symm
  | cons use rest ih =>
    intro table distinct
    have same := SameNames.addReference table use.1 use.2
    have kept : (table.addReference use.1 use.2).Distinct := by
      rw [Distinct, ← same]
      exact distinct
    rw [addReferences, List.foldl_cons, ← addReferences, ih kept, entries_addReference distinct,
      List.map_map]
    refine List.map_congr_left fun entry _ => ?_
    -- An entry is found by the same names after it was referred to.
    have alike : (if table.Finds use.1 entry then entry.refer use.2 else entry).plain =
        entry.plain := by
      split
      · exact entry.plain_refer use.2
      · rfl
    have finds : (rest.filter fun later => (table.addReference use.1 use.2).Finds later.1
        (if table.Finds use.1 entry then entry.refer use.2 else entry)) =
        rest.filter fun later => table.Finds later.1 entry :=
      List.filter_congr fun later _ => decide_eq_decide.mpr (same.finds later.1 alike)
    rw [Function.comp_apply, finds, List.filter_cons]
    by_cases found : table.Finds use.1 entry <;> simp [found, Entry.referAll]

/-- Nodes that resolve against names, one node after the other, are noted once each at every entry that
one of their names is looked up as. -/
theorem entries_addReferences_rounds {table : SymbolTable} (distinct : table.Distinct)
    (unused : ∀ entry ∈ table.entries, entry.references = []) {ids : List NodeId} (once : ids.Nodup)
    (names : NodeId → List String) :
    (table.addReferences (ids.flatMap fun id => (names id).map fun name => (name, id))).entries =
      table.entries.map fun entry => { entry with
        references := ids.filter fun id => (names id).any fun name => table.Finds name entry } := by
  rw [entries_addReferences _ distinct]
  refine List.map_congr_left fun entry member => ?_
  -- The uses that find the entry are those of each node in its round.
  have rounds : ((ids.flatMap fun id => (names id).map fun name => (name, id)).filter fun use =>
      table.Finds use.1 entry).map Prod.snd = ids.flatMap fun id =>
        ((names id).filter fun name => table.Finds name entry).map fun _ => id := by
    rw [List.filter_flatMap, List.map_flatMap]
    refine List.flatMap_congr fun id _ => ?_
    rw [List.filter_map, List.map_map]
    rfl
  have noted := unused entry member
  rw [rounds, Entry.referAll_rounds _ once fun id _ => by rw [noted]; exact List.not_mem_nil]
  rw [noted, List.nil_append]
  refine congrArg (fun references => ({ entry with references := references } : Entry))
    (List.filter_congr fun id _ => ?_)
  rw [Bool.eq_iff_iff, Bool.not_eq_true', List.isEmpty_eq_false_iff_exists_mem, List.any_eq_true]
  simp only [List.mem_filter]

end SymbolTable

end ArgSchema
