import ArgSchema.SymbolTable.Basic
import Mathlib.Data.List.Basic
import Mathlib.Data.List.Nodup

/-! What tables hold: which names are entered, under which keys, and what references change. -/

namespace ArgSchema

/-- Replacing an element keeps every list of features that the replacement keeps. -/
theorem map_replaceFirst {α β : Type} {test : α → Bool} {f : α → α} {feature : α → β}
    (kept : ∀ a, feature (f a) = feature a) (list : List α) :
    (replaceFirst test f list).map feature = list.map feature := by
  -- What replaces an element has its feature.
  induction list with
  | nil => rfl
  | cons a rest ih =>
    unfold replaceFirst
    split
    · simp only [List.map_cons, kept]
    · simp only [List.map_cons, ih]

/-- The entry of a name that nothing refers to yet. -/
def Naming.entry (naming : Naming) : Entry := ⟨naming, ArgSchema.rawId naming.id, []⟩

/-- A name and its key, without the references to it. -/
def Entry.plain (entry : Entry) : Naming × String := (entry.toNaming, entry.rawId)

namespace SymbolTable

variable {table : SymbolTable}

/-- The keys of the entries, in order. -/
def keys (table : SymbolTable) : List String := table.entries.map (·.rawId)

/-- The table with one more entry. -/
def enter (table : SymbolTable) (naming : Naming) : SymbolTable :=
  ⟨table.entries ++ [naming.entry]⟩

/-- Whether a name is entered. -/
def Admits (table : SymbolTable) (naming : Naming) : Prop :=
  naming.type = .metadata ∨ rawId naming.id ∉ table.keys

instance (table : SymbolTable) (naming : Naming) : Decidable (table.Admits naming) :=
  inferInstanceAs (Decidable (_ ∨ _))

/-- A name without entry has a key that is not in the table. -/
theorem get?_eq_none {id : String} : table.get? id = none ↔ rawId id ∉ table.keys := by
  simp only [get?, List.find?_eq_none, decide_eq_true_eq, keys, List.mem_map, not_exists, not_and]

/-- The entry of a name is in the table, under the key of the name. -/
theorem get?_eq_some {id : String} {entry : Entry} (found : table.get? id = some entry) :
    entry ∈ table.entries ∧ entry.rawId = rawId id := by
  have test := List.find?_some found
  exact ⟨List.mem_of_find?_eq_some found, by simpa using test⟩

/-- A name that is admitted is entered behind the others. -/
theorem add_of_admits {naming : Naming} (admitted : table.Admits naming) :
    table.add naming = .ok (table.enter naming) := by
  unfold add
  by_cases block : naming.type = .metadata
  · simp only [block, if_true]
    rfl
  -- Blocks for the schema are entered under a key that is taken, too.
  · have none := get?_eq_none.mpr (admitted.resolve_left block)
    simp only [block, if_false, none]
    rfl

/-- A name that is not admitted is reported. -/
theorem add_of_not_admits {naming : Naming} (refused : ¬table.Admits naming) :
    ∃ report, table.add naming = .error report ∧ report.severity = .error := by
  simp only [Admits, not_or, not_not] at refused
  -- The key is taken, so a previous entry is found and named in the report.
  obtain ⟨other, taken⟩ := refused
  unfold add
  simp only [other, if_false]
  cases found : table.get? naming.id with
  | none => exact absurd taken (get?_eq_none.mp found)
  | some previous => exact ⟨_, rfl, rfl⟩

section AddAll

/-- A table and the reports so far, after one more name. -/
def addOne (progress : SymbolTable × List Diagnostic) (naming : Naming) :
    SymbolTable × List Diagnostic :=
  match progress.1.add naming with
  | .ok grown => (grown, progress.2)
  | .error report => (progress.1, progress.2 ++ [report])

/-- Names are added one after the other. -/
theorem addAll_eq_foldl (table : SymbolTable) (namings : List Naming) :
    table.addAll namings = namings.foldl addOne (table, []) := rfl

/-- Reports of earlier names stand in front. -/
theorem foldl_addOne (namings : List Naming) (table : SymbolTable) (reports : List Diagnostic) :
    namings.foldl addOne (table, reports) =
      ((table.addAll namings).1, reports ++ (table.addAll namings).2) := by
  induction namings generalizing table reports with
  -- What was reported so far is only appended to, and does not steer what is added.
  | nil => simp [addAll]
  | cons naming rest ih =>
    rw [addAll_eq_foldl, List.foldl_cons, List.foldl_cons]
    cases added : table.add naming with
    | ok grown => simp only [addOne, added, ih grown reports, ih grown [], List.nil_append]
    | error report =>
      simp only [addOne, added, ih table (reports ++ [report]), List.nil_append,
        ih table [report], List.append_assoc]

/-- No names change nothing. -/
@[simp] theorem addAll_nil (table : SymbolTable) : table.addAll [] = (table, []) := rfl

/-- An admitted name is entered in front of the rest. -/
theorem addAll_cons_of_admits {naming : Naming} (admitted : table.Admits naming)
    (rest : List Naming) : table.addAll (naming :: rest) = (table.enter naming).addAll rest := by
  rw [addAll_eq_foldl, List.foldl_cons, addOne, add_of_admits admitted, addAll_eq_foldl]

/-- A name that is not admitted leaves a report in front of those for the rest. -/
theorem addAll_cons_of_not_admits {naming : Naming} (refused : ¬table.Admits naming)
    (rest : List Naming) : ∃ report, report.severity = .error ∧
      table.addAll (naming :: rest) = ((table.addAll rest).1, report :: (table.addAll rest).2) := by
  -- A name that is refused leaves the table alone, and its report comes first.
  obtain ⟨report, failed, severity⟩ := add_of_not_admits refused
  refine ⟨report, severity, ?_⟩
  rw [addAll_eq_foldl, List.foldl_cons, addOne, failed]
  exact foldl_addOne rest table [report]

/-- Names are added piece by piece. -/
theorem addAll_append (table : SymbolTable) (namings more : List Naming) :
    table.addAll (namings ++ more) =
      (((table.addAll namings).1.addAll more).1,
        (table.addAll namings).2 ++ ((table.addAll namings).1.addAll more).2) := by
  rw [addAll_eq_foldl, List.foldl_append, ← addAll_eq_foldl]
  exact foldl_addOne more _ _

/-- Reports of added names are errors. -/
theorem severity_addAll (table : SymbolTable) (namings : List Naming) :
    ∀ report ∈ (table.addAll namings).2, report.severity = .error := by
  -- By induction on the names: only a refused one is reported, and with an error.
  induction namings generalizing table with
  | nil => simp
  | cons naming rest ih =>
    by_cases admitted : table.Admits naming
    · rw [addAll_cons_of_admits admitted]
      exact ih _
    · obtain ⟨report, severity, added⟩ := addAll_cons_of_not_admits admitted rest
      rw [added]
      intro other member
      rcases List.mem_cons.mp member with rfl | member
      · exact severity
      · exact ih _ other member

/-- The entries that are added stand behind the others, and are entries of added names. -/
theorem entries_addAll (table : SymbolTable) (namings : List Naming) :
    ∃ entered, (table.addAll namings).1.entries = table.entries ++ entered ∧
      entered.Sublist (namings.map Naming.entry) := by
  -- A name that is admitted is entered behind the others, and a refused one is left out.
  induction namings generalizing table with
  | nil => exact ⟨[], by simp, List.Sublist.slnil⟩
  | cons naming rest ih =>
    by_cases admitted : table.Admits naming
    · obtain ⟨entered, same, inside⟩ := ih (table.enter naming)
      refine ⟨naming.entry :: entered, ?_, inside.cons_cons _⟩
      rw [addAll_cons_of_admits admitted, same]
      simp [enter]
    · obtain ⟨entered, same, inside⟩ := ih table
      obtain ⟨report, _, added⟩ := addAll_cons_of_not_admits admitted rest
      exact ⟨entered, by rw [added, same], inside.cons _⟩

/-- An entry was there before, or it is that of an added name. -/
theorem mem_addAll {namings : List Naming} {entry : Entry}
    (member : entry ∈ (table.addAll namings).1.entries) :
    entry ∈ table.entries ∨ ∃ naming ∈ namings, naming.entry = entry := by
  -- The added entries are some of those of the names, in their order.
  obtain ⟨entered, same, inside⟩ := entries_addAll table namings
  rw [same, List.mem_append] at member
  exact member.imp_right fun later => List.mem_map.mp (inside.subset later)

/-- The entries of a table that was empty at first are those of added names. -/
theorem exists_naming_of_mem {namings : List Naming} {entry : Entry}
    (member : entry ∈ (empty.addAll namings).1.entries) :
    ∃ naming ∈ namings, naming.entry = entry :=
  (mem_addAll member).resolve_left (by simp [empty])

/-- Whatever is added, its key is in the table afterwards. -/
theorem mem_keys_addAll {namings : List Naming} {key : String} :
    key ∈ (table.addAll namings).1.keys ↔
      key ∈ table.keys ∨ ∃ naming ∈ namings, rawId naming.id = key := by
  -- By induction on the names, of which each leaves its key in the table.
  induction namings generalizing table with
  | nil => simp
  | cons naming rest ih =>
    by_cases admitted : table.Admits naming
    · rw [addAll_cons_of_admits admitted, ih]
      simp only [keys, enter, Naming.entry, List.map_append, List.map_cons, List.map_nil,
        List.mem_append, List.mem_singleton, List.exists_mem_cons_iff, or_assoc, eq_comm]
    · -- The key of a name that is refused is there already.
      obtain ⟨report, _, added⟩ := addAll_cons_of_not_admits admitted rest
      simp only [Admits, not_or, not_not] at admitted
      rw [added, ih, List.exists_mem_cons_iff]
      constructor
      · rintro (old | new)
        · exact .inl old
        · exact .inr (.inr new)
      · rintro (old | rfl | new)
        · exact .inl old
        · exact .inl admitted.2
        · exact .inr new

/-- The keys of added names are new and distinct, except for those of blocks for the schema. -/
theorem keys_addAll (table : SymbolTable) (namings : List Naming) :
    ∃ entered, (table.addAll namings).1.entries = table.entries ++ entered ∧
      ((entered.filter (·.type ≠ .metadata)).map (·.rawId)).Nodup ∧
      ∀ entry ∈ entered, entry.type ≠ .metadata → entry.rawId ∉ table.keys := by
  -- By induction on the names: a key is entered a second time only for a block for the schema.
  induction namings generalizing table with
  | nil => exact ⟨[], by simp, List.nodup_nil, by simp⟩
  | cons naming rest ih =>
    by_cases admitted : table.Admits naming
    · obtain ⟨entered, same, once, apart⟩ := ih (table.enter naming)
      -- The keys that are added later are new also to the table with this one.
      have fresh : ∀ entry ∈ entered, entry.type ≠ .metadata →
          entry.rawId ∉ table.keys ∧ entry.rawId ≠ rawId naming.id := by
        intro entry member other
        have new := apart entry member other
        simp only [keys, enter, List.map_append, List.map_cons, List.map_nil, List.mem_append,
          List.mem_singleton, not_or] at new
        exact new
      refine ⟨naming.entry :: entered, ?_, ?_, ?_⟩
      · rw [addAll_cons_of_admits admitted, same]
        simp [enter]
      · -- A block for the schema is not counted, and any other name is new.
        by_cases block : naming.type = .metadata
        · simpa [Naming.entry, block] using once
        · have head : naming.entry.type ≠ .metadata := block
          rw [List.filter_cons_of_pos (by exact decide_eq_true head), List.map_cons,
            List.nodup_cons]
          refine ⟨fun again => ?_, once⟩
          obtain ⟨entry, member, same⟩ := List.mem_map.mp again
          obtain ⟨inside, other⟩ := List.mem_filter.mp member
          exact (fresh entry inside (by simpa using other)).2 same
      · intro entry member other
        rcases List.mem_cons.mp member with rfl | member
        · exact admitted.resolve_left other
        · exact (fresh entry member other).1
    -- A name that is refused adds no key.
    · obtain ⟨report, _, added⟩ := addAll_cons_of_not_admits admitted rest
      rw [added]
      exact ih table

/-- A single name is entered into an empty table. -/
theorem addAll_singleton (naming : Naming) : empty.addAll [naming] = (empty.enter naming, []) :=
  addAll_cons_of_admits (.inr (by simp [keys, empty])) []

/-- Names of blocks for the schema are entered whatever is there. -/
theorem mem_addAll_of_metadata {namings : List Naming} {naming : Naming} (member : naming ∈ namings)
    (block : naming.type = .metadata) : naming.entry ∈ (table.addAll namings).1.entries := by
  -- A block for the schema is always admitted, and no entry is removed behind it.
  obtain ⟨before, rest, rfl⟩ := List.append_of_mem member
  rw [addAll_append, addAll_cons_of_admits (.inl block)]
  obtain ⟨entered, same, -⟩ :=
    entries_addAll ((table.addAll before).1.enter naming) rest
  rw [same]
  simp [enter]

/-- If nothing is reported, the entry of an added name is found by the name. -/
theorem get?_addAll_of_silent {namings : List Naming} (silent : (table.addAll namings).2 = [])
    {naming : Naming} (member : naming ∈ namings) (plain : naming.type ≠ .metadata) :
    (table.addAll namings).1.get? naming.id = some naming.entry := by
  -- Without reports every name is admitted, and the first entry with its key is its own.
  induction namings generalizing table with
  | nil => cases member
  | cons first rest ih =>
    by_cases admitted : table.Admits first
    · rw [addAll_cons_of_admits admitted] at silent ⊢
      rcases List.mem_cons.mp member with rfl | later
      · -- The key was not taken, so no entry in front of the new one has it.
        obtain ⟨entered, same, -⟩ := entries_addAll (table.enter naming) rest
        have fresh := get?_eq_none.mpr (admitted.resolve_left plain)
        unfold get? at fresh ⊢
        rw [same, enter, List.append_assoc, List.find?_append, fresh]
        simp [Naming.entry]
      · exact ih silent later
    · obtain ⟨report, -, added⟩ := addAll_cons_of_not_admits admitted rest
      rw [added] at silent
      cases silent

/-- A table with one more name admits what it admitted before, but for another name of the same
key. -/
theorem admits_enter {first naming : Naming} : (table.enter first).Admits naming ↔
    table.Admits naming ∧ (naming.type = .metadata ∨ rawId naming.id ≠ rawId first.id) := by
  simp only [Admits, keys, enter, Naming.entry, List.map_append, List.map_cons, List.map_nil,
    List.mem_append, List.mem_singleton, not_or, or_and_left]

/-- Nothing is reported for names exactly if the table admits them all and no name has the key of an
earlier one, save for the blocks for the schema. -/
theorem addAll_silent_iff {namings : List Naming} : (table.addAll namings).2 = [] ↔
    (∀ naming ∈ namings, table.Admits naming) ∧
      namings.Pairwise fun first later => later.type = .metadata ∨ rawId later.id ≠ rawId first.id := by
  -- By induction on the names, with the first entered in the table for the rest.
  induction namings generalizing table with
  | nil => simp
  | cons first rest ih =>
    by_cases admitted : table.Admits first
    · -- The rest must be admitted behind the first.
      rw [addAll_cons_of_admits admitted, ih, List.forall_mem_cons, List.pairwise_cons]
      simp only [admits_enter, forall_and]
      exact ⟨fun ⟨⟨old, new⟩, apart⟩ => ⟨⟨admitted, old⟩, new, apart⟩,
        fun ⟨⟨_, old⟩, new, apart⟩ => ⟨⟨old, new⟩, apart⟩⟩
    · obtain ⟨report, -, added⟩ := addAll_cons_of_not_admits admitted rest
      rw [added]
      exact ⟨by simp, fun ⟨all, _⟩ => absurd (all first (.head _)) admitted⟩

/-- Nothing is reported for names other than those of blocks exactly if their keys are distinct. -/
theorem addAll_silent_iff_nodup {namings : List Naming}
    (plain : ∀ naming ∈ namings, naming.type ≠ .metadata) :
    (empty.addAll namings).2 = [] ↔ (namings.map fun naming => rawId naming.id).Nodup := by
  -- An empty table admits every name, so only the names can clash with each other.
  have admitted : ∀ naming ∈ namings, empty.Admits naming := by simp [Admits, keys, empty]
  rw [addAll_silent_iff, and_iff_right admitted, List.Nodup, List.pairwise_map]
  refine List.Pairwise.iff_of_mem fun {first later} _ member => ?_
  rw [or_iff_right (plain later member)]
  exact ne_comm

/-- If nothing is reported, all names are entered. -/
theorem entries_addAll_of_silent {namings : List Naming} (silent : (table.addAll namings).2 = []) :
    (table.addAll namings).1.entries = table.entries ++ namings.map Naming.entry := by
  -- By induction on the names, each of which is entered.
  induction namings generalizing table with
  | nil => simp
  | cons first rest ih =>
    by_cases admitted : table.Admits first
    · rw [addAll_cons_of_admits admitted] at silent ⊢
      rw [ih silent, enter, List.append_assoc]
      rfl
    · -- A name that is not admitted is reported.
      obtain ⟨report, -, added⟩ := addAll_cons_of_not_admits admitted rest
      rw [added] at silent
      cases silent

end AddAll

/-- Two tables hold the same names in order, whatever refers to them. -/
def SameNames (a b : SymbolTable) : Prop := a.entries.map Entry.plain = b.entries.map Entry.plain

namespace SameNames

variable {a b c : SymbolTable}

/-- Every table has its own names. -/
theorem refl (table : SymbolTable) : SameNames table table := rfl

/-- Having the same names carries over. -/
theorem trans (first : SameNames a b) (second : SameNames b c) : SameNames a c :=
  Eq.trans first second

/-- Noting a reference keeps the names. -/
theorem addReference (table : SymbolTable) (id : String) (node : NodeId) :
    SameNames table (table.addReference id node) := by
  -- One entry is replaced by itself with one more reference.
  refine (map_replaceFirst (fun entry => ?_) table.entries).symm
  unfold Entry.refer
  split <;> rfl

/-- A name has the same entry in both tables, apart from references. -/
theorem get? (same : SameNames a b) (id : String) :
    (b.get? id).map Entry.plain = (a.get? id).map Entry.plain := by
  -- Lookups test the key only, which is the second part of what is kept.
  have found : ∀ table : SymbolTable, (table.get? id).map Entry.plain =
      (table.entries.map Entry.plain).find? (·.2 = rawId id) := by
    intro table
    rw [List.find?_map]
    rfl
  rw [found, found, same]

/-- A name has a node in both tables or in neither, and it is the same. -/
theorem node? (same : SameNames a b) (id : String) :
    (b.get? id).map (·.node) = (a.get? id).map (·.node) := by
  -- Entries with the same name and type have the same node.
  have nodes := congrArg (Option.map fun plain => plain.1.node) (same.get? id)
  rw [Option.map_map, Option.map_map] at nodes
  exact nodes

end SameNames

end SymbolTable

/-- Entries that differ in references only have the same type and node. -/
theorem Entry.type_eq_of_plain {a b : Entry} (same : a.plain = b.plain) :
    a.type = b.type ∧ a.node = b.node := by
  have names : a.toNaming = b.toNaming := congrArg Prod.fst same
  rw [names]
  exact ⟨rfl, rfl⟩

end ArgSchema
