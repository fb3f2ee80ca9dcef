import ArgSchema.Proofs.SymbolTable.Entries

/-! First occurrences: of several names of one key the first is entered, and each other is reported. -/

namespace ArgSchema

/-- What the elements of a list give one after the other, each seen behind all that come earlier. -/
def gather {α β : Type} (give : List α → α → List β) (earlier : List α) : List α → List β
  | [] => []
  | a :: rest => give earlier a ++ gather give (earlier ++ [a]) rest

/-- The elements of a list give the same by functions that agree on each of them. -/
theorem gather_congr {α β : Type} {f g : List α → α → List β} {list : List α} :
    ∀ {earlier : List α}, (∀ earlier, ∀ a ∈ list, f earlier a = g earlier a) →
      gather f earlier list = gather g earlier list := by
  -- By induction on the list, for every list of earlier ones.
  induction list with
  | nil => exact fun _ => rfl
  | cons a rest ih =>
    intro earlier agree
    rw [gather, gather, agree earlier a (.head _),
      ih fun earlier other member => agree earlier other (.tail _ member)]

/-- The first of several names that has the key of a name. -/
def firstOf? (namings : List Naming) (id : String) : Option Naming :=
  namings.find? fun naming => rawId naming.id = rawId id

/-- Among more names that of a key is searched behind the others. -/
theorem firstOf?_append (front back : List Naming) (id : String) :
    firstOf? (front ++ back) id = (firstOf? front id).or (firstOf? back id) :=
  List.find?_append

/-- Whether a name comes first: a block for the schema if no block is earlier, and any other name if
no earlier name has its key. -/
def comesFirst (earlier : List Naming) (naming : Naming) : Bool :=
  if naming.type = .metadata then earlier.all (·.type ≠ .metadata)
  else (firstOf? earlier naming.id).isNone

/-- The names that come first among several, in order, behind some others. -/
def firstBehind : List Naming → List Naming → List Naming :=
  gather fun earlier naming => if comesFirst earlier naming then [naming] else []

/-- The names that come first among several, in order. -/
def firstNames : List Naming → List Naming := firstBehind []

/-- The report of a name whose key an earlier name has, with a note where the first of these is.
Blocks for the schema are never reported. -/
def clash? (earlier : List Naming) (naming : Naming) : Option Diagnostic :=
  if naming.type = .metadata then none
  else (firstOf? earlier naming.id).map fun previous =>
    (Diagnostic.located (.name (SymbolTable.duplicate naming.type naming.id)) naming.span).withNote
      ⟨"previous definition is here", previous.span⟩

/-- The reports of those names, behind some others, whose keys earlier names have. -/
def clashes : List Naming → List Naming → List Diagnostic :=
  gather fun earlier naming => (clash? earlier naming).toList

/-- A name that is no block comes first exactly if it clashes with no earlier one. -/
theorem comesFirst_of_plain {naming : Naming} (plain : naming.type ≠ .metadata)
    (earlier : List Naming) : comesFirst earlier naming = (clash? earlier naming).isNone := by
  rw [comesFirst, clash?, if_neg plain, if_neg plain, Option.isNone_map]

namespace SymbolTable

/-- What is looked up in a table after names were added is what was found before, or else the first
of the names with the key. -/
theorem get?_addAll (namings : List Naming) (id : String) :
    ∀ table : SymbolTable, (table.addAll namings).1.get? id =
      (table.get? id).or ((firstOf? namings id).map Naming.entry) := by
  -- The induction is on the names, for every table that they are added to.
  induction namings with
  | nil => exact fun table => Option.or_none.symm
  | cons naming rest ih =>
    intro table
    -- A name of the key hides those behind it.
    have first : firstOf? (naming :: rest) id =
        if rawId naming.id = rawId id then some naming else firstOf? rest id := by
      rw [firstOf?, List.find?_cons, firstOf?]
      by_cases key : rawId naming.id = rawId id <;> simp [key]
    by_cases admitted : table.Admits naming
    · -- A name that is entered is found behind what was there.
      have entered : (table.enter naming).get? id =
          (table.get? id).or (if rawId naming.id = rawId id then some naming.entry else none) := by
        simp only [get?, enter, List.find?_append, List.find?_singleton, Naming.entry,
          decide_eq_true_eq]
      rw [addAll_cons_of_admits admitted, ih, entered, Option.or_assoc, first]
      split <;> rfl
    · obtain ⟨report, -, added⟩ := addAll_cons_of_not_admits admitted rest
      rw [added, ih, first]
      split
      · next key =>
        -- The key of a name that is refused is found in the table already.
        simp only [Admits, not_or, not_not, key] at admitted
        cases found : table.get? id with
        | none => exact absurd admitted.2 (get?_eq_none.mp found)
        | some entry => rfl
      · rfl

/-- A table of names takes one more unless it clashes with one of them. -/
theorem add_of_names (earlier : List Naming) (naming : Naming) :
    (empty.addAll earlier).1.add naming =
      match clash? earlier naming with
      | none => .ok ((empty.addAll earlier).1.enter naming)
      | some report => .error report := by
  -- The table finds a key at the first of the names that have it.
  have found : (empty.addAll earlier).1.get? naming.id =
      (firstOf? earlier naming.id).map Naming.entry := get?_addAll earlier naming.id empty
  unfold add clash?
  rw [found]
  -- A block is entered whatever its key.
  by_cases block : naming.type = .metadata
  · simp only [block, if_true]
    rfl
  · simp only [block, if_false]
    cases firstOf? earlier naming.id <;> rfl

/-- A table of names after one more. -/
theorem names_concat (earlier : List Naming) (naming : Naming) :
    (empty.addAll (earlier ++ [naming])).1 =
      if (clash? earlier naming).isNone then (empty.addAll earlier).1.enter naming
      else (empty.addAll earlier).1 := by
  -- The last name is added to the table of the others, where it is looked up first.
  rw [addAll_append, addAll_eq_foldl _ [naming], List.foldl_cons, List.foldl_nil, addOne,
    add_of_names]
  cases clash? earlier naming <;> rfl

/-- A name that is added in front of others to a table of names is entered or reported. -/
theorem addAll_cons_of_names (earlier : List Naming) (naming : Naming) (rest : List Naming) :
    (empty.addAll earlier).1.addAll (naming :: rest) =
      (((empty.addAll (earlier ++ [naming])).1.addAll rest).1,
        (clash? earlier naming).toList ++ ((empty.addAll (earlier ++ [naming])).1.addAll rest).2) := by
  rw [names_concat, addAll_eq_foldl, List.foldl_cons, addOne, add_of_names]
  cases clash? earlier naming with
  | none => rfl
  -- The report stands in front of those of the rest, which is added to the same table.
  | some report => exact foldl_addOne rest _ _

/-- Adding names to a table of names reports exactly those that clash with earlier ones. -/
theorem reports_addAll (namings : List Naming) :
    ∀ earlier : List Naming,
      ((empty.addAll earlier).1.addAll namings).2 = clashes earlier namings := by
  -- By induction on the namings, with those entered before as the earlier ones.
  induction namings with
  | nil => exact fun _ => rfl
  | cons naming rest ih =>
    intro earlier
    rw [addAll_cons_of_names, ih]
    rfl

/-- Adding names to a table of names enters exactly those that do not clash. -/
theorem entries_addAll_of_names (namings : List Naming) :
    ∀ earlier : List Naming, ((empty.addAll earlier).1.addAll namings).1.entries =
      (empty.addAll earlier).1.entries ++ gather (fun earlier naming =>
        if (clash? earlier naming).isNone then [naming.entry] else []) earlier namings := by
  induction namings with
  | nil => exact fun _ => (List.append_nil _).symm
  | cons naming rest ih =>
    intro earlier
    rw [addAll_cons_of_names, ih, names_concat, gather]
    -- The first name is entered exactly if it clashes with none before it.
    split
    · exact List.append_assoc _ _ _
    · rfl

/-- What is given once of each element can be changed afterwards. -/
theorem map_gather_if {α β : Type} (test : List α → α → Bool) (f : α → β) (list : List α) :
    ∀ earlier : List α,
      (gather (fun earlier a => if test earlier a then [a] else []) earlier list).map f =
        gather (fun earlier a => if test earlier a then [f a] else []) earlier list := by
  -- By induction on the list; each element is kept on both sides or on neither.
  induction list with
  | nil => exact fun _ => rfl
  | cons a rest ih =>
    intro earlier
    rw [gather, gather, List.map_append, ih]
    split <;> rfl

/-- Of names other than those of blocks those are entered that come first. -/
theorem addAll_of_plain {namings : List Naming} (plain : ∀ naming ∈ namings, naming.type ≠ .metadata) :
    empty.addAll namings = (⟨(firstNames namings).map Naming.entry⟩, clashes [] namings) := by
  have entries := entries_addAll_of_names namings []
  refine Prod.ext (congrArg SymbolTable.mk (entries.trans ?_)) (reports_addAll namings [])
  rw [firstNames, firstBehind, map_gather_if]
  -- To come first is not to clash, since none of the names is that of a block.
  refine gather_congr fun earlier naming member => ?_
  rw [comesFirst_of_plain (plain naming member)]

/-- If nothing is reported of names other than those of blocks, all of them come first. -/
theorem firstNames_of_silent {namings : List Naming}
    (plain : ∀ naming ∈ namings, naming.type ≠ .metadata) (silent : (empty.addAll namings).2 = []) :
    firstNames namings = namings := by
  have entered := entries_addAll_of_silent silent
  rw [addAll_of_plain plain, empty, List.nil_append] at entered
  -- The entries of different names are different.
  refine List.map_injective_iff.mpr (fun naming other same => ?_) entered
  exact congrArg (·.toNaming) same

/-- In the middle of a list, adding the rest of the names that come first does to a table of other names
what adding all of the rest does, and reports those that clash with the other names. -/
theorem addAll_firstBehind {more : List Naming} (earlier : List Naming) :
    ∀ passed : List Naming, (∀ naming ∈ more, naming.type ≠ .metadata) →
      (empty.addAll (earlier ++ passed)).1.addAll (firstBehind passed more) =
        ((empty.addAll (earlier ++ passed ++ more)).1,
          (firstBehind passed more).filterMap (clash? earlier)) := by
  -- The table holds all names that were passed, also those that did not come first.
  induction more with
  | nil =>
    intro passed _
    rw [List.append_nil]
    rfl
  | cons naming rest ih =>
    intro passed plain
    have other : naming.type ≠ .metadata := plain naming (.head _)
    have later := ih (passed ++ [naming]) fun naming member => plain naming (.tail _ member)
    have step := names_concat (earlier ++ passed) naming
    rw [← List.append_assoc, List.append_assoc _ [naming], List.singleton_append] at later
    rw [firstBehind, gather, comesFirst, if_neg other]
    cases own : firstOf? passed naming.id with
    | none =>
      -- No name that was passed has the key, so a clash is one with the other names.
      have apart : clash? (earlier ++ passed) naming = clash? earlier naming := by
        rw [clash?, clash?, firstOf?_append, own, Option.or_none]
      rw [Option.isNone_none, if_pos rfl, List.singleton_append, addAll_cons_of_names, apart,
        List.filterMap_cons]
      unfold firstBehind at later
      rw [later]
      cases clash? earlier naming <;> rfl
    | some previous =>
      -- A name that was passed has the key, so the table of all names does not grow.
      have taken : (clash? (earlier ++ passed) naming).isNone = false := by
        rw [clash?, if_neg other, firstOf?_append, own, Option.isNone_map]
        cases firstOf? earlier naming.id <;> rfl
      rw [taken, if_neg Bool.false_ne_true] at step
      rwa [step] at later

/-- Adding those of several names that come first does to a table of other names what adding all of
them does, and reports those that clash with the other names. -/
theorem addAll_firstNames {more : List Naming} (plain : ∀ naming ∈ more, naming.type ≠ .metadata)
    (earlier : List Naming) : (empty.addAll earlier).1.addAll (firstNames more) =
      ((empty.addAll (earlier ++ more)).1, (firstNames more).filterMap (clash? earlier)) := by
  have done := addAll_firstBehind earlier [] plain
  rwa [List.append_nil] at done

end SymbolTable

end ArgSchema
