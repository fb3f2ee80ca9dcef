import ArgSchema.Proofs.Registration.Visits

/-! The result of registration: each definition in order enters its names and its properties. -/

namespace ArgSchema

namespace Registration

/-- A tree and reports, after the names and the properties of one more definition. -/
def registerOne (progress : Tree × List Diagnostic) (id : NodeId) : Tree × List Diagnostic :=
  let named := progress.1.table.addAll (names progress.1 id)
  let owned := ((progress.1.table? id).getD .empty).addAll (keywords progress.1 id)
  ({ progress.1.setTable id owned.1 with table := named.1 }, progress.2 ++ named.2 ++ owned.2)

/-- Entering properties one after the other adds all of them to the table of the definition. -/
theorem foldl_enteringProperty {definition : NodeId} (configs : List NodeId) :
    ∀ (tree : Tree) (reports : List Diagnostic) {table : SymbolTable},
      tree.table? definition = some table →
      let added := table.addAll (configs.flatMap fun config => (keyword? tree config).toList)
      configs.foldl (fun s config => enteringProperty config s) (tree, ⟨reports, some definition⟩) =
        (tree.setTable definition added.1, ⟨reports ++ added.2, some definition⟩) := by
  induction configs with
  | nil =>
    intro tree reports table owned
    simp [Tree.setTable_self owned]
  | cons config rest ih =>
    intro tree reports table owned
    -- Names do not depend on tables, so the rest has the same names in the changed tree.
    have same := Tree.SameSyntax.setTable tree definition
      (table.addAll (keyword? tree config).toList).1
    simp only [List.foldl_cons, List.flatMap_cons, SymbolTable.addAll_append]
    rw [show enteringProperty config (tree, ⟨reports, some definition⟩) =
        (tree.setTable definition (table.addAll (keyword? tree config).toList).1,
          ⟨reports ++ (table.addAll (keyword? tree config).toList).2, some definition⟩) by
      simp only [enteringProperty, owned]]
    rw [ih _ _ (Tree.table?_setTable_self owned _)]
    simp only [keyword?_of_sameSyntax same, Tree.setTable_setTable, List.append_assoc]

section Growth

variable {base : Tree} (forest : base.Forest)

include forest

/-- The properties of a definition are what a walk stops at below it. -/
theorem topsAll_definition {growth : Growth} (grows : base.Grows growth)
    (definition : base.isOfType NodeTypes.definitions growth.id = true) :
    (Growth.topsAll (base.isOfType landmarks) growth.children).map Growth.id =
        base.properties growth.id ∧
      ∀ top ∈ Growth.topsAll (base.isOfType landmarks) growth.children,
        base.isOfType (NodeTypes.only .config) top.id = true := by
  have listed : ∀ part ∈ growth.children, part.id ∈ base.children growth.id := by
    intro part member
    rw [grows.children_eq]
    exact List.mem_map_of_mem member
  -- The walk passes the parts of a definition, and stops at the properties in them.
  have pass : ∀ part ∈ growth.children, base.isOfType landmarks part.id = false := by
    intro part member
    obtain ⟨config, type⟩ := forest.part_of_definition definition (listed part member)
    rw [landmarks, Tree.isOfType_union, config, type]
    rfl
  -- Below a part there are properties, and names that have nothing below them.
  have inner : ∀ part ∈ growth.children, ∀ child ∈ part.children,
      base.isOfType landmarks child.id = base.isOfType (NodeTypes.only .config) child.id ∧
        (base.isOfType (NodeTypes.only .config) child.id = true ∨ child.children = []) := by
    intro part member child inside
    have grown := grows.below part member
    have placed : child.id ∈ base.children part.id := by
      rw [grown.children_eq]
      exact List.mem_map_of_mem inside
    rw [landmarks, Tree.isOfType_union]
    rcases forest.config_or_leaf definition (listed part member) placed with
      config | ⟨config, type, leaf⟩
    · exact ⟨by simp [config], .inl config⟩
    · rw [(grown.below child inside).children_eq] at leaf
      exact ⟨by simp [config, type], .inr (List.map_eq_nil_iff.mp leaf)⟩
  -- So the walk stops at the properties of each part, and at nothing else.
  have below : ∀ part ∈ growth.children,
      Growth.topsAll (base.isOfType landmarks) part.children =
        part.children.filter (base.isOfType (NodeTypes.only .config) ·.id) := by
    intro part member
    rw [Growth.topsAll_shallow fun child inside => by
      rw [(inner part member child inside).1]
      exact (inner part member child inside).2]
    exact List.filter_congr fun child inside => (inner part member child inside).1
  rw [Growth.topsAll_below pass, List.flatMap_congr below]
  -- So the properties come in the order of the parts.
  constructor
  · rw [Tree.properties, grows.children_eq, List.flatMap_map, List.map_flatMap]
    exact List.flatMap_congr fun part member => ((grows.below part member).childrenOfType_eq _).symm
  · intro top member
    obtain ⟨part, _, member⟩ := List.mem_flatMap.mp member
    exact (List.mem_filter.mp member).2

/-- Registering a definition enters its names and its properties. -/
theorem registering_definition {growth : Growth} (grows : base.Grows growth)
    (definition : base.isOfType NodeTypes.definitions growth.id = true)
    {tree : Tree} (same : base.SameSyntax tree) (own : Registration) :
    let done := registerOne (tree, own.reports) growth.id
    registering base growth.id
        (Growth.foldAll (base.isOfType landmarks) (registering base) growth.children) (tree, own) =
      (done.1, ⟨done.2, own.definition?⟩) := by
  obtain ⟨ids, configs⟩ := topsAll_definition forest grows definition
  -- A definition is no property.
  have other : base.isOfType (NodeTypes.only .config) growth.id = false := by
    obtain ⟨node, found, type⟩ := Tree.exists_of_isOfType definition
    rw [Tree.isOfType_of_get? found, decide_eq_false_iff_not, NodeTypes.mem_only]
    intro config
    simp [config, NodeTypes.definitions] at type
  -- Below it the properties are entered one after the other.
  have visits : ∀ s : Tree × Registration,
      Growth.foldAll (base.isOfType landmarks) (registering base) growth.children s =
        (base.properties growth.id).foldl (fun s config => enteringProperty config s) s := by
    intro s
    rw [Growth.foldAll_eq_foldl, ← ids, List.foldl_map]
    refine List.foldl_ext _ _ s fun s top member => ?_
    rw [registering, if_pos (configs top member)]
  obtain ⟨table, owned⟩ := Tree.exists_table? ((same.isOfType _ _).trans definition)
  -- Entering the names changes the table only, so the properties are read off alike.
  have named := Tree.SameSyntax.table tree (tree.table.addAll (names tree growth.id)).1
  have properties : tree.properties growth.id = base.properties growth.id := same.properties _
  have entered := foldl_enteringProperty (base.properties growth.id)
    { tree with table := (tree.table.addAll (names tree growth.id)).1 }
    (own.reports ++ (tree.table.addAll (names tree growth.id)).2) owned
  simp only [registering, other, Bool.false_eq_true, if_false, visits, enteringNames]
  simp only at entered
  rw [entered]
  simp only [registerOne, owned, Option.getD_some, keywords, properties,
    keyword?_of_sameSyntax named]
  rfl

/-- What a walk stops at below the root are the definitions. -/
theorem tops_root {growth : Growth} (grows : base.Grows growth)
    (rooted : base.root? = some growth.id) (stops : NodeTypes)
    (agree : ∀ id ∈ base.children growth.id,
      base.isOfType stops id = base.isOfType NodeTypes.definitions id)
    (pass : base.isOfType stops growth.id = false) :
    (growth.tops (base.isOfType stops)).map Growth.id = base.definitions growth.id ∧
      ∀ top ∈ growth.tops (base.isOfType stops), base.Grows top ∧
        base.isOfType NodeTypes.definitions top.id = true := by
  have listed : ∀ child ∈ growth.children, child.id ∈ base.children growth.id := by
    intro child member
    rw [grows.children_eq]
    exact List.mem_map_of_mem member
  -- Below the root there are definitions, and nodes that have nothing below them.
  rw [Growth.tops_of_not_stops pass, Growth.topsAll_shallow fun child member => by
    rw [agree child.id (listed child member)]
    refine (forest.definition_or_leaf rooted (listed child member)).imp_right fun leaf => ?_
    rw [(grows.below child member).children_eq] at leaf
    exact List.map_eq_nil_iff.mp leaf]
  constructor
  · rw [Tree.definitions, grows.childrenOfType_eq]
    exact congrArg _ (List.filter_congr fun child member => agree child.id (listed child member))
  · intro top member
    obtain ⟨inside, stop⟩ := List.mem_filter.mp member
    exact ⟨grows.below top inside, by rw [← agree top.id (listed top inside), stop]⟩

end Growth

/-- A tree whose definitions have empty tables. -/
def cleared (tree : Tree) (ids : List NodeId) : Tree :=
  ids.foldl (fun tree id => tree.setTable id .empty) { tree with table := .empty }

/-- Clearing tables keeps the syntax. -/
theorem sameSyntax_cleared (tree : Tree) (ids : List NodeId) :
    tree.SameSyntax (cleared tree ids) := by
  -- Setting a table keeps the syntax, however often it is done.
  have kept : ∀ {start : Tree}, tree.SameSyntax start →
      tree.SameSyntax (ids.foldl (fun tree id => tree.setTable id .empty) start) := by
    induction ids with
    | nil => exact fun same => same
    | cons id rest ih => exact fun same => ih (same.trans (.setTable _ _ _))
  exact kept (.table tree .empty)

/-- No top-level names are left. -/
theorem table_cleared (tree : Tree) (ids : List NodeId) : (cleared tree ids).table = .empty := by
  -- Emptying the tables of definitions leaves the empty root table as it is.
  have kept : ∀ {start : Tree}, start.table = .empty →
      (ids.foldl (fun tree id => Tree.setTable tree id .empty) start).table = .empty := by
    induction ids with
    | nil => exact fun empty => empty
    | cons id rest ih => exact fun empty => ih empty
  exact kept rfl

/-- No names of properties are left. -/
theorem table?_cleared {tree : Tree} {ids : List NodeId} {id : NodeId} (member : id ∈ ids)
    (definition : tree.isOfType NodeTypes.definitions id = true) :
    (cleared tree ids).table? id = some .empty := by
  -- The table is emptied when the walk comes to the definition, and stays so.
  have kept : ∀ (ids : List NodeId) {start : Tree},
      start.isOfType NodeTypes.definitions id = true →
      id ∈ ids ∨ start.table? id = some .empty →
      (ids.foldl (fun tree id => Tree.setTable tree id .empty) start).table? id = some .empty := by
    intro ids
    induction ids with
    | nil => exact fun _ reached => by simpa using reached
    | cons first rest ih =>
      intro start own reached
      have same := Tree.SameSyntax.setTable start first .empty
      refine ih ((same.isOfType _ _).trans own) ?_
      obtain ⟨table, owned⟩ := Tree.exists_table? own
      by_cases here : id = first
      · subst here
        exact .inr (Tree.table?_setTable_self owned _)
      · rw [Tree.table?_setTable_of_ne here]
        exact reached.imp_left fun member => (List.mem_cons.mp member).resolve_left here
  exact kept ids definition (.inl member)

/-- Clearing node after node clears their tables. -/
theorem foldl_clearing (tops : List Growth) (below : Growth → Tree × Unit → Tree × Unit) :
    ∀ tree : Tree, tops.foldl (fun s top => clearing top.id (below top) s) (tree, ()) =
      ((tops.map Growth.id).foldl (fun tree id => tree.setTable id .empty) tree, ()) := by
  -- By induction on the nodes, for any tree to start from.
  induction tops with
  | nil => exact fun tree => rfl
  | cons top rest ih => exact fun tree => ih (tree.setTable top.id .empty)

/-- Registering one definition keeps the syntax. -/
theorem sameSyntax_registerOne (progress : Tree × List Diagnostic) (id : NodeId) :
    progress.1.SameSyntax (registerOne progress id).1 :=
  (Tree.SameSyntax.setTable _ _ _).trans (.table _ _)

/-- Registering definition after definition enters names and properties. -/
theorem foldl_registering {base : Tree} (forest : base.Forest) (tops : List Growth)
    (each : ∀ top ∈ tops, base.Grows top ∧ base.isOfType NodeTypes.definitions top.id = true) :
    ∀ {tree : Tree}, base.SameSyntax tree → ∀ own : Registration,
      let done := (tops.map Growth.id).foldl registerOne (tree, own.reports)
      tops.foldl (fun s top => registering base top.id
          (Growth.foldAll (base.isOfType landmarks) (registering base) top.children) s)
          (tree, own) = (done.1, ⟨done.2, own.definition?⟩) := by
  -- By induction on the definitions met, each of which registers itself and then its properties.
  induction tops with
  | nil => exact fun _ _ => rfl
  | cons top rest ih =>
    intro tree same own
    obtain ⟨grows, definition⟩ := each top (by simp)
    have first := registering_definition forest grows definition same own
    simp only [List.foldl_cons, List.map_cons] at first ⊢
    rw [first]
    exact ih (fun other member => each other (by simp [member]))
      (same.trans (sameSyntax_registerOne (tree, own.reports) top.id)) _

end Registration

/-- What registration leaves: each definition in order enters its names and its properties, and
blocks that describe the schema are merged. -/
theorem Tree.buildSymbolTable_eq {tree : Tree} (forest : tree.Forest) {root : NodeId}
    (rooted : tree.root? = some root) :
    let filled := (tree.definitions root).foldl Registration.registerOne
      (Registration.cleared tree (tree.definitions root), [])
    let merged := Registration.mergeMeta filled.1
    tree.buildSymbolTable = ⟨filled.2 ++ merged.2, .ok (), merged.1⟩ := by
  obtain ⟨node, found, file⟩ := forest.root_file rooted
  obtain ⟨growth, grows, rfl⟩ := Tree.exists_growth forest found
  -- The first walk empties the tables of the definitions.
  have unnamed := Tree.SameSyntax.table tree .empty
  have forest' := forest.congr unnamed.links
  have grows' := Tree.Grows.congr unnamed.links _ grows
  obtain ⟨ids, _⟩ := Registration.tops_root forest' grows' rooted _ (fun _ _ => rfl)
    (by rw [unnamed.isOfType, Tree.isOfType_of_get? found, file]; rfl)
  have first := (Tree.walk_eq_fold (Registration.steady_clearTable _) forest' rooted grows' ()).1
  rw [Growth.fold_eq_foldl, Registration.foldl_clearing, ids, unnamed.definitions] at first
  -- The second walk fills them.
  have emptied := Registration.sameSyntax_cleared tree (tree.definitions growth.id)
  have forest'' := forest.congr emptied.links
  have grows'' := Tree.Grows.congr emptied.links _ grows
  have rooted'' := emptied.root.symm.trans rooted
  obtain ⟨ids', each⟩ := Registration.tops_root forest'' grows'' rooted''
    Registration.landmarks
    (fun id listed => by
      rw [Registration.landmarks, Tree.isOfType_union, forest''.not_config_of_root rooted'' listed,
        Bool.or_false])
    (by
      rw [emptied.isOfType, Tree.isOfType_of_get? found, file]
      rfl)
  -- The walk is a fold over the tops, which are the definitions.
  have second := (Tree.walk_eq_fold (Registration.steady_register _) forest'' rooted'' grows''
    Registration.start).1
  rw [Growth.fold_eq_foldl, Registration.foldl_registering forest'' _ each (.refl _), ids',
    emptied.definitions] at second
  unfold Tree.buildSymbolTable
  simp only [first]
  unfold Registration.cleared at second
  simp only [second]
  rfl

/-- Registration of a tree without root leaves no names. -/
theorem Tree.buildSymbolTable_rootless {tree : Tree} (rootless : tree.root? = none) :
    tree.buildSymbolTable = .ok () { tree with table := .empty } := by
  -- Without a root the walk visits nothing, and nothing is merged.
  have none : { tree with table := SymbolTable.empty }.root? = none := rootless
  unfold buildSymbolTable
  simp only [walk_rootless none]
  rfl

end ArgSchema
