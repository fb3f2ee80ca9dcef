import ArgSchema.Proofs.Registration.Merged
import ArgSchema.Proofs.Resolution.Lookups
import ArgSchema.Proofs.Resolution.Referrers
import ArgSchema.Proofs.SymbolTable.RawIds

/-! Links: what the tables of a registered file say about names, the file says itself. -/

namespace ArgSchema

namespace Tree

/-- A type definition below the root that carries a name. -/
structure TypeNamed (tree : Tree) (root : NodeId) (name : String) (id : NodeId) : Prop where
  /-- The definition is below the root. -/
  reached : tree.Under root id
  /-- It is a live definition of a type. -/
  type : tree.isOfType (NodeTypes.only .typeDefinition) id = true
  /-- It carries the name. -/
  named : ∃ span, (name, Category.type, span) ∈ tree.identifiers id

/-- A property below the root that a reference can use. -/
structure PropertyNamed (tree : Tree) (root : NodeId) (category : Category)
    (target property : String) (id : NodeId) : Prop where
  /-- The property is below the root. -/
  reached : tree.Under root id
  /-- It is a live property. -/
  type : tree.isOfType (NodeTypes.only .config) id = true
  /-- Its keyword is the word of the reference, with or without a dot. -/
  keyword : ∃ category span, (tree.identifiers id).head? = some (property, category, span)
  /-- It belongs to a definition of a kind that the category of the reference admits, which has the
  target as one of its keys; any block that describes the schema will do for the schema. -/
  owner : ∃ definition ∈ tree.definitions root, id ∈ tree.properties definition ∧
    tree.isOfType (Resolution.admitted category) definition = true ∧
    (category = .metadata ∨ ∃ name category span,
      (name, category, span) ∈ tree.identifiers definition ∧ rawId (category.external name) = target)

/-- Everything below the root that refers to something is linked to what it refers to. -/
structure Linked (tree : Tree) (root : NodeId) : Prop where
  /-- Each name in a type list is linked to a definition of the type. -/
  types : ∀ {id node slots}, tree.Under root id → tree.get? id = some node →
    node.kind = .types slots →
    List.Forall₂ (fun name slot => ∃ definition, slot = some definition ∧
      tree.TypeNamed root name.1 definition) (tree.identifiers id) slots
  /-- Each reference is linked to a property of its target. -/
  references : ∀ {id node target category property slot}, tree.Under root id →
    tree.get? id = some node → node.kind = .reference target category property slot →
    ∃ config, slot = some config ∧ tree.PropertyNamed root category target property config

section Syntax

variable {a b : Tree} (same : a.SameSyntax b) {root id : NodeId}

include same

/-- Carrying a name depends on the syntax only. -/
theorem TypeNamed.congr {name : String} (given : a.TypeNamed root name id) :
    b.TypeNamed root name id where
  reached := given.reached.congr same.links
  type := (same.isOfType _ _).trans given.type
  named := (same.identifiers id).symm ▸ given.named

/-- Being of use to a reference depends on the syntax only. -/
theorem PropertyNamed.congr {category : Category} {target property : String}
    (given : a.PropertyNamed root category target property id) :
    b.PropertyNamed root category target property id where
  reached := given.reached.congr same.links
  type := (same.isOfType _ _).trans given.type
  keyword := (same.identifiers id).symm ▸ given.keyword
  owner := by
    -- The tables play no part in what a name refers to.
    obtain ⟨definition, listed, inside, admitted, named⟩ := given.owner
    refine ⟨definition, (same.definitions root).symm ▸ listed,
      (same.properties definition).symm ▸ inside, (same.isOfType _ _).trans admitted, ?_⟩
    rw [same.identifiers]
    exact named

end Syntax

end Tree

namespace Registration

variable {tree after : Tree} {root : NodeId} {items : List Item}

/-- An entry among the top-level names is that of a definition's name. -/
theorem Registers.exists_of_get? (registers : Registers tree (tree.definitions root) after)
    {id : String} {entry : Entry} (found : after.table.get? id = some entry) :
    entry.node ∈ tree.definitions root ∧ ∃ node, tree.get? entry.node = some node ∧
      entry.type = node.type ∧ (node.type = .metadata ∨
        ∃ name category span, (name, category, span) ∈ tree.identifiers entry.node ∧
          rawId (category.external name) = rawId id) := by
  -- An entry was made for a name of a definition, with its key.
  obtain ⟨member, key⟩ := SymbolTable.get?_eq_some found
  rw [registers.names] at member
  obtain ⟨naming, given, rfl⟩ := SymbolTable.exists_naming_of_mem (keepFirstMeta_subset _ member)
  obtain ⟨definition, listed, given⟩ := List.mem_flatMap.mp given
  obtain ⟨node, live, here, type, known⟩ := mem_names given
  have here : naming.entry.node = definition := here
  rw [here]
  refine ⟨listed, node, live, type, known.imp And.left ?_⟩
  rintro ⟨_, name, category, span, written, same⟩
  exact ⟨name, category, span, written, same ▸ key⟩

end Registration

namespace Resolution

open Registration (Registers)

variable {tree after : Tree} {root : NodeId} {items : List Item}

/-- Only a reference to the schema admits a block for the schema. -/
theorem category_of_block {category : Category} {id : NodeId}
    (fits : tree.isOfType (admitted category) id = true)
    (block : tree.isOfType (NodeTypes.only .metadata) id = true) : category = .metadata := by
  -- Among the types that the categories admit, a block is in one only.
  obtain ⟨node, live, type⟩ := Tree.exists_of_isOfType_only block
  rw [Tree.isOfType_of_get? live, type, decide_eq_true_eq] at fits
  cases category <;> simp [admitted] at fits ⊢

/-- What the tables find for a target is a definition of an admitted kind with the target's key. -/
theorem target?_sound (registers : Registers tree (tree.definitions root) after)
    {category : Category} {target : String} (names : category.Names target)
    {definition : NodeId}
    (found : target? after category (category.external target) = some definition) :
    definition ∈ tree.definitions root ∧ tree.isOfType (admitted category) definition = true ∧
      (category = .metadata ∨ ∃ name category span,
        (name, category, span) ∈ tree.identifiers definition ∧
          rawId (category.external name) = target) := by
  obtain ⟨entry, chosen, rfl⟩ := Option.map_eq_some_iff.mp found
  obtain ⟨known, accepted⟩ := Option.filter_eq_some_iff.mp chosen
  obtain ⟨listed, node, live, same, named⟩ := registers.exists_of_get? known
  have fits : node.type ∈ admitted category := by simpa [same] using accepted
  refine ⟨listed, by simpa [Tree.isOfType_of_get? live] using fits, ?_⟩
  -- The schema is found by its word, any other target by a definition's name.
  by_cases schema : category = .metadata
  · exact .inl schema
  · refine .inr ?_
    rw [rawId_external names schema] at named
    refine named.resolve_left fun block => ?_
    rw [block] at fits
    cases category <;> simp [admitted] at fits schema

/-- What the table of a definition has for a word was entered for a property with the key of the word,
of the definition itself or, as with all blocks for the schema, of another block. -/
theorem exists_keyword_of_property? (registers : Registers tree (tree.definitions root) after)
    {found config : NodeId} {property : String} (listed : found ∈ tree.definitions root)
    (answer : property? after found property = some config) :
    ∃ owner ∈ tree.definitions root,
      (∃ naming ∈ Registration.keywords tree owner,
        rawId naming.id = rawId property ∧ naming.node = config) ∧
      (owner = found ∨ (tree.isOfType (NodeTypes.only .metadata) found = true ∧
        tree.isOfType (NodeTypes.only .metadata) owner = true)) := by
  obtain ⟨table, owned, namings, rfl, own⟩ := registers.owned found listed
  rw [property?, owned, Option.bind_some] at answer
  obtain ⟨entry, known, rfl⟩ := Option.map_eq_some_iff.mp answer
  obtain ⟨member, key⟩ := SymbolTable.get?_eq_some known
  -- The table holds nothing but what was entered for properties.
  obtain ⟨naming, given, rfl⟩ := SymbolTable.exists_naming_of_mem member
  obtain ⟨owner, listed', given, same⟩ := own naming given
  exact ⟨owner, listed', ⟨naming, given, key, rfl⟩, same⟩

section Registered

variable (forest : tree.Forest) (rooted : tree.root? = some root) (meant : Meant items)
  (drawn : tree.Draws root (fileOutline items))
  (registers : Registers tree (tree.definitions root) after)

include forest rooted meant drawn registers

/-- A type name that the tables know is the name of a type definition. -/
theorem typeNamed_sound {name : String} {id : NodeId}
    (found : typeNamed after (Category.type.external name) = .ok id) :
    tree.TypeNamed root name id := by
  -- The entry found is that of a definition of a type.
  unfold typeNamed at found
  cases known : after.table.get? (Category.type.external name) with
  | none =>
    rw [known] at found
    cases found
  | some entry =>
    simp only [known] at found
    split at found
    · next type =>
      cases found
      obtain ⟨listed, node, live, same, named⟩ := registers.exists_of_get? known
      have definition : node.type = .typeDefinition := same.symm.trans type
      refine ⟨forest.under_of_mem_definitions rooted listed, ?_, ?_⟩
      · rw [Tree.isOfType_of_get? live, definition]
        simp
      · obtain ⟨name', category, span, written, key⟩ := named.resolve_left (by simp [definition])
        obtain ⟨given, _, spelled, draws⟩ := Tree.exists_definition meant drawn listed
        -- Definitions of types have names of types only, and these are their own keys.
        obtain ⟨node', live', form⟩ := draws.type_of_definition
        rw [live] at live'
        cases live'
        have categories := spelled.heading.categories _ (draws.mem_names written)
        have type : category = .type := by
          revert categories form
          cases given.heading.form <;> simp [Form.categories, Form.kind, NodeKind.type, definition]
        subst type
        rw [rawId_type, rawId_type] at key
        exact ⟨span, key ▸ written⟩
    · cases found

/-- A word that the table of a definition knows is the keyword of a property. -/
theorem property?_sound {category : Category} {target property : String} (word : IsWord property)
    {definition config : NodeId} (listed : definition ∈ tree.definitions root)
    (fits : tree.isOfType (admitted category) definition = true)
    (named : category = .metadata ∨ ∃ name category span,
      (name, category, span) ∈ tree.identifiers definition ∧ rawId (category.external name) = target)
    (found : property? after definition property = some config) :
    tree.PropertyNamed root category target property config := by
  -- The property was registered for a definition that shares its table with the one found.
  obtain ⟨owner, listed', ⟨naming, given, key, rfl⟩, same⟩ :=
    exists_keyword_of_property? registers listed found
  obtain ⟨_, inside, name, mark, span, first, written⟩ := Registration.mem_keywords given
  have reached := forest.under_of_mem_definitions rooted listed'
  obtain ⟨below, node, live, type⟩ := forest.of_mem_properties inside reached
  refine ⟨below, ?_, ⟨mark, span, ?_⟩, owner, listed', inside, ?_⟩
  · refine (Tree.isOfType_of_get? live).trans ?_
    simp [type]
  · -- The keyword has the key of the word, so it is the word.
    obtain ⟨block, _, spelled, draws⟩ := Tree.exists_definition meant drawn listed'
    obtain ⟨names, marks⟩ := Tree.keyword_spelled spelled draws inside first
    have keys : rawId (mark.external name) = rawId property := written ▸ key
    rw [← eq_of_rawId_keyword word names marks keys]
    exact first
  · rcases same with rfl | ⟨block, block'⟩
    · exact ⟨fits, named⟩
    · -- The property was merged from another block, so the reference is to the schema.
      have schema := category_of_block fits block
      subst schema
      exact ⟨block', .inl rfl⟩

/-- What the tables answer for a type list are definitions of its types, if nothing is missing. -/
theorem answers_types {id : NodeId} {node : Node} (reached : tree.Under root id)
    (found : tree.get? id = some node) (list : node.kind.bare = .types [])
    (complete : none ∉ answers after id) :
    List.Forall₂ (fun name slot => ∃ definition, slot = some definition ∧
      tree.TypeNamed root name.1 definition) (tree.identifiers id) (answers after id) := by
  obtain ⟨node', live, bare⟩ := registers.same.get? found
  have kind : node'.kind.bare = .types [] := (congrArg Node.kind bare).trans list
  have reading : answers after id = (tree.identifiers id).map (namedType? after) := by
    rw [answers, live, Option.map_some, kind, registers.same.identifiers]
  rw [reading] at complete ⊢
  refine List.forall₂_map_right_iff.mpr (List.forall₂_same.mpr fun name member => ?_)
  have type := drawn.types_refer meant reached found list name member
  -- A name that is no type's would leave an answer missing.
  cases known : typeNamed after (name.2.1.external name.1) with
  | error problem =>
    refine absurd (List.mem_map.mpr ⟨name, member, ?_⟩) complete
    rw [namedType?, known]
    rfl
  | ok definition =>
    refine ⟨definition, by rw [namedType?, known]; rfl, ?_⟩
    rw [type] at known
    exact typeNamed_sound forest rooted meant drawn registers known

/-- What the tables answer for a reference is a property of its target, if it is not missing. -/
theorem answers_reference {id : NodeId} {node : Node} (reached : tree.Under root id)
    (found : tree.get? id = some node) {target property : String} {category : Category}
    (reference : node.kind.bare = .reference target category property none)
    (complete : none ∉ answers after id) :
    ∃ config, answers after id = [some config] ∧
      tree.PropertyNamed root category target property config := by
  obtain ⟨node', live, bare⟩ := registers.same.get? found
  have kind : node'.kind.bare = .reference target category property none :=
    (congrArg Node.kind bare).trans reference
  have reading : answers after id = [(target? after category (category.external target)).bind
      (property? after · property)] := by
    rw [answers, live, Option.map_some, kind]
  obtain ⟨_, names, word⟩ := drawn.reference_refers meant reached found reference
  rw [reading] at complete ⊢
  -- The answer is not missing, so the target and its property were found.
  cases chosen : (target? after category (category.external target)).bind
      (property? after · property) with
  | none => simp [chosen] at complete
  | some config =>
    refine ⟨config, rfl, ?_⟩
    obtain ⟨definition, known, named⟩ := Option.bind_eq_some_iff.mp chosen
    obtain ⟨listed, fits, keyed⟩ := target?_sound registers names known
    exact property?_sound forest rooted meant drawn registers word listed fits keyed named

end Registered

end Resolution

end ArgSchema
