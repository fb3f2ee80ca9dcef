import ArgSchema.Proofs.Registration.Complete
import ArgSchema.Proofs.Registration.Distinct
import ArgSchema.Proofs.Resolution.Linked
import ArgSchema.Proofs.Resolution.Result

/-! Complete resolution: a reference to what a file defines is linked, save for two clashes with the
word for the schema. -/

namespace ArgSchema

namespace Tree

/-- A definition that a reference means: of a kind that its category admits, and written with exactly
the name of its target; any block that describes the schema will do for the schema. -/
structure Means (tree : Tree) (root : NodeId) (category : Category) (target : String)
    (definition : NodeId) : Prop where
  /-- The definition is below the root. -/
  listed : definition ∈ tree.definitions root
  /-- It is of a kind that the category admits. -/
  admitted : tree.isOfType (Resolution.admitted category) definition = true
  /-- It carries the name in the category. -/
  named : category = .metadata ∨ ∃ span, (target, category, span) ∈ tree.identifiers definition

/-- A definition has a property whose keyword is a word, marked in some way. -/
def Declares (tree : Tree) (definition : NodeId) (property : String) (mark : Category) : Prop :=
  ∃ config ∈ tree.properties definition, ∃ span,
    (tree.identifiers config).head? = some (property, mark, span)

/-- A reference is linked to a property of its target by the tables of a registered tree, and nothing
is reported for it. -/
def Links (tree registered : Tree) (root id : NodeId) (category : Category)
    (target property : String) : Prop :=
  Resolution.reported registered id = [] ∧ ∃ config,
    registered.checkReferences.next.slots id = [some config] ∧
      tree.PropertyNamed root category target property config

end Tree

namespace Resolution

open Registration (Registers)

section Registered

variable {tree : Tree} {root : NodeId} {items : List Item} (forest : tree.Forest)
  (rooted : tree.root? = some root) (meant : Meant items)
  (drawn : tree.Draws root (fileOutline items))

include forest rooted meant drawn

/-- A name of the root table that has the key of the schema is that of a block, or of a type that is
named like the key. -/
theorem typeNamed_of_metaKey {entry : Entry}
    (found : tree.buildSymbolTable.next.table.get? "meta" = some entry)
    (other : entry.type ≠ .metadata) : tree.TypeNamed root "[meta]" entry.node := by
  rw [(tree.buildSymbolTable_finds forest rooted).names] at found
  obtain ⟨member, key⟩ := SymbolTable.get?_eq_some found
  obtain ⟨naming, given, rfl⟩ := SymbolTable.exists_naming_of_mem member
  obtain ⟨id, listed, given⟩ := List.mem_flatMap.mp given
  obtain ⟨node, live, here, type, -⟩ := Registration.mem_names given
  have here : naming.entry.node = id := here
  -- The entry is of no block, so the key of the schema was written out.
  have plain : tree.isOfType (NodeTypes.only .metadata) id = false := by
    rw [Tree.isOfType_of_get? live, ← type]
    have other : naming.type ≠ .metadata := other
    simpa using other
  obtain ⟨definition, -, spelled, draws⟩ := Tree.exists_definition meant drawn listed
  obtain ⟨typed, span, written⟩ :=
    (Registration.exists_metaKey_iff spelled draws plain).mp ⟨naming, given, key⟩
  rw [here]
  exact ⟨forest.under_of_mem_definitions rooted listed, typed, span, written⟩

omit meant drawn in
/-- A type that is named like the key of the schema is found in place of the blocks. -/
theorem target?_of_typeNamed (silent : tree.buildSymbolTable.reports = []) {type : NodeId}
    (typed : tree.TypeNamed root "[meta]" type) :
    target? tree.buildSymbolTable.next .metadata "meta" = none := by
  obtain ⟨reached, kind, span, written⟩ := typed
  obtain ⟨node, live, kind⟩ := Tree.exists_of_isOfType_only kind
  have definition : tree.isOfType NodeTypes.definitions type = true := by
    rw [Tree.isOfType_of_get? live, kind]
    rfl
  -- Nothing was reported, so the key is that of the type's entry.
  obtain ⟨entry, found, type', -⟩ := Tree.get?_of_silent forest rooted silent
    (forest.mem_definitions_of_under rooted reached definition) live (by simp [kind]) written
  have found : tree.buildSymbolTable.next.table.get? "meta" = some entry := found
  simp [target?, found, type', kind, admitted]

/-- The definition that a reference means is found, or a block for the schema in place of another, and
the keys of the definition's properties are in the table of what is found. -/
theorem exists_target?_of_means (silent : tree.buildSymbolTable.reports = []) {category : Category}
    {target : String} (names : category.Names target) {definition : NodeId}
    (means : tree.Means root category target definition)
    (clear : ¬(category = .metadata ∧ ∃ type, tree.TypeNamed root "[meta]" type)) :
    ∃ found, target? tree.buildSymbolTable.next category (category.external target) = some found ∧
      (category ≠ .metadata → found = definition) ∧
      ∀ naming ∈ Registration.keywords tree definition,
        rawId naming.id ∈ tree.buildSymbolTable.next.keysOf found := by
  have finds := tree.buildSymbolTable_finds forest rooted
  by_cases schema : category = .metadata
  · subst schema
    obtain rfl : target = "meta" := names
    obtain ⟨first, found, keys⟩ := finds.blocks definition means.listed means.admitted
    -- Something else in place of the first block would be a type that is named like the key.
    have block : first.type = .metadata := Decidable.byContradiction fun other =>
      clear ⟨rfl, _, typeNamed_of_metaKey forest rooted meant drawn found other⟩
    refine ⟨first.node, ?_, fun other => absurd rfl other, keys block⟩
    simp [target?, Category.external, found, admitted, block]
  · obtain ⟨span, written⟩ := means.named.resolve_left schema
    obtain ⟨node, live, fits⟩ := Tree.exists_of_isOfType means.admitted
    have plain : node.type ≠ .metadata := fun block => schema (category_of_block means.admitted (by
      rw [Tree.isOfType_of_get? live, block]
      simp))
    obtain ⟨entry, found, type, here⟩ :=
      Tree.get?_of_silent forest rooted silent means.listed live plain written
    refine ⟨definition, ?_, fun _ => rfl, finds.keywords definition means.listed⟩
    simp [target?, found, type, fits, here]

omit forest rooted in
/-- A property that a definition declares is found wherever the definition's keys are, unless it is the word
for the schema behind a dot. -/
theorem exists_property?_of_declares {owner found : NodeId} (listed : owner ∈ tree.definitions root)
    (keys : ∀ naming ∈ Registration.keywords tree owner,
      rawId naming.id ∈ tree.buildSymbolTable.next.keysOf found)
    {property : String} (word : IsWord property) {mark : Category}
    (declared : tree.Declares owner property mark) (dotless : property = "meta" → mark ≠ .property) :
    ∃ config, property? tree.buildSymbolTable.next found property = some config := by
  obtain ⟨config, inside, span, first⟩ := declared
  obtain ⟨given, -, spelled, draws⟩ := Tree.exists_definition meant drawn listed
  obtain ⟨named, marked⟩ := Tree.keyword_spelled spelled draws inside first
  have keyword : ⟨mark.external property, .config, config, span⟩ ∈ Registration.keywords tree owner :=
    List.mem_flatMap.mpr ⟨config, inside, by simp [Registration.keyword?, first]⟩
  have key := keys _ keyword
  -- The keyword's key is that of the word, since it is not the schema's behind a dot.
  rw [(rawId_keyword_iff word named marked).mpr ⟨rfl, dotless⟩] at key
  obtain ⟨table, entry, owned, got⟩ := Tree.mem_keysOf.mp key
  exact ⟨entry.node, by rw [property?, owned, Option.bind_some, got]; rfl⟩

/-- A property that is found is declared by the definition, or by another block if it is one, and it is not
the word for the schema behind a dot. -/
theorem exists_declares_of_property? {found : NodeId} (listed : found ∈ tree.definitions root)
    {property : String} (word : IsWord property) {config : NodeId}
    (answer : property? tree.buildSymbolTable.next found property = some config) :
    ∃ owner ∈ tree.definitions root,
      (owner = found ∨ (tree.isOfType (NodeTypes.only .metadata) found = true ∧
        tree.isOfType (NodeTypes.only .metadata) owner = true)) ∧
      ∃ mark, (property = "meta" → mark ≠ .property) ∧ tree.Declares owner property mark := by
  obtain ⟨-, registers⟩ := tree.buildSymbolTable_registers forest rooted
  obtain ⟨owner, listed', ⟨naming, given, key, rfl⟩, same⟩ :=
    exists_keyword_of_property? registers listed answer
  obtain ⟨-, inside, name, mark, span, first, written⟩ := Registration.mem_keywords given
  obtain ⟨block, -, spelled, draws⟩ := Tree.exists_definition meant drawn listed'
  obtain ⟨named, marked⟩ := Tree.keyword_spelled spelled draws inside first
  -- Only a keyword of the same name has the same key.
  have keys : rawId (mark.external name) = rawId property := written ▸ key
  obtain ⟨rfl, dotless⟩ := (rawId_keyword_iff word named marked).mp keys
  exact ⟨owner, listed', same, mark, dotless, naming.node, inside, span, first⟩

/-- What a reference means is found exactly if no type is named like the key of the schema in place of
the schema, and its property is not the word for the schema behind a dot only. -/
theorem answers_complete_iff (silent : tree.buildSymbolTable.reports = []) {category : Category}
    {target property : String} (names : category.Names target) (word : IsWord property)
    {definition : NodeId} (means : tree.Means root category target definition) {mark : Category}
    (declared : tree.Declares definition property mark) :
    (∃ found, target? tree.buildSymbolTable.next category (category.external target) = some found ∧
      ∃ config, property? tree.buildSymbolTable.next found property = some config) ↔
    ¬(category = .metadata ∧ ∃ type, tree.TypeNamed root "[meta]" type) ∧
      (property = "meta" → ∃ other mark, mark ≠ .property ∧
        tree.Means root category target other ∧ tree.Declares other "meta" mark) := by
  -- An answer leads to a declaration, and a declaration without the two exceptions leads to an
  -- answer.
  obtain ⟨-, registers⟩ := tree.buildSymbolTable_registers forest rooted
  constructor
  · rintro ⟨found, chosen, config, answer⟩
    have clear : ¬(category = .metadata ∧ ∃ type, tree.TypeNamed root "[meta]" type) := by
      rintro ⟨rfl, type, typed⟩
      obtain rfl : target = "meta" := names
      have none := target?_of_typeNamed forest rooted silent typed
      cases none.symm.trans chosen
    refine ⟨clear, ?_⟩
    rintro rfl
    obtain ⟨listed, fits, -⟩ := target?_sound registers names chosen
    obtain ⟨owner, listed', same, mark, dotless, declared⟩ :=
      exists_declares_of_property? forest rooted meant drawn listed word answer
    refine ⟨owner, mark, dotless rfl, ?_, declared⟩
    -- Any block will do for the schema; otherwise the definition that was found is the one meant.
    by_cases schema : category = .metadata
    · subst schema
      refine ⟨listed', ?_, .inl rfl⟩
      rcases same with rfl | ⟨-, block⟩
      · exact fits
      · exact block
    · obtain ⟨found', chosen', same', -⟩ :=
        exists_target?_of_means forest rooted meant drawn silent names means clear
      obtain rfl : found = found' := Option.some.inj (chosen.symm.trans chosen')
      obtain rfl := same' schema
      rcases same with rfl | ⟨block, -⟩
      · exact means
      · exact absurd (category_of_block fits block) schema
  -- The word for the schema is looked up under a key of its own, so it is a case apart.
  · rintro ⟨clear, spelled⟩
    by_cases schema : property = "meta"
    · subst schema
      obtain ⟨other, mark, dotless, means, declared⟩ := spelled rfl
      obtain ⟨found, chosen, -, keys⟩ :=
        exists_target?_of_means forest rooted meant drawn silent names means clear
      exact ⟨found, chosen, exists_property?_of_declares meant drawn means.listed keys word
        declared fun _ => dotless⟩
    · obtain ⟨found, chosen, -, keys⟩ :=
        exists_target?_of_means forest rooted meant drawn silent names means clear
      exact ⟨found, chosen, exists_property?_of_declares meant drawn means.listed keys word
        declared fun same => absurd same schema⟩

end Registered

end Resolution

/-- If no name is reported, resolution visits each reference once, and a reference to a property that
some definition of exactly its target declares is linked without a report. There are two exceptions:
the word for the schema does not find its blocks if a type is named like its key, and a property that
is called like the schema is found only where its keyword stands without a dot. -/
theorem Preprocessor.reference_linked_iff {disk : Disk} {stream : Preprocessor}
    (opens : stream.Opens disk) {tree : Tree} (parsed : (stream.parse disk).result = .ok tree)
    {root : NodeId} (rooted : tree.root? = some root)
    (silent : tree.buildSymbolTable.reports = []) :
    let registered := tree.buildSymbolTable.next
    registered.checkReferences.result = .ok () ∧
      (∃ visited : List NodeId, visited.Nodup ∧
        (∀ id, id ∈ visited ↔ tree.Under root id ∧ tree.isOfType Resolution.referrers id = true) ∧
        registered.checkReferences.reports = visited.flatMap (Resolution.reported registered)) ∧
      ∀ id node target category property slot, tree.Under root id → tree.get? id = some node →
        node.kind = .reference target category property slot →
        ∀ definition mark, tree.Means root category target definition →
          tree.Declares definition property mark →
          (tree.Links registered root id category target property ↔
            ¬(category = .metadata ∧ ∃ type, tree.TypeNamed root "[meta]" type) ∧
              (property = "meta" → ∃ other mark, mark ≠ .property ∧
                tree.Means root category target other ∧ tree.Declares other "meta" mark)) := by
  -- The parsed tree draws items whose names mean what the source says, which the tables are read
  -- against.
  obtain ⟨forest, meaning⟩ := Preprocessor.parse_meant opens parsed
  obtain ⟨items, meant, drawn⟩ := meaning root rooted
  obtain ⟨-, registers⟩ := tree.buildSymbolTable_registers forest rooted
  have links := registers.same.links
  obtain ⟨done, scopes, visited, once, listed, reports, answered⟩ := Tree.checkReferences_visits
    (forest.congr links) (registers.same.root.symm.trans rooted)
  have listed : ∀ id, id ∈ visited ↔
      tree.Under root id ∧ tree.isOfType Resolution.referrers id = true := by
    intro id
    rw [listed, registers.same.isOfType]
    exact and_congr_left fun _ =>
      ⟨fun reached => reached.congr links.symm, fun reached => reached.congr links⟩
  refine ⟨done, ⟨visited, once, listed, reports⟩, ?_⟩
  intro id node target category property slot reached found reference definition mark means declared
  have bare : node.kind.bare = .reference target category property none := by
    rw [reference]
    rfl
  have refers : tree.isOfType Resolution.referrers id = true := by
    rw [Tree.isOfType_of_get? found, Node.type, reference]
    simp [NodeKind.type, Resolution.referrers]
  obtain ⟨-, names, word⟩ := drawn.reference_refers meant reached found bare
  rw [← Resolution.answers_complete_iff forest rooted meant drawn silent names word means declared]
  -- The reference is linked exactly if the tables answer.
  obtain ⟨node', live, same⟩ := registers.same.get? found
  have kind : node'.kind.bare = .reference target category property none :=
    (congrArg Node.kind same).trans bare
  have answers : Resolution.answers tree.buildSymbolTable.next id =
      [(Resolution.target? tree.buildSymbolTable.next category (category.external target)).bind
        (Resolution.property? tree.buildSymbolTable.next · property)] := by
    rw [Resolution.answers, live, Option.map_some, kind]
  have quiet := Resolution.reported_eq_nil_iff ((registers.same.isOfType _ _).trans refers)
  -- A reference is reported exactly if the one lookup that it needs has no answer.
  constructor
  · rintro ⟨unreported, -⟩
    have complete := quiet.mp unreported
    rw [answers, List.mem_singleton] at complete
    obtain ⟨config, answer⟩ := Option.ne_none_iff_exists'.mp (Ne.symm complete)
    obtain ⟨found, chosen, answer⟩ := Option.bind_eq_some_iff.mp answer
    exact ⟨found, chosen, config, answer⟩
  · rintro ⟨found', chosen, config, answer⟩
    have complete : none ∉ Resolution.answers tree.buildSymbolTable.next id := by
      simp [answers, chosen, answer]
    have unreported := quiet.mpr complete
    obtain ⟨linked, -⟩ := answered id ((listed id).mpr ⟨reached, refers⟩) unreported
    obtain ⟨config', answer', named⟩ := Resolution.answers_reference forest rooted meant drawn
      registers reached found bare complete
    exact ⟨unreported, config', linked.trans answer', named⟩

/-- The tokens of a block for the schema that uses its own property, whose keyword is that of the schema
behind a dot. -/
theorem reads_dottedMeta :
    Reads (Utf8.encode "meta \x7b .meta meta.meta; \x7d") [(.identifier, "meta"),
      (.openCurly, "\x7b"), (.property, "meta"), (.reference .metadata "meta", "meta"),
      (.semicolon, ";"), (.closeCurly, "\x7d")] [] :=
  .of_scan 25 (by decide +kernel)

/-- Those tokens spell the block. -/
theorem file_dottedMeta {tokens : List Token}
    (same : tokens.map (fun token => (token.kind, token.text)) = [(.identifier, "meta"),
      (.openCurly, "\x7b"), (.property, "meta"), (.reference .metadata "meta", "meta"),
      (.semicolon, ";"), (.closeCurly, "\x7d")]) :
    Grammar.File [.definition ⟨⟨.metadata, [], none⟩,
      [⟨[], ⟨"meta", .property⟩, [.reference "meta" .metadata "meta" none]⟩]⟩] tokens := by
  simp only [List.map_eq_cons_iff, List.map_eq_nil_iff, Prod.mk.injEq] at same
  obtain ⟨schema, _, rfl, ⟨word, text⟩, opening, _, rfl, ⟨opens, -⟩, keyword, _, rfl, ⟨dotted, called⟩,
    value, _, rfl, ⟨refers, target⟩, semicolon, _, rfl, ⟨ends, -⟩, closing, _, rfl, ⟨closes, -⟩,
    rfl⟩ := same
  -- From the innermost phrases outwards.
  have strays : Grammar.Strays [] := by simp [Grammar.Strays]
  have literal : Grammar.Value (.reference "meta" .metadata "meta" none) [value] :=
    .token (by simp [Token.value?, refers, target])
  have name : keyword.keyword? = some ⟨"meta", .property⟩ := by
    simp [Token.keyword?, Token.isKeyword, Token.label?, Token.category?, dotted, called]
  have config : Grammar.Config _ [keyword, value, semicolon] :=
    .statement .none name (by simp) (Grammar.Sequence.none.more literal) ends strays
  have body : Grammar.Body _ [opening, keyword, value, semicolon, closing] :=
    .braces opens strays (Grammar.Sequence.none.more config) closes
  exact .items (by simp) (Grammar.Sequence.none.more (.definition (.definition
    (.metadata word text) body)))

/-- The text is parsed as the block. -/
theorem Preprocessor.parse_dottedMeta : ∃ tree root,
    ((ofSource "schema" (Utf8.encode "meta \x7b .meta meta.meta; \x7d") []).parse .empty).result =
      .ok tree ∧ tree.Forest ∧ tree.root? = some root ∧
      tree.Draws root (fileOutline [.definition ⟨⟨.metadata, [], none⟩,
        [⟨[], ⟨"meta", .property⟩, [.reference "meta" .metadata "meta" none]⟩]⟩]) := by
  exact parse_of_reads .empty "schema" _ [] reads_dottedMeta (by decide) file_dottedMeta

/-- What goes together with a single element is a single element. -/
theorem exists_eq_singleton {α β : Type} {R : α → β → Prop} {as : List α} {b : β}
    (together : List.Forall₂ R as [b]) : ∃ a, as = [a] ∧ R a b := by
  obtain ⟨a, rest, given, none, rfl⟩ := List.forall₂_cons_right_iff.mp together
  exact ⟨a, by rw [List.forall₂_nil_right_iff.mp none], given⟩

/-- A reference is not linked to the property of a block that is called like the schema behind a dot. -/
theorem Preprocessor.reference_linked_dotted :
    ∃ disk stream tree root id node definition, Opens disk stream ∧
      (stream.parse disk).result = .ok tree ∧ tree.root? = some root ∧
      tree.buildSymbolTable.reports = [] ∧ tree.Under root id ∧ tree.get? id = some node ∧
      node.kind = .reference "meta" .metadata "meta" none ∧
      tree.Means root .metadata "meta" definition ∧ tree.Declares definition "meta" .property ∧
      ¬tree.Links tree.buildSymbolTable.next root id .metadata "meta" "meta" := by
  obtain ⟨tree, root, parsed, forest, rooted, drawn⟩ := parse_dottedMeta
  have opens : Opens .empty _ :=
    .source "schema" (Utf8.encode "meta \x7b .meta meta.meta; \x7d") []
  -- The file is one block with one property, whose one value is the reference.
  obtain ⟨block, definitions, drawsBlock⟩ := exists_eq_singleton drawn.definitions
  obtain ⟨config, properties, drawsConfig⟩ := exists_eq_singleton drawsBlock.properties
  have keyword := drawsConfig.keyword
  simp only [List.map_eq_cons_iff, List.map_eq_nil_iff, Label.mk.injEq] at keyword
  obtain ⟨⟨name, mark, span⟩, _, identifiers, ⟨rfl, rfl⟩, rfl⟩ := keyword
  have drawsParts : List.Forall₂ tree.Draws (tree.children config) _ := drawsConfig.children
  obtain ⟨_, values, -, parts, children⟩ := List.forall₂_cons_right_iff.mp drawsParts
  obtain ⟨values, rfl, drawsValues⟩ := exists_eq_singleton parts
  obtain ⟨reference, leaf, drawsReference⟩ := exists_eq_singleton drawsValues.children
  obtain ⟨node, live, kind⟩ := drawsReference.live
  obtain ⟨given, found, type⟩ := drawsBlock.type_of_definition
  have type : given.type = .metadata := type
  have member : block ∈ tree.definitions root := by simp [definitions]
  have inside : config ∈ tree.properties block := by simp [properties]
  have named : Registration.names tree block = [⟨"meta", .metadata, block, given.span⟩] := by
    simp [Registration.names, found, Registration.aliases, type]
  have written : Registration.keywords tree block = [⟨".meta", .config, config, span⟩] := by
    simp [Registration.keywords, properties, Registration.keyword?, identifiers, Category.external]
  -- One block and one property are registered without a clash.
  have silent := tree.buildSymbolTable_of_single forest rooted definitions named written
  have means : tree.Means root .metadata "meta" block := ⟨member, by
    rw [Tree.isOfType_of_get? found, type]
    rfl, .inl rfl⟩
  have declared : tree.Declares block "meta" .property := ⟨config, inside, span, by simp [identifiers]⟩
  have reached : tree.Under root reference := by
    have upper := (forest.of_mem_properties inside (forest.under_of_mem_definitions rooted member)).1
    have middle := Tree.Under.of_mem_children forest upper (show values ∈ tree.children config by
      simp [children])
    exact Tree.Under.of_mem_children forest middle (by simp [leaf])
  refine ⟨_, _, tree, root, reference, node, block, opens, parsed, rooted, silent, reached, live,
    kind, means, declared, fun links => ?_⟩
  obtain ⟨-, -, law⟩ := reference_linked_iff opens parsed rooted silent
  obtain ⟨-, dotless⟩ := (law reference node "meta" .metadata "meta" none reached live kind block
    .property means declared).mp links
  -- The only definition declares the word behind a dot only.
  obtain ⟨other, mark, plain, means', config', inside', span', first⟩ := dotless rfl
  have here := means'.listed
  rw [definitions, List.mem_singleton] at here
  subst here
  rw [properties, List.mem_singleton] at inside'
  subst inside'
  rw [identifiers] at first
  cases first
  exact plain rfl

end ArgSchema
