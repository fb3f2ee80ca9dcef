import ArgSchema.Proofs.Parser.Meaning
import ArgSchema.Proofs.Registration.Keys
import ArgSchema.Proofs.SymbolTable.RawIds

/-! Distinct names: no two have the same key after registration, but for a type named `[meta]`. -/

namespace ArgSchema

namespace Registration

/-- A definition that can be written has a name with the key of the schema if it describes the
schema, or if it is a type named like the key. -/
theorem exists_metaKey_iff {tree : Tree} {id : NodeId} {given : Definition}
    (spelled : given.Spelled) (drawn : tree.Draws id given.outline)
    (other : tree.isOfType (NodeTypes.only .metadata) id = false) :
    (∃ naming ∈ names tree id, rawId naming.id = rawId "meta") ↔
      tree.isOfType (NodeTypes.only .typeDefinition) id = true ∧
        ∃ span, ("[meta]", Category.type, span) ∈ tree.identifiers id := by
  -- A name has the schema's key only if it is the word itself or a type in brackets called so.
  obtain ⟨node, found, type⟩ := drawn.type_of_definition
  have plain : node.type ≠ .metadata := by
    intro block
    rw [Tree.isOfType_of_get? found, block] at other
    simp at other
  constructor
  · rintro ⟨naming, member, key⟩
    obtain ⟨node', found', _, _, block | ⟨_, name, category, span, written, same⟩⟩ := mem_names member
    · rw [found] at found'
      cases found'
      exact absurd block.1 plain
    -- The name is spelled in the heading, so its category is one that a heading has.
    · have label := drawn.mem_names written
      have names := spelled.heading.names _ label
      have categories := spelled.heading.categories _ label
      rw [same, rawId_meta] at key
      have schema : category ≠ .metadata := by
        rintro rfl
        revert categories
        cases given.heading.form <;> simp [Form.categories]
      obtain ⟨rfl, rfl⟩ := (category_of_metaKey names schema).mp key
      -- Only definitions of types have names in angle brackets.
      refine ⟨?_, span, written⟩
      rw [Tree.isOfType_of_get? found, type]
      revert categories
      cases given.heading.form <;> simp [Form.categories, Form.kind, NodeKind.type]
  · rintro ⟨_, span, written⟩
    refine ⟨⟨Category.type.external "[meta]", node.type, id, span⟩, ?_, rawId_type "[meta]"⟩
    simp only [names, found, Option.map_some, Option.getD_some, aliases, if_neg plain]
    exact List.mem_map.mpr ⟨_, written, rfl⟩

end Registration

/-- After registration the names of properties have distinct keys in each definition, and so have
the top-level names, unless a type named `[meta]` stands in front of the first block for the schema.

The key of such a type is that of the word for the schema, and a block for the schema is entered
whatever is there. -/
theorem Preprocessor.distinct_keys_registered {disk : Disk} {stream : Preprocessor}
    (opens : stream.Opens disk) {tree : Tree} (parsed : (stream.parse disk).result = .ok tree)
    {root : NodeId} (rooted : tree.root? = some root) :
    tree.buildSymbolTable.result = .ok () ∧
      (∀ id table, tree.Under root id → tree.buildSymbolTable.next.table? id = some table →
        table.keys.Nodup) ∧
      (tree.buildSymbolTable.next.table.keys.Nodup ↔
        ¬∃ before block rest, tree.definitions root = before ++ block :: rest ∧
          (∀ id ∈ before, tree.isOfType (NodeTypes.only .metadata) id = false) ∧
          tree.isOfType (NodeTypes.only .metadata) block = true ∧
          ∃ id ∈ before, tree.isOfType (NodeTypes.only .typeDefinition) id = true ∧
            ∃ span, ("[meta]", Category.type, span) ∈ tree.identifiers id) := by
  -- What the definitions are called is read off the items that the tree draws.
  obtain ⟨forest, meaning⟩ := Preprocessor.parse_meant opens parsed
  obtain ⟨items, meant, drawn⟩ := meaning root rooted
  obtain ⟨done, registers⟩ := tree.buildSymbolTable_registers forest rooted
  have own : ∀ id ∈ tree.definitions root, tree.isOfType NodeTypes.definitions id = true :=
    fun id member => (List.mem_filter.mp member).2
  refine ⟨done, fun id table reached owned => ?_, ?_⟩
  · have definition : tree.isOfType NodeTypes.definitions id = true := by
      rw [← registers.same.isOfType, ← Tree.isSome_table?, owned]
      rfl
    exact registers.nodup_keys_of_mem
      (forest.mem_definitions_of_under rooted reached definition) owned
  · rw [registers.nodup_keys_iff own]
    -- In front of the first block, a name has the schema's key only if it is that of such a type.
    have clash : ∀ {before : List NodeId} {block : NodeId} {rest : List NodeId},
        tree.definitions root = before ++ block :: rest →
        (∀ id ∈ before, tree.isOfType (NodeTypes.only .metadata) id = false) →
        ∀ id ∈ before, ((∃ naming ∈ Registration.names tree id, rawId naming.id = rawId "meta") ↔
          tree.isOfType (NodeTypes.only .typeDefinition) id = true ∧
            ∃ span, ("[meta]", Category.type, span) ∈ tree.identifiers id) := by
      intro before block rest same others id member
      have listed : id ∈ tree.definitions root := by simp [same, member]
      obtain ⟨given, _, spelled, draws⟩ := Tree.exists_definition meant drawn listed
      exact Registration.exists_metaKey_iff spelled draws (others id member)
    constructor
    · rintro free ⟨before, block, rest, same, others, first, id, member, type⟩
      obtain ⟨naming, given, key⟩ := (clash same others id member).mpr type
      exact free before block rest same others first id member naming given key
    · intro none before block rest same others first id member naming given key
      exact none ⟨before, block, rest, same, others, first, id, member,
        (clash same others id member).mp ⟨naming, given, key⟩⟩

/-- The tokens of a type named like the key of the schema and of a block for the schema. -/
theorem reads_metaKey :
    Reads (Utf8.encode "<[meta]> \x7b\x7d\nmeta \x7b\x7d") [(.type, "[meta]"), (.openCurly, "\x7b"),
      (.closeCurly, "\x7d"), (.identifier, "meta"), (.openCurly, "\x7b"), (.closeCurly, "\x7d")] [] :=
  .of_scan 19 (by decide +kernel)

/-- Those tokens spell the type and the block. -/
theorem file_metaKey {tokens : List Token}
    (same : tokens.map (fun token => (token.kind, token.text)) = [(.type, "[meta]"),
      (.openCurly, "\x7b"), (.closeCurly, "\x7d"), (.identifier, "meta"), (.openCurly, "\x7b"),
      (.closeCurly, "\x7d")]) :
    Grammar.File [.definition ⟨⟨.typeDefinition, [⟨"[meta]", .type⟩], none⟩, []⟩,
      .definition ⟨⟨.metadata, [], none⟩, []⟩] tokens := by
  -- Two definitions with empty bodies, the first of a type in brackets.
  simp only [List.map_eq_cons_iff, List.map_eq_nil_iff, Prod.mk.injEq] at same
  obtain ⟨a, _, rfl, ⟨angle, text⟩, b, _, rfl, ⟨open', _⟩, c, _, rfl, ⟨close, _⟩, d, _, rfl,
    ⟨word, schema⟩, e, _, rfl, ⟨again, _⟩, f, _, rfl, ⟨closing, _⟩, rfl⟩ := same
  have name : Grammar.TypeName "[meta]" [a] := text ▸ .token angle
  have strays : Grammar.Strays [] := by simp [Grammar.Strays]
  have first : Grammar.Defines ⟨⟨.typeDefinition, [⟨"[meta]", .type⟩], none⟩, []⟩ [a, b, c] :=
    .definition (.typeDefinition name) (.braces open' strays .none close)
  have second : Grammar.Defines ⟨⟨.metadata, [], none⟩, []⟩ [d, e, f] :=
    .definition (.metadata word schema) (.braces again strays .none closing)
  exact .items (by simp) ((Grammar.Sequence.none.more (Grammar.FileItem.definition first)).more
    (Grammar.FileItem.definition second))

/-- A type named like the key of the schema, in front of a block for the schema, has the same key
as that block. -/
theorem Preprocessor.metaKey_entered_twice :
    ∃ disk stream tree root, Opens disk stream ∧ (stream.parse disk).result = .ok tree ∧
      tree.root? = some root ∧ ¬tree.buildSymbolTable.next.table.keys.Nodup := by
  let disk : Disk := .empty
  let stream := ofSource "schema" (Utf8.encode "<[meta]> \x7b\x7d\nmeta \x7b\x7d") []
  have opens : Opens disk stream := .source _ _ _
  obtain ⟨tree, root, parsed, -, rooted, drawn⟩ :=
    parse_of_reads disk "schema" (Utf8.encode "<[meta]> \x7b\x7d\nmeta \x7b\x7d") [] reads_metaKey
      (by decide) file_metaKey
  refine ⟨disk, stream, tree, root, opens, parsed, rooted, fun distinct => ?_⟩
  refine (distinct_keys_registered opens parsed rooted).2.2.mp distinct ?_
  -- The type is the first definition and the block the second.
  have all : List.Forall₂ (fun id given => tree.Draws id (Definition.outline given))
      (tree.definitions root) [⟨⟨.typeDefinition, [⟨"[meta]", .type⟩], none⟩, []⟩,
        ⟨⟨.metadata, [], none⟩, []⟩] := drawn.definitions
  generalize tree.definitions root = ids at all
  obtain _ | ⟨type, _ | ⟨block, _ | _⟩⟩ := all
  have names := type.names
  simp only [List.map_eq_cons_iff, List.map_eq_nil_iff, Label.mk.injEq] at names
  obtain ⟨⟨name, category, span⟩, _, written, ⟨rfl, rfl⟩, _⟩ := names
  refine ⟨[_], _, [], rfl, fun id member => ?_, block.isOfType _, _, List.mem_singleton_self _,
    type.isOfType _, span, by simp [written]⟩
  rw [List.mem_singleton.mp member]
  exact type.isOfType _

end ArgSchema
