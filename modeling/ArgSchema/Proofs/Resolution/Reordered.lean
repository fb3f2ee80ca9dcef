import ArgSchema.Proofs.Lexer.Reads
import ArgSchema.Proofs.Parser.Meaning
import ArgSchema.Proofs.Preprocessor.Plain
import ArgSchema.Proofs.Resolution.Alike
import ArgSchema.Proofs.Resolution.Unordered
import ArgSchema.Proofs.Tree.Reordered

/-! Definitions in another order: they are checked with the same outcome, and names refer to the same. -/

namespace ArgSchema

namespace Tree

section File

variable {tree : Tree} (forest : tree.Forest) {root : NodeId} (rooted : tree.root? = some root)

include forest rooted

/-- A file is checked without an error exactly if neither pass reports anything. -/
theorem checks_iff_silent : tree.Checks ↔ tree.buildSymbolTable.reports = [] ∧
    ∀ id, tree.Under root id → tree.isOfType Resolution.referrers id = true →
      none ∉ Resolution.answers tree.buildSymbolTable.next id := by
  obtain ⟨done, registers⟩ := tree.buildSymbolTable_registers forest rooted
  obtain ⟨done', -, errors, answered, silent⟩ := Tree.checkReferences_spec
    (forest.congr registers.same.links) (registers.same.root.symm.trans rooted)
  -- What is below the root is the same before registration and behind it.
  have below : ∀ id, tree.buildSymbolTable.next.Under root id ↔ tree.Under root id := fun id =>
    ⟨fun reached => reached.congr registers.same.links.symm,
      fun reached => reached.congr registers.same.links⟩
  simp only [below, registers.same.isOfType] at answered silent
  constructor
  · intro checks
    refine ⟨List.eq_nil_iff_forall_not_mem.mpr fun report member => checks.registered.2 report member
      (tree.severity_buildSymbolTable forest rooted report member), fun id reached refers => ?_⟩
    have quiet := List.eq_nil_iff_forall_not_mem.mpr fun report member =>
      checks.resolved.2 report member (errors report member)
    exact (answered quiet id reached refers).2
  · rintro ⟨quiet, complete⟩
    exact ⟨⟨done, by simp [quiet]⟩, done', by simp [silent complete]⟩

/-- A node of a file that is checked without an error is linked to what the tables answer. -/
theorem slots_of_checks (checks : tree.Checks) {id : NodeId} (reached : tree.Under root id)
    (refers : tree.isOfType Resolution.referrers id = true) :
    tree.buildSymbolTable.next.checkReferences.next.slots id =
      Resolution.answers tree.buildSymbolTable.next id := by
  obtain ⟨-, registers⟩ := tree.buildSymbolTable_registers forest rooted
  -- Resolution reports nothing, and then each slot holds what the tables answer.
  obtain ⟨-, -, errors, answered, -⟩ := Tree.checkReferences_spec
    (forest.congr registers.same.links) (registers.same.root.symm.trans rooted)
  have quiet := List.eq_nil_iff_forall_not_mem.mpr fun report member =>
    checks.resolved.2 report member (errors report member)
  exact (answered quiet id (reached.congr registers.same.links)
    ((registers.same.isOfType _ _).trans refers)).1

variable {order : List NodeId} (perm : order.Perm (tree.children root))

include perm

/-- The names of the definitions are the same, though in another order. -/
theorem perm_names_reorder :
    (((tree.reorder root order).definitions root).flatMap
      (Registration.names (tree.reorder root order))).Perm
        ((tree.definitions root).flatMap (Registration.names tree)) := by
  -- Each definition has the names it had, and the definitions are permuted.
  have defined := perm_definitions_reorder forest rooted perm
  rw [List.flatMap_congr fun id member => names_reorder forest rooted (defined.subset member)]
  exact defined.flatMap_right _

/-- Names stay distinct in another order. -/
theorem DistinctNames.reorder (distinct : tree.DistinctNames root) :
    (tree.reorder root order).DistinctNames root :=
  ((perm_names_reorder forest rooted perm).pairwise_iff fun apart same =>
    (apart same.symm).symm).mpr distinct

/-- The blocks for the schema have the same properties, though in another order. -/
theorem perm_keywords_reorder :
    (((tree.reorder root order).blocks root).flatMap
      (Registration.keywords (tree.reorder root order))).Perm
        ((tree.blocks root).flatMap (Registration.keywords tree)) := by
  -- The blocks are definitions, which were only put in another order.
  have blocks : ((tree.reorder root order).blocks root).Perm (tree.blocks root) := by
    unfold blocks
    rw [show (tree.reorder root order).isOfType (NodeTypes.only .metadata) =
      tree.isOfType (NodeTypes.only .metadata) from funext (isOfType_reorder tree root order _)]
    exact (perm_definitions_reorder forest rooted perm).filter _
  rw [List.flatMap_congr fun id member => keywords_reorder forest rooted
    (List.mem_filter.mp (blocks.subset member)).1]
  exact blocks.flatMap_right _

/-- Distinct names are registered without a report in both orders or in neither. -/
theorem silent_reorder_iff (distinct : tree.DistinctNames root) :
    (tree.reorder root order).buildSymbolTable.reports = [] ↔ tree.buildSymbolTable.reports = [] := by
  -- No report depends on the order of the definitions, as names are distinct.
  have forest' := forest.reorder rooted perm
  have rooted' : (tree.reorder root order).root? = some root := rooted
  have defined := perm_definitions_reorder forest rooted perm
  -- Silence is that of the names, of each definition's properties and of the blocks together.
  rw [buildSymbolTable_silent_iff forest' rooted', buildSymbolTable_silent_iff forest rooted,
    iff_true_intro distinct.silent,
    iff_true_intro (DistinctNames.reorder forest rooted perm distinct).silent]
  refine and_congr_right fun _ => and_congr ?_ ?_
  · -- Each definition has the same properties.
    constructor
    · intro each id member
      rw [← keywords_reorder forest rooted member]
      exact each id (defined.symm.subset member)
    · intro each id member
      rw [keywords_reorder forest rooted (defined.subset member)]
      exact each id (defined.subset member)
  · -- Whether the keys of all blocks' properties are distinct does not depend on their order.
    have plain : ∀ naming ∈ (tree.blocks root).flatMap (Registration.keywords tree),
        naming.type ≠ .metadata := by
      intro naming member
      obtain ⟨id, -, given⟩ := List.mem_flatMap.mp member
      rw [(Registration.mem_keywords given).1]
      simp
    have same := perm_keywords_reorder forest rooted perm
    rw [SymbolTable.addAll_silent_iff_nodup plain, SymbolTable.addAll_silent_iff_nodup
      fun naming member => plain naming (same.subset member)]
    exact (same.map _).nodup_iff

/-- A definition has the key of a name in both orders or in neither. -/
theorem hasKey_reorder_iff {name : String} {types : NodeTypes} {id : NodeId} :
    (tree.reorder root order).HasKey root name types id ↔ tree.HasKey root name types id := by
  -- The definitions are the same, each with the same names.
  have defined := perm_definitions_reorder forest rooted perm
  unfold HasKey
  rw [defined.mem_iff]
  exact and_congr_right fun listed => by rw [names_reorder forest rooted listed]

omit perm in
/-- A definition has a property in both orders or in neither. -/
theorem hasProperty_reorder_iff {owner config : NodeId} (listed : owner ∈ tree.definitions root)
    {property : String} : (tree.reorder root order).HasProperty owner property config ↔
      tree.HasProperty owner property config := by
  unfold HasProperty
  rw [keywords_reorder forest rooted listed]

/-- Registration keeps what a node is, and so it is the same in both orders. -/
theorem bare_registered_reorder (id : NodeId) :
    ((tree.reorder root order).buildSymbolTable.next.get? id).map
        (fun node : Node => node.kind.bare) =
      (tree.buildSymbolTable.next.get? id).map fun node => node.kind.bare := by
  obtain ⟨-, registers⟩ := tree.buildSymbolTable_registers forest rooted
  obtain ⟨-, registers'⟩ := (tree.reorder root order).buildSymbolTable_registers
    (forest.reorder rooted perm) rooted
  -- Neither registration changes what the node is, and the order does not either.
  have kind := congrArg (Option.map NodeKind.bare) (kind_reorder tree root order id)
  rw [Option.map_map, Option.map_map] at kind
  rw [Resolution.bare_congr registers.same, Resolution.bare_congr registers'.same]
  exact kind

/-- If names are distinct and nothing is reported for them, what a name or a reference refers to is the
same in both orders. -/
theorem answers_reorder (distinct : tree.DistinctNames root)
    (silent : tree.buildSymbolTable.reports = []) {id : NodeId} (apart : id ≠ root) :
    Resolution.answers (tree.reorder root order).buildSymbolTable.next id =
      Resolution.answers tree.buildSymbolTable.next id := by
  have forest' := forest.reorder rooted perm
  have rooted' : (tree.reorder root order).root? = some root := rooted
  have distinct' := DistinctNames.reorder forest rooted perm distinct
  have silent' := (silent_reorder_iff forest rooted perm distinct).mpr silent
  obtain ⟨-, registers⟩ := tree.buildSymbolTable_registers forest rooted
  obtain ⟨-, registers'⟩ := (tree.reorder root order).buildSymbolTable_registers forest' rooted'
  -- A type name leads to the definition that has its key, and the same has it in both orders.
  have names : Resolution.namedType? (tree.reorder root order).buildSymbolTable.next =
      Resolution.namedType? tree.buildSymbolTable.next :=
    funext fun name => Option.ext fun definition => by
      rw [Resolution.namedType?_iff forest' rooted' distinct',
        Resolution.namedType?_iff forest rooted distinct, hasKey_reorder_iff forest rooted perm]
  -- A reference leads to the property that has its key, of a definition that has the target's.
  have references : ∀ category target property,
      (Resolution.target? (tree.reorder root order).buildSymbolTable.next category target).bind
          (Resolution.property? (tree.reorder root order).buildSymbolTable.next · property) =
        (Resolution.target? tree.buildSymbolTable.next category target).bind
          (Resolution.property? tree.buildSymbolTable.next · property) := by
    intro category target property
    refine Option.ext fun config => ?_
    rw [Resolution.reference_iff forest' rooted' distinct' silent',
      Resolution.reference_iff forest rooted distinct silent]
    refine exists_congr fun owner => ?_
    rw [hasKey_reorder_iff forest rooted perm]
    exact and_congr_right fun keyed => hasProperty_reorder_iff forest rooted keyed.1
  unfold Resolution.answers
  rw [bare_registered_reorder forest rooted perm, registers'.same.identifiers,
    registers.same.identifiers, identifiers_reorder tree order apart, names]
  simp only [references]

/-- Definitions with distinct names can stand in any order: the file is checked without an error in
both orders or in neither, and if it is, everything is linked to the same. -/
theorem checks_reorder_iff (distinct : tree.DistinctNames root) :
    ((tree.reorder root order).Checks ↔ tree.Checks) ∧ (tree.Checks → ∀ id, tree.Under root id →
      tree.isOfType Resolution.referrers id = true →
      (tree.reorder root order).buildSymbolTable.next.checkReferences.next.slots id =
        tree.buildSymbolTable.next.checkReferences.next.slots id) := by
  have forest' := forest.reorder rooted perm
  have rooted' : (tree.reorder root order).root? = some root := rooted
  -- The root is a file, which refers to nothing.
  have apart : ∀ {id}, tree.isOfType Resolution.referrers id = true → id ≠ root := by
    rintro id refers rfl
    obtain ⟨file, found, type, -⟩ := forest.rooted rooted
    rw [Tree.isOfType_of_get? found, type] at refers
    cases refers
  have same : (tree.reorder root order).Checks ↔ tree.Checks := by
    rw [checks_iff_silent forest' rooted', checks_iff_silent forest rooted,
      silent_reorder_iff forest rooted perm distinct]
    refine and_congr_right fun silent => forall_congr' fun id => ?_
    rw [under_reorder_iff forest rooted perm, isOfType_reorder]
    refine imp_congr_right fun _ => imp_congr_right fun refers => ?_
    rw [answers_reorder forest rooted perm distinct silent (apart refers)]
  refine ⟨same, fun checks id reached refers => ?_⟩
  rw [slots_of_checks forest' rooted' (same.mpr checks)
      ((under_reorder_iff forest rooted perm).mpr reached) ((isOfType_reorder ..).trans refers),
    slots_of_checks forest rooted checks reached refers]
  exact answers_reorder forest rooted perm distinct
    ((checks_iff_silent forest rooted).mp checks).1 (apart refers)

end File

end Tree

namespace Preprocessor

/-- The definitions of a parsed file can stand in any order if no two of their names have the same key,
other than those of blocks for the schema: the passes accept the file in both orders or in neither, and
if they do, each type list and each reference is linked to the same in both. -/
theorem checks_unordered {disk : Disk} {stream : Preprocessor} {tree : Tree} {root : NodeId}
    {order : List NodeId} (parsed : (stream.parse disk).result = .ok tree)
    (rooted : tree.root? = some root) (distinct : tree.DistinctNames root)
    (perm : order.Perm (tree.children root)) :
    ((tree.reorder root order).Checks ↔ tree.Checks) ∧ (tree.Checks → ∀ id, tree.Under root id →
      tree.isOfType Resolution.referrers id = true →
      (tree.reorder root order).buildSymbolTable.next.checkReferences.next.slots id =
        tree.buildSymbolTable.next.checkReferences.next.slots id) :=
  Tree.checks_reorder_iff (TokenStream.forest_of_parse parsed) rooted perm distinct

/-- An argument in front of the type of its values can stand behind it: the file is accepted in both
orders, and the list of types is linked to the type. -/
theorem checks_unordered_type :
    ∃ (disk : Disk) (stream : Preprocessor) (tree : Tree) (root argument type list : NodeId),
      (stream.parse disk).result = .ok tree ∧ tree.root? = some root ∧ tree.DistinctNames root ∧
      tree.children root = [argument, type] ∧ tree.Checks ∧
      (tree.reorder root [type, argument]).Checks ∧
      tree.buildSymbolTable.next.checkReferences.next.slots list = [some type] ∧
      (tree.reorder root [type, argument]).buildSymbolTable.next.checkReferences.next.slots list =
        [some type] := by
  let disk : Disk := .empty
  let stream := ofSource "schema" (Utf8.encode "x <t> \x7b\x7d <t> \x7b\x7d") []
  have plain := plain_ofSource "schema" (Utf8.encode "x <t> \x7b\x7d <t> \x7b\x7d") []
  let place (first last : Nat) : Span :=
    ⟨["schema"], ⟨1, first⟩, ⟨1, last⟩, ⟨1, ["x <t> \x7b\x7d <t> \x7b\x7d"]⟩⟩
  let tokens : List Token := [⟨.identifier, "x", place 1 1⟩, ⟨.type, "t", place 3 5⟩,
    ⟨.openCurly, "\x7b", place 7 7⟩, ⟨.closeCurly, "\x7d", place 8 8⟩, ⟨.type, "t", place 10 12⟩,
    ⟨.openCurly, "\x7b", place 14 14⟩, ⟨.closeCurly, "\x7d", place 15 15⟩]
  -- The tokens are read with the lexer, one after the other.
  have read : (Cursor.ofSource (Utf8.encode "x <t> \x7b\x7d <t> \x7b\x7d")).tokens ["schema"] =
      ([], .ok tokens) := by
    iterate 7 refine Cursor.tokens_cons (by decide +kernel) (by decide +kernel) rfl ?_
    exact Cursor.tokens_nil (by decide +kernel)
  obtain ⟨last, next, drained⟩ := plain.drain_of_silent disk read (by decide)
  let bare : Tree := ⟨#[
    some ⟨.types [], place 3 5, some ⟨2⟩, [⟨1⟩]⟩,
    some ⟨.identifier "t" .type, place 3 5, some ⟨0⟩, []⟩,
    some ⟨.positional false false .empty, place 1 8, some ⟨5⟩, [⟨3⟩, ⟨0⟩, ⟨4⟩]⟩,
    some ⟨.identifier "x" .identifier, place 1 1, some ⟨2⟩, []⟩,
    some ⟨.configs, place 7 8, some ⟨2⟩, []⟩,
    some ⟨.file, place 1 15, none, [⟨2⟩, ⟨6⟩]⟩,
    some ⟨.typeDefinition .empty, place 10 15, some ⟨5⟩, [⟨7⟩, ⟨8⟩]⟩,
    some ⟨.identifier "t" .type, place 10 12, some ⟨6⟩, []⟩,
    some ⟨.configs, place 14 15, some ⟨6⟩, []⟩], none, .empty⟩
  let tree : Tree := { bare with root? := some ⟨5⟩ }
  -- They are reduced to a file, which the end makes the root.
  have grown : tokens.foldlM (fun (parser : Parser) token => parser.read [] token) Parser.start >>=
      Parser.reduce = .ok ⟨bare, ⟨[.node ⟨5⟩]⟩, []⟩ := by decide +kernel
  have parsed : (stream.parse disk).result = .ok tree := by
    rw [parse, drained]
    exact Parser.run_of_file rfl rfl grown rfl (by decide +kernel) (by decide +kernel)
  have rooted : tree.root? = some ⟨5⟩ := rfl
  have below : tree.children ⟨5⟩ = [⟨2⟩, ⟨6⟩] := rfl
  have parts : tree.children ⟨2⟩ = [⟨3⟩, ⟨0⟩, ⟨4⟩] := rfl
  have refers : tree.isOfType Resolution.referrers ⟨0⟩ = true := by decide +kernel
  -- What the passes do to it is computed.
  have names : ((tree.definitions ⟨5⟩).flatMap (Registration.names tree)).map
      (fun naming => rawId naming.id) = ["x", "t"] := by decide +kernel
  have quiet : tree.buildSymbolTable.reports = [] := by decide +kernel
  have quiet' : tree.buildSymbolTable.next.checkReferences.reports = [] := by decide +kernel
  have linked : tree.buildSymbolTable.next.checkReferences.next.slots ⟨0⟩ = [some ⟨6⟩] := by
    decide +kernel
  have forest : tree.Forest := TokenStream.forest_of_parse parsed
  -- The argument and the type have different keys.
  have distinct : tree.DistinctNames ⟨5⟩ := by
    have keys : (["x", "t"] : List String).Nodup := by decide
    rw [← names] at keys
    exact (List.pairwise_map.mp keys).imp fun apart same => absurd same apart
  obtain ⟨done, registers⟩ := tree.buildSymbolTable_registers forest rooted
  obtain ⟨done', -⟩ := (forest.congr registers.same.links).sameScopes_checkReferences
  have checks : tree.Checks :=
    ⟨⟨done, by simp [quiet]⟩, done', by simp [quiet']⟩
  have upper : tree.Under ⟨5⟩ ⟨2⟩ := .of_mem_children forest .top (by simp [below])
  have reached : tree.Under ⟨5⟩ ⟨0⟩ := .of_mem_children forest upper (by simp [parts])
  have perm : [⟨6⟩, ⟨2⟩].Perm (tree.children ⟨5⟩) := below ▸ .swap ..
  obtain ⟨same, kept⟩ := checks_unordered parsed rooted distinct perm
  exact ⟨disk, stream, tree, ⟨5⟩, ⟨2⟩, ⟨6⟩, ⟨0⟩, parsed, rooted, distinct, below, checks,
    same.mpr checks, linked, (kept checks ⟨0⟩ reached refers).trans linked⟩

end Preprocessor

end ArgSchema
