import ArgSchema.Proofs.Compilation.Counts
import ArgSchema.Proofs.Resolution.Linked
import ArgSchema.Proofs.Resolution.Result

/-! Sound compilations: what is accepted has a root, and everything below it is linked. -/

namespace ArgSchema

/-- A file that was registered and resolved without reports is linked. -/
theorem Tree.linked_of_checked {tree : Tree} (forest : tree.Forest) {root : NodeId}
    (rooted : tree.root? = some root) {items : List Item} (meant : Meant items)
    (drawn : tree.Draws root (fileOutline items))
    (silent : tree.buildSymbolTable.next.checkReferences.reports = []) :
    tree.SameSyntax tree.buildSymbolTable.next.checkReferences.next ∧
      tree.buildSymbolTable.next.checkReferences.next.Linked root := by
  -- Without reports every lookup had an answer, and answers are what names refer to.
  obtain ⟨_, registers⟩ := tree.buildSymbolTable_registers forest rooted
  obtain ⟨_, scopes, _, answered, -⟩ := Tree.checkReferences_spec
    (forest.congr registers.same.links) (registers.same.root.symm.trans rooted)
  generalize tree.buildSymbolTable.next = registered at *
  generalize registered.checkReferences.next = checked at *
  have whole := registers.same.trans scopes.syntactic
  -- What refers to something was answered, and all that is looked at is the same in all trees.
  have linked : ∀ {id node}, checked.Under root id → checked.get? id = some node →
      node.type ∈ Resolution.referrers → node.kind.slots = Resolution.answers registered id ∧
        none ∉ Resolution.answers registered id := by
    intro id node reached found type
    have refers : registered.isOfType Resolution.referrers id = true := by
      rw [← scopes.syntactic.isOfType, Tree.isOfType_of_get? found]
      simpa using type
    have done := answered silent id (reached.congr scopes.syntactic.links.symm) refers
    simpa [Resolution.Answered, Tree.slots, found] using done
  refine ⟨whole, ⟨fun {id node slots} reached found list => ?_,
    fun {id node target category property slot} reached found reference => ?_⟩⟩
  -- A list of types: the slots are the answers to its names.
  · obtain ⟨same, complete⟩ := linked reached found (by
      rw [Node.type, list]
      simp [NodeKind.type, Resolution.referrers])
    obtain ⟨other, live, bare⟩ := whole.symm.get? found
    have kind : other.kind.bare = .types [] :=
      (congrArg Node.kind bare).trans (by rw [Node.bare, list]; rfl)
    rw [list, NodeKind.slots] at same
    rw [whole.identifiers, same]
    have named := Resolution.answers_types forest rooted meant drawn registers
      (reached.congr whole.links.symm) live kind complete
    exact named.imp fun name slot given => given.imp fun definition found =>
      ⟨found.1, found.2.congr whole⟩
  · obtain ⟨same, complete⟩ := linked reached found (by
      rw [Node.type, reference]
      simp [NodeKind.type, Resolution.referrers])
    obtain ⟨other, live, bare⟩ := whole.symm.get? found
    have kind : other.kind.bare = .reference target category property none :=
      (congrArg Node.kind bare).trans (by rw [Node.bare, reference]; rfl)
    rw [reference, NodeKind.slots] at same
    -- A reference has a single answer, the node that its words name.
    obtain ⟨config, answer, named⟩ := Resolution.answers_reference forest rooted meant drawn
      registers (reached.congr whole.links.symm) live kind complete
    rw [answer, List.singleton_inj] at same
    exact ⟨config, same, named.congr whole⟩

namespace Compilation

/-- What a compilation promises: a tree exactly if no error was recorded, whose root is a file and
below which everything is linked. -/
structure Sound (compilation : Compilation) : Prop where
  /-- There is a tree exactly if no error was recorded. -/
  decided : (∃ tree, compilation.result = .ok tree) ↔ compilation.record.errorCount = 0
  /-- The root of a tree is a file, and everything below it is linked. -/
  linked : ∀ tree, compilation.result = .ok tree → ∃ root, tree.root? = some root ∧
    tree.isOfType (NodeTypes.only .file) root = true ∧ tree.Linked root

/-- A phase that went on to a tree came from a tree, did not fail, and found no errors. -/
theorem andThen_eq_ok {compilation : Compilation} {breadcrumb : Breadcrumb} {phase : Phase}
    {pass : Tree → Reading Tree Unit} {after : Tree}
    (done : (compilation.andThen breadcrumb phase pass).result = .ok after) :
    ∃ before, compilation.result = .ok before ∧ (pass before).result = .ok () ∧
      after = (pass before).next ∧ ∀ report ∈ (pass before).reports, report.severity ≠ .error := by
  -- Every other way through the phase ends without a tree.
  unfold andThen at done
  cases came : compilation.result with
  | error => simp [came] at done
  | ok before =>
    simp only [came] at done
    cases passed : (pass before).result with
    | error failure => simp [passed, fail] at done
    | ok =>
      simp only [passed, finish] at done
      split at done
      · cases done
      · next clean =>
        cases done
        have none := (Diagnostics.hasErrors_eq_false _).mp (Bool.eq_false_iff.mpr clean)
        exact ⟨before, rfl, passed, rfl, ((Diagnostics.errorCount_pushAll_eq_zero _).mp none).2⟩

/-- Compiling a stream that was not read from before keeps the promise. -/
theorem sound_compile {disk : Disk} {stream : Preprocessor} (opens : stream.Opens disk)
    (breadcrumb : Breadcrumb) : (stream.compile disk .empty breadcrumb).Sound where
  decided := by
    refine Decided.andThen (Decided.andThen ?_ _ _ _) _ _ _
    cases (stream.parse disk).result with
    | error failure => exact decided_fail _ _ _ failure
    | ok tree => exact decided_finish _ _ _
  linked := by
    -- Success means that parsing and both passes left no errors behind.
    intro after compiled
    obtain ⟨registered, entered, _, rfl, silent⟩ := andThen_eq_ok compiled
    obtain ⟨tree, came, _, rfl, _⟩ := andThen_eq_ok entered
    cases parsed : (stream.parse disk).result with
    | error failure => simp [parsed, fail] at came
    | ok tree' =>
      simp only [parsed, finish] at came
      split at came
      · cases came
      · next clean =>
        cases came
        have none := (Diagnostics.hasErrors_eq_false _).mp (Bool.eq_false_iff.mpr clean)
        have quiet := ((Diagnostics.errorCount_applyAll_eq_zero _).mp none).2
        obtain ⟨root, rooted⟩ := TokenStream.rooted_of_parse parsed quiet
        obtain ⟨forest, meaning⟩ := Preprocessor.parse_meant opens parsed
        obtain ⟨items, meant, drawn⟩ := meaning root rooted
        -- Both passes report errors only, so without errors the second reported nothing.
        obtain ⟨_, registers⟩ := tree.buildSymbolTable_registers forest rooted
        obtain ⟨_, _, errors, _⟩ := Tree.checkReferences_spec
          (forest.congr registers.same.links) (registers.same.root.symm.trans rooted)
        have reports : tree.buildSymbolTable.next.checkReferences.reports = [] :=
          List.eq_nil_iff_forall_not_mem.mpr fun report member =>
            silent report member (errors report member)
        obtain ⟨same, linked⟩ := Tree.linked_of_checked forest rooted meant drawn reports
        obtain ⟨file, found, type⟩ := forest.root_file rooted
        refine ⟨root, same.root.symm.trans rooted, ?_, linked⟩
        rw [same.isOfType, Tree.isOfType_of_get? found, type]
        rfl

/-- Compiling a source or a file from an empty record has a tree exactly if no error was recorded,
and then the root of the tree is a file below which every type list and reference is linked. -/
theorem compile_sound (disk : Disk) (name : String) (source : Bytes) (path : String)
    (defines : List String) :
    (compileSource disk .empty name source defines).Sound ∧
      (compileFile disk .empty path defines).Sound := by
  -- A file that cannot be opened is reported, so there is neither a tree nor an empty record.
  refine ⟨sound_compile (.source name source defines) _, ?_⟩
  unfold compileFile
  cases opened : Preprocessor.openFile disk path defines with
  | error failure => exact ⟨decided_fail _ _ _ failure, by simp [fail]⟩
  | ok stream => exact sound_compile (.file opened) _

end Compilation

end ArgSchema
