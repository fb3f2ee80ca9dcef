import ArgSchema.Proofs.Registration.Alike
import ArgSchema.Proofs.Resolution.Result

/-! Resolution of files that look the same: what one pass accepts, it accepts in both. -/

namespace ArgSchema

namespace Resolution

variable {Twin : NodeId → NodeId → Prop} {a b : Tree}

/-- Two answers, or none in either place. -/
abbrev BothOrNone : Option NodeId → Option NodeId → Prop := Option.Rel fun _ _ => True

section Lookups

variable (alike : a.AlikeTables Twin b)

include alike

/-- A name is that of a type in both trees or in neither. -/
theorem namedType?_alike {x y : String × Category × Span} (name : x.1 = y.1)
    (category : x.2.1 = y.2.1) : BothOrNone (namedType? a x) (namedType? b y) := by
  -- Both sides look the name up, and find entries of one type or none.
  have found := alike.names.get? (x.2.1.external x.1)
  unfold namedType? typeNamed
  rw [← name, ← category]
  generalize a.table.get? (x.2.1.external x.1) = entry?, b.table.get? (x.2.1.external x.1) = entry?'
    at found
  cases found with
  | none => exact .none
  | some same =>
    simp only [same.type]
    split
    · exact .some trivial
    · exact .none

/-- The target of a reference is found in both trees or in neither, and the targets go together. -/
theorem target?_alike (category : Category) (target : String) :
    Option.Rel Twin (target? a category target) (target? b category target) := by
  have found := alike.names.get? target
  unfold target?
  generalize a.table.get? target = entry?, b.table.get? target = entry?' at found
  -- There is an entry under the name in both trees or in neither.
  cases found with
  | none => exact .none
  | some same =>
    simp only [Option.filter_some, same.type]
    split
    · exact .some same.naming.node
    · exact .none

/-- A property is found in both of two definitions that go together, or in neither. -/
theorem property?_alike {id id' : NodeId} (together : Twin id id') (property : String) :
    BothOrNone (property? a id property) (property? b id' property) := by
  -- Both definitions have a table or neither has one.
  have owned := alike.owned id id' together
  unfold property?
  generalize a.table? id = table?, b.table? id' = table?' at owned
  cases owned with
  | none => exact .none
  | @some table table' same =>
    have found := same.get? property
    rw [Option.bind_some, Option.bind_some]
    generalize table.get? property = entry?, table'.get? property = entry?' at found
    cases found with
    | none => exact .none
    | some => exact .some trivial

end Lookups

/-- Twins refer to as much in both trees. -/
theorem answers_alike {a' b' : Tree} (same : a.SameSyntax a') (same' : b.SameSyntax b')
    (alike : a'.AlikeTables Twin b') {id id' : NodeId} (twins : a.Twins b id id') :
    List.Forall₂ BothOrNone (answers a' id) (answers b' id') := by
  obtain ⟨node, node', found, found', kind⟩ := twins.live
  obtain ⟨other, live, bare⟩ := same.get? found
  obtain ⟨other', live', bare'⟩ := same'.get? found'
  -- Resolution may have filled slots already, but what is looked up is read off the bare contents.
  have kinds : other.kind.bare = node.kind.bare := congrArg Node.kind bare
  have kinds' : other'.kind.bare = node.kind.bare := (congrArg Node.kind bare').trans (by rw [kind]; rfl)
  unfold answers
  rw [live, live', Option.map_some, Option.map_some, kinds, kinds']
  split
  · rw [same.identifiers, same'.identifiers]
    exact List.rel_map (fun x y label => namedType?_alike alike label.1 label.2) twins.identifiers
  · next target category property _ _ =>
    -- A property is looked up where the target was found, and targets go together.
    have targets := target?_alike alike category (category.external target)
    refine .cons ?_ .nil
    generalize target? a' category _ = target?, target? b' category _ = target?' at targets
    cases targets with
    | none => exact .none
    | some together => exact property?_alike alike together property
  · exact .nil

/-- What is missing in one tree is missing in the other. -/
theorem none_mem_of_alike {answers answers' : List (Option NodeId)}
    (alike : List.Forall₂ BothOrNone answers answers') (missing : none ∈ answers') :
    none ∈ answers := by
  -- By induction on the answers of both sides.
  induction alike with
  | nil => cases missing
  | cons first _ ih =>
    rcases List.mem_cons.mp missing with rfl | missing
    · cases first
      exact List.mem_cons_self ..
    · exact .tail _ (ih missing)

end Resolution

/-- Whether a pass over a tree comes to its end and reports no error. -/
def Reading.Accepts (reading : Reading Tree Unit) : Prop :=
  reading.result = .ok () ∧ ∀ report ∈ reading.reports, report.severity ≠ .error

/-- Whether names can be entered and what refers to them can be looked up without an error. -/
structure Tree.Checks (tree : Tree) : Prop where
  /-- Registration accepts the tree. -/
  registered : tree.buildSymbolTable.Accepts
  /-- Resolution accepts what registration leaves. -/
  resolved : tree.buildSymbolTable.next.checkReferences.Accepts

/-- A file that looks like one that is accepted is accepted. -/
theorem Tree.Twins.checks {a b : Tree} {root root' : NodeId} (twins : a.Twins b root root')
    (forest : a.Forest) (forest' : b.Forest) (rooted : a.root? = some root)
    (rooted' : b.root? = some root') (checks : a.Checks) : b.Checks := by
  obtain ⟨alike, reports⟩ := twins.registers forest forest' rooted rooted'
  obtain ⟨_, registers⟩ := a.buildSymbolTable_registers forest rooted
  obtain ⟨done, registers'⟩ := b.buildSymbolTable_registers forest' rooted'
  obtain ⟨_, _, errors, answered, _⟩ := Tree.checkReferences_spec
    (forest.congr registers.same.links) (registers.same.root.symm.trans rooted)
  obtain ⟨done', _, _, _, silent⟩ := Tree.checkReferences_spec
    (forest'.congr registers'.same.links) (registers'.same.root.symm.trans rooted')
  -- All reports of resolution are errors, so a tree that is accepted has none.
  have quiet : a.buildSymbolTable.next.checkReferences.reports = [] :=
    List.eq_nil_iff_forall_not_mem.mpr fun report member =>
      checks.resolved.2 report member (errors report member)
  refine ⟨⟨done, reports.silent checks.registered.2⟩, done', ?_⟩
  rw [silent fun id' reached refers missing => ?_]
  · simp
  · -- What is missing below one root is missing below the other.
    obtain ⟨id, reached, twin⟩ := (reached.congr registers'.same.links.symm).twin twins
    rw [registers'.same.isOfType, ← twin.isOfType, ← registers.same.isOfType] at refers
    exact (answered quiet id (reached.congr registers.same.links) refers).2
      (Resolution.none_mem_of_alike
        (Resolution.answers_alike registers.same registers'.same alike twin) missing)

end ArgSchema
