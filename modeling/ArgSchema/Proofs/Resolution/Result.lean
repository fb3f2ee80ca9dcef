import ArgSchema.Proofs.Resolution.Visits

/-! The result of resolution: without reports everything below the root is linked. -/

namespace ArgSchema

namespace Resolution

open Walk (Runs)

/-- A node is linked to what it refers to by the tables of another tree, and nothing is missing. -/
def Answered (base after : Tree) (id : NodeId) : Prop :=
  after.slots id = answers base id ∧ none ∉ answers base id

/-- Resolving a node keeps the scopes, reports what is missing, and links the node unless it is a
reference without a target. -/
theorem resolving_spec {base : Tree} {id : NodeId} (refers : base.isOfType referrers id = true)
    {s : Tree × List Diagnostic} (same : base.SameScopes s.1) :
    base.SameScopes (resolving s id).1 ∧ (resolving s id).2 = s.2 ++ reported base id ∧
      ∀ other, (resolving s id).1.slots other =
        if other = id ∧ targeted base other = true then answers base other else s.1.slots other := by
  have stop : s.1.isOfType referrers id = true := (same.syntactic.isOfType _ _).trans refers
  have reports := reported_congr same id
  obtain ⟨node, found, -⟩ := Tree.exists_of_isOfType stop
  have resolves := resolves_node found stop
  simp only [reported, found, Option.map_some, Option.getD_some] at reports
  simp only [resolving, found]
  refine ⟨same.trans resolves.scopes, congrArg _ reports, fun other => ?_⟩
  -- What the node refers to depends on the scopes, and these are those of the first tree.
  by_cases here : other = id
  · subst here
    rw [resolves.slots, targeted_congr same, answers_congr same]
    simp only [true_and]
  · rw [resolves.others other here, if_neg fun both => here both.1]

/-- Resolving nodes in order keeps the scopes, reports each node, and links all of them but references
without a target. -/
theorem foldl_resolving {base : Tree} (ids : List NodeId)
    (refer : ∀ id ∈ ids, base.isOfType referrers id = true) :
    ∀ {s : Tree × List Diagnostic}, base.SameScopes s.1 →
      base.SameScopes (ids.foldl resolving s).1 ∧
        (ids.foldl resolving s).2 = s.2 ++ ids.flatMap (reported base) ∧
        ∀ other, (ids.foldl resolving s).1.slots other =
          if other ∈ ids ∧ targeted base other = true then answers base other
          else s.1.slots other := by
  induction ids with
  | nil => exact fun same => ⟨same, by simp, by simp⟩
  | cons first rest ih =>
    intro s same
    -- The first node keeps the scopes, so the rest is resolved by the same tables.
    obtain ⟨kept, grown, linked⟩ := resolving_spec (refer first (by simp)) same
    obtain ⟨kept', grown', linked'⟩ := ih (fun id member => refer id (by simp [member])) kept
    refine ⟨kept', ?_, fun other => ?_⟩
    · rw [List.foldl_cons, grown', grown, List.append_assoc]
      rfl
    · -- A node that comes again is linked as it was.
      simp only [List.foldl_cons, linked', linked, List.mem_cons]
      by_cases aimed : targeted base other = true
      · by_cases here : other = first
        · subst here
          simp [aimed]
        · simp [aimed, here]
      · simp [aimed]

/-- Resolving keeps the syntax and leaves every node in its place. -/
theorem steady_resolve (base : Tree) :
    Walk.Steady base referrers resolve fun id _ s => resolving s id := by
  intro id descend below stop _ s same
  have refers : s.1.isOfType referrers id = true := (same.isOfType _ _).trans stop
  obtain ⟨node, found, -⟩ := Tree.exists_of_isOfType refers
  simp only [resolving, found]
  refine ⟨?_, same.trans (resolves_node found refers).scopes.syntactic⟩
  -- Each operation of the visit leaves what the next one starts with.
  refine (Walk.runs_node found).bind ((Walk.runs_tree s).bind ?_)
  refine (Walk.runs_setTree _ _).bind ((Walk.runs_own _).bind ?_)
  exact (Walk.runs_setOwn _ _).bind (Walk.runs_pure id _)

/-- Below a node that refers to others there is none that does. -/
theorem not_refers_below {base : Tree} (forest : base.Forest) {growth : Growth}
    (grows : base.Grows growth) (refers : base.isOfType referrers growth.id = true) :
    ∀ id ∈ Growth.idsAll growth.children, base.isOfType referrers id = false := by
  -- What refers to something has names below it, or nothing.
  obtain ⟨node, found, _⟩ := grows.get?
  intro id member
  -- What is below the node is below one of its children.
  obtain ⟨child, inside, member⟩ := Growth.mem_idsAll.mp member
  have grown := grows.below child inside
  have listed : child.id ∈ base.children growth.id := by
    rw [grows.children_eq]
    exact List.mem_map_of_mem inside
  obtain ⟨node', given, live, lower, _, accepted⟩ := forest.of_mem_children listed
  rw [found] at live
  cases live
  -- Only lists of types and references refer, and a reference is a leaf.
  have type : node.type = .types ∨ node.type = .reference := by
    simpa [Tree.isOfType_of_get? found, referrers] using refers
  rcases type with type | type <;> rw [type] at accepted
  · -- Type lists hold names, and names hold nothing.
    have name : given.type = .identifier := NodeTypes.mem_only.mp accepted
    have leaf := forest.children_eq_nil lower (by rw [name]; rfl)
    rw [grown.children_eq, List.map_eq_nil_iff] at leaf
    cases child with
    | node top below =>
      simp only [Growth.children] at leaf
      simp only [leaf, Growth.ids, Growth.idsAll, List.mem_singleton] at member
      subst member
      refine (Tree.isOfType_of_get? lower).trans ?_
      rw [name]
      rfl
  · exact absurd accepted (NodeTypes.not_mem_empty _)

end Resolution

/-- Resolution resolves everything below the root that refers to something, in document order. -/
theorem Tree.checkReferences_eq {tree : Tree} (forest : tree.Forest) {growth : Growth}
    (rooted : tree.root? = some growth.id) (grows : tree.Grows growth) :
    let left := (growth.ids.filter (tree.isOfType Resolution.referrers)).foldl Resolution.resolving
      (tree, [])
    tree.checkReferences = ⟨left.2, .ok (), left.1⟩ := by
  have walked := (Tree.walk_eq_fold (Resolution.steady_resolve tree) forest rooted grows []).1
  have ids := Growth.map_id_tops (fun below grown stop =>
    Resolution.not_refers_below forest grown stop) growth grows
  rw [Growth.fold_eq_foldl] at walked
  -- No node that refers to others is above another, so the outermost are all.
  have visits : (growth.tops (tree.isOfType Resolution.referrers)).foldl
      (fun s top => Resolution.resolving s top.id) (tree, []) =
        (growth.ids.filter (tree.isOfType Resolution.referrers)).foldl Resolution.resolving
          (tree, []) := by
    rw [← ids, List.foldl_map]
  rw [visits] at walked
  unfold Tree.checkReferences
  rw [walked]

/-- What a node is linked to once its file is resolved: what the tables answer, if it is below the root
and refers to something whose target is there, and what it was linked to otherwise. -/
theorem Tree.checkReferences_slots {tree : Tree} (forest : tree.Forest) {root : NodeId}
    (rooted : tree.root? = some root) (id : NodeId) :
    let resolved := tree.Under root id ∧ tree.isOfType Resolution.referrers id = true ∧
      Resolution.targeted tree id = true
    (resolved → tree.checkReferences.next.slots id = Resolution.answers tree id) ∧
      (¬resolved → tree.checkReferences.next.slots id = tree.slots id) := by
  obtain ⟨node, found, _⟩ := forest.root_file rooted
  obtain ⟨growth, grows, rfl⟩ := Tree.exists_growth forest found
  obtain ⟨-, -, linked⟩ := Resolution.foldl_resolving
    (growth.ids.filter (tree.isOfType Resolution.referrers))
    (fun id member => (List.mem_filter.mp member).2)
    (show tree.SameScopes (tree, ([] : List Diagnostic)).1 from .refl tree)
  -- The walk visits what is below the root and refers to something.
  have visited : id ∈ growth.ids.filter (tree.isOfType Resolution.referrers) ↔
      tree.Under growth.id id ∧ tree.isOfType Resolution.referrers id = true := by
    rw [List.mem_filter, grows.mem_ids_iff]
  rw [Tree.checkReferences_eq forest rooted grows]
  dsimp only
  rw [linked, ← and_assoc, ← visited]
  exact ⟨fun resolved => if_pos resolved, fun left => if_neg left⟩

/-- Resolution of a file never fails and keeps the scopes. It visits everything below the root that
refers to something once, reports what is missing, and links what is not reported. -/
theorem Tree.checkReferences_visits {tree : Tree} (forest : tree.Forest) {root : NodeId}
    (rooted : tree.root? = some root) :
    tree.checkReferences.result = .ok () ∧ tree.SameScopes tree.checkReferences.next ∧
      ∃ visited : List NodeId, visited.Nodup ∧
        (∀ id, id ∈ visited ↔ tree.Under root id ∧ tree.isOfType Resolution.referrers id = true) ∧
        tree.checkReferences.reports = visited.flatMap (Resolution.reported tree) ∧
        ∀ id ∈ visited, Resolution.reported tree id = [] →
          Resolution.Answered tree tree.checkReferences.next id := by
  -- The pass folds over the nodes that refer to something, in document order.
  obtain ⟨node, found, _⟩ := forest.root_file rooted
  obtain ⟨growth, grows, rfl⟩ := Tree.exists_growth forest found
  have stop : ∀ id ∈ growth.ids.filter (tree.isOfType Resolution.referrers),
      tree.isOfType Resolution.referrers id = true := fun id member => (List.mem_filter.mp member).2
  obtain ⟨scopes, reports, linked⟩ := Resolution.foldl_resolving _ stop
    (show tree.SameScopes (tree, ([] : List Diagnostic)).1 from .refl tree)
  rw [Tree.checkReferences_eq forest rooted grows]
  refine ⟨rfl, scopes, _, (Grows.nodup forest growth grows).filter _, fun id => ?_, reports,
    fun id member silent => ?_⟩
  · rw [List.mem_filter, grows.mem_ids_iff]
  · -- Nothing is missing at a node without reports, so its target is there.
    have complete := (Resolution.reported_eq_nil_iff (stop id member)).mp silent
    exact ⟨(linked id).trans (if_pos ⟨member, Resolution.targeted_of_complete complete⟩), complete⟩

/-- Resolution keeps the scopes of a file and never fails. Without reports, everything below the
root that refers to something is linked, and there are none if nothing is missing. -/
theorem Tree.checkReferences_spec {tree : Tree} (forest : tree.Forest) {root : NodeId}
    (rooted : tree.root? = some root) :
    tree.checkReferences.result = .ok () ∧ tree.SameScopes tree.checkReferences.next ∧
      (∀ report ∈ tree.checkReferences.reports, report.severity = .error) ∧
      (tree.checkReferences.reports = [] → ∀ id, tree.Under root id →
        tree.isOfType Resolution.referrers id = true →
        Resolution.Answered tree tree.checkReferences.next id) ∧
      ((∀ id, tree.Under root id → tree.isOfType Resolution.referrers id = true →
        none ∉ Resolution.answers tree id) → tree.checkReferences.reports = []) := by
  -- All of it is said of the visits, node by node.
  obtain ⟨done, scopes, visited, -, listed, reports, answered⟩ :=
    Tree.checkReferences_visits forest rooted
  refine ⟨done, scopes, fun report member => ?_, fun silent id reached refers => ?_,
    fun complete => ?_⟩
  · obtain ⟨id, inside, member⟩ := List.mem_flatMap.mp (reports ▸ member)
    exact Resolution.severity_reported ((listed id).mp inside).2 report member
  · have inside := (listed id).mpr ⟨reached, refers⟩
    exact answered id inside (List.flatMap_eq_nil_iff.mp (reports.symm.trans silent) id inside)
  · rw [reports, List.flatMap_eq_nil_iff]
    intro id inside
    obtain ⟨reached, refers⟩ := (listed id).mp inside
    exact (Resolution.reported_eq_nil_iff refers).mpr (complete id reached refers)

/-- Resolution of a tree without root does nothing. -/
theorem Tree.checkReferences_rootless {tree : Tree} (rootless : tree.root? = none) :
    tree.checkReferences = .ok () tree := by
  unfold checkReferences
  rw [walk_rootless rootless]
  rfl

/-- Resolution of a well-formed tree never fails and keeps the scopes. -/
theorem Tree.Forest.sameScopes_checkReferences {tree : Tree} (forest : tree.Forest) :
    tree.checkReferences.result = .ok () ∧ tree.SameScopes tree.checkReferences.next := by
  -- Without a root there is nothing to check.
  cases rooted : tree.root? with
  | none =>
    rw [checkReferences_rootless rooted]
    exact ⟨rfl, .refl tree⟩
  | some root =>
    obtain ⟨done, scopes, -⟩ := checkReferences_spec forest rooted
    exact ⟨done, scopes⟩

end ArgSchema
