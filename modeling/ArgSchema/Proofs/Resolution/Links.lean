import ArgSchema.Proofs.Resolution.Result
import ArgSchema.Proofs.Walk.Operations

/-! Links after a check: they are what the tables say, but for references without a target. -/

namespace ArgSchema

namespace Resolution

/-- The type that a name in a type list refers to is that of the first entry of the name. -/
theorem namedType?_eq (tree : Tree) (name : String × Category × Span) :
    namedType? tree name = ((tree.table.get? (name.2.1.external name.1)).filter
      (·.type = .typeDefinition)).map (·.node) := by
  unfold namedType? typeNamed
  cases tree.table.get? (name.2.1.external name.1) with
  | none => rfl
  | some entry =>
    rw [Option.filter_some]
    -- An entry that is no type is as good as none.
    by_cases type : entry.type = .typeDefinition <;> simp [type, Except.toOption]

variable {tree : Tree} {id : NodeId} {node : Node}

/-- A list of types refers to the types that its names are those of. -/
theorem answers_of_types {links : List (Option NodeId)} (found : tree.get? id = some node)
    (list : node.kind = .types links) :
    tree.isOfType referrers id = true ∧ targeted tree id = true ∧
      answers tree id = (tree.identifiers id).map (namedType? tree) := by
  simp [Tree.isOfType, Node.type, NodeKind.type, referrers, targeted, answers, found, list,
    NodeKind.bare]

/-- A reference refers to the property of its target. -/
theorem answers_of_reference {target property : String} {category : Category}
    {link : Option NodeId} (found : tree.get? id = some node)
    (reference : node.kind = .reference target category property link) :
    tree.isOfType referrers id = true ∧
      targeted tree id = (target? tree category (category.external target)).isSome ∧
      answers tree id = [(target? tree category (category.external target)).bind
        (property? tree · property)] := by
  simp [Tree.isOfType, Node.type, NodeKind.type, referrers, targeted, answers, found, reference,
    NodeKind.bare]

end Resolution

/-- After a check of any reachable tree, each list of types below the root is linked to the types that
its names are those of, and each reference whose target is there to the property of the target, if it has
that. A reference whose target is not there keeps the link that it had before. -/
theorem Tree.checkReferences_links {tree : Tree} (reachable : tree.Reachable) :
    let after := tree.checkReferences.next
    tree.checkReferences.result = .ok () ∧
      ∀ root id node, after.root? = some root → after.Under root id → after.get? id = some node →
        (∀ links, node.kind = .types links → links = (after.identifiers id).map fun name =>
          ((after.table.get? (name.2.1.external name.1)).filter (·.type = .typeDefinition)).map
            (·.node)) ∧
        ∀ target category property link, node.kind = .reference target category property link →
          (∀ entry, after.table.get? (category.external target) = some entry →
            entry.type ∈ Resolution.admitted category →
            link = ((after.table? entry.node).bind (·.get? property)).map (·.node)) ∧
          ((∀ entry, after.table.get? (category.external target) = some entry →
              entry.type ∉ Resolution.admitted category) →
            ∃ before, tree.get? id = some before ∧
              before.kind = .reference target category property link) := by
  intro after
  have forest := reachable.forest
  obtain ⟨done, scopes⟩ := forest.sameScopes_checkReferences
  refine ⟨done, fun root id node rooted reached found => ?_⟩
  have linked : after.slots id = node.kind.slots := by simp [slots, found]
  -- What is below the root now was there before, and what it refers to is the same.
  have same := scopes.syntactic.symm
  obtain ⟨resolved, left⟩ := Tree.checkReferences_slots forest (same.root.symm.trans rooted) id
  have under := reached.congr same.links
  rw [same.isOfType, ← Resolution.targeted_congr scopes] at resolved left
  rw [← Resolution.answers_congr scopes, linked] at resolved
  rw [linked] at left
  refine ⟨fun links list => ?_, fun target category property link reference => ?_⟩
  · -- A list of types is always linked to what its names are those of.
    obtain ⟨refers, aimed, answers⟩ := Resolution.answers_of_types found list
    rw [list, NodeKind.slots, answers] at resolved
    rw [resolved ⟨under, refers, aimed⟩]
    exact List.map_congr_left fun name _ => Resolution.namedType?_eq after name
  · obtain ⟨refers, aimed, answers⟩ := Resolution.answers_of_reference found reference
    rw [reference, NodeKind.slots, answers] at resolved
    rw [reference, NodeKind.slots] at left
    refine ⟨fun entry first admitted => ?_, fun missing => ?_⟩
    · -- The entry is the target, so the property is looked up in its table.
      have chosen : Resolution.target? after category (category.external target) =
          some entry.node := by
        simp [Resolution.target?, first, Option.filter_some, admitted]
      rw [chosen] at aimed resolved
      exact List.singleton_inj.mp (resolved ⟨under, refers, aimed⟩)
    · -- Without such an entry there is no target, and the link is left.
      have none : Resolution.target? after category (category.external target) = none := by
        simpa [Resolution.target?] using missing
      rw [none] at aimed
      have kept := left fun both => Bool.false_ne_true (aimed.symm.trans both.2.2)
      obtain ⟨before, live, bare⟩ := same.get? found
      -- The node was the same reference, and its link is the one it has now.
      have kind : before.kind.bare = node.kind.bare := congrArg Node.kind bare
      refine ⟨before, live, ?_⟩
      rw [reference] at kind
      simp only [slots, live, Option.map_some, Option.getD_some] at kept
      -- It differs from what it was in its link at most, and a kind with other parts is excluded.
      cases given : before.kind <;>
        simp only [given, NodeKind.bare, reduceCtorEq, NodeKind.reference.injEq] at kind
      obtain ⟨rfl, rfl, rfl, -⟩ := kind
      rw [given, NodeKind.slots] at kept
      rw [List.singleton_inj.mp kept]

namespace Walk

/-- A reference to a type that is taken out of the table keeps its link. -/
theorem link_of_removed_type :
    ∃ tree : Tree, tree.Reachable ∧ tree.checkReferences.next.table.get? "<t>" = none ∧
      ∃ before node, tree.get? ⟨7⟩ = some before ∧
        tree.checkReferences.next.get? ⟨7⟩ = some node ∧
        before.kind = .reference "t" .type "a" (some ⟨4⟩) ∧ node.kind = before.kind := by
  -- A caller can remove an entry from the root table, and checks the tree again.
  let fill : Walk Unit Unit := do
    let file ← alloc .file default
    let type ← alloc (.typeDefinition .empty) default
    let name ← alloc (.identifier "t" .type) default
    let configs ← alloc .configs default
    let config ← alloc .config default
    let keyword ← alloc (.identifier "a" .identifier) default
    let values ← alloc .values default
    let reference ← alloc (.reference "t" .type "a" none) default
    change (·.addChild file type)
    change (·.addChild type name)
    change (·.addChild type configs)
    change (·.addChild configs config)
    change (·.addChild config keyword)
    change (·.addChild config values)
    change (·.addChild values reference)
    change (·.setRoot file)
  let removed : Walk Unit Unit := do
    let _ ← pass Tree.buildSymbolTable
    let _ ← pass Tree.checkReferences
    let tree ← tree
    setTree { tree with table := tree.table.remove "<t>" }
  let tree := ((fill >>= fun _ => removed).after (Tree.empty, ())).1
  have reachable : tree.Reachable := by
    refine ⟨Unit, Unit, _, (), .bind ?_ fun _ => ?_, rfl⟩
    · exact .bind (.alloc _ _) fun file => .bind (.alloc _ _) fun type =>
        .bind (.alloc _ _) fun name => .bind (.alloc _ _) fun configs =>
        .bind (.alloc _ _) fun config => .bind (.alloc _ _) fun keyword =>
        .bind (.alloc _ _) fun values => .bind (.alloc _ _) fun reference =>
        .bind (.addChild _ _) fun _ => .bind (.addChild _ _) fun _ =>
        .bind (.addChild _ _) fun _ => .bind (.addChild _ _) fun _ =>
        .bind (.addChild _ _) fun _ => .bind (.addChild _ _) fun _ =>
        .bind (.addChild _ _) fun _ => .setRoot _
    · exact .bind .buildSymbolTable fun _ => .bind .checkReferences fun _ =>
        .given (.names (·.remove "<t>"))
  -- The reference is below the root, and no type has its name any more.
  have seen : (tree.checkReferences.next.root?, tree.checkReferences.next.table.get? "<t>",
      (tree.checkReferences.next.get? ⟨7⟩).map (·.kind)) =
      (some ⟨0⟩, none, some (.reference "t" .type "a" (some ⟨4⟩))) := by decide +kernel
  have path : ([0, 1, 3, 4, 6].map fun index => tree.checkReferences.next.children ⟨index⟩) =
      [[⟨1⟩], [⟨2⟩, ⟨3⟩], [⟨4⟩], [⟨5⟩, ⟨6⟩], [⟨7⟩]] := by decide +kernel
  simp only [Prod.mk.injEq, Option.map_eq_some_iff, List.map_cons, List.map_nil, List.cons.injEq,
    and_true] at seen path
  obtain ⟨rooted, none, node, found, reference⟩ := seen
  obtain ⟨file, type, configs, config, values⟩ := path
  have first : tree.checkReferences.next.Under ⟨0⟩ ⟨1⟩ :=
    .listed .top (by simp [file])
  have second : tree.checkReferences.next.Under ⟨0⟩ ⟨3⟩ := first.listed (by simp [type])
  have third : tree.checkReferences.next.Under ⟨0⟩ ⟨4⟩ := second.listed (by simp [configs])
  have fourth : tree.checkReferences.next.Under ⟨0⟩ ⟨6⟩ := third.listed (by simp [config])
  have reached : tree.checkReferences.next.Under ⟨0⟩ ⟨7⟩ := fourth.listed (by simp [values])
  -- The reference is reached from the root, so the law speaks about it.
  obtain ⟨-, links⟩ := Tree.checkReferences_links reachable
  -- No entry is left that could be the target.
  obtain ⟨before, live, kept⟩ := ((links ⟨0⟩ ⟨7⟩ node rooted reached found).2 _ _ _ _ reference).2
    fun entry first => by cases none.symm.trans first
  exact ⟨tree, reachable, none, before, node, live, found, kept, reference.trans kept.symm⟩

end Walk

end ArgSchema
