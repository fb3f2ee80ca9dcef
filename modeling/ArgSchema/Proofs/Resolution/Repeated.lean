import ArgSchema.Proofs.Resolution.Result
import ArgSchema.Proofs.Tree.SameTables

/-! Repeated resolution: trees of the same tables are resolved alike, whatever was resolved before. -/

namespace ArgSchema

namespace Resolution

open ArgSchema.Tree (SameProgress SameTables Confined)

section Alike

variable {a b : Tree}

/-- Trees of the same tables have the same scopes. -/
theorem scopes_of_sameTables (same : a.SameTables b) : a.SameScopes b where
  syntactic := same.syntactic
  names := by rw [same.table]; exact .refl a.table
  properties id property := by rw [same.owned]

/-- Resolving names does the same to the same table of top-level names. -/
theorem foldl_resolveName_alike (list : NodeId) (names : List (String × Category × Span)) :
    ∀ {a b : Tree} (progress : List (Option NodeId) × List Diagnostic), b.table = a.table →
      ∃ table left, names.foldl (resolveName list) (a, progress) = ({ a with table := table }, left) ∧
        names.foldl (resolveName list) (b, progress) = ({ b with table := table }, left) := by
  induction names with
  | nil => exact fun {a b} progress same => ⟨a.table, progress, rfl, by rw [← same]; rfl⟩
  | cons name rest ih =>
    intro a b progress same
    -- Whether a name is that of a type depends on the table alone.
    have type : typeNamed b (name.2.1.external name.1) = typeNamed a (name.2.1.external name.1) := by
      rw [typeNamed, same, typeNamed]
    simp only [List.foldl_cons, resolveName, type, same]
    -- A type gets a reference in its entry, and both tables have the same entry.
    cases typeNamed a (name.2.1.external name.1) with
    | error problem => exact ih _ same
    | ok definition => exact @ih { a with table := _ } { b with table := _ } _ rfl

/-- Resolving a list of types does the same to trees of the same tables. -/
theorem sameProgress_resolveTypes (same : a.SameTables b) (id : NodeId) :
    SameProgress (resolveTypes a id) (resolveTypes b id) := by
  obtain ⟨table, ⟨slots, reports⟩, done, done'⟩ :=
    foldl_resolveName_alike id (a.identifiers id) ([], []) same.table
  -- The names of the list are read off the syntax, which is the same.
  unfold resolveTypes
  rw [same.syntactic.identifiers, done, done']
  have linked := (same.setNames table).modifyKind id (keeps_list slots) (keeps_list slots)
  exact ⟨linked, rfl⟩

/-- Resolving a reference does the same to trees of the same tables. -/
theorem sameProgress_resolveReference (same : a.SameTables b) (id : NodeId) (span : Span)
    (target : String) (category : Category) (property : String) :
    SameProgress (resolveReference a id span target category property)
      (resolveReference b id span target category property) := by
  unfold resolveReference
  rw [target?_congr (scopes_of_sameTables same)]
  -- Without a target only a report is made, and without the property a link is taken away.
  cases target? a category target with
  | none => exact ⟨same, rfl⟩
  | some definition =>
    simp only [same.owned]
    cases (((a.table? definition).getD .empty).get? property).map (·.node) with
    | none => exact ⟨same.modifyKind id (keeps_link _) (keeps_link _), rfl⟩
    | some config =>
      exact ⟨(same.setTable definition _).modifyKind id (keeps_link _) (keeps_link _), rfl⟩

/-- Resolving a node does the same to trees of the same tables. -/
theorem sameProgress_resolving {p q : Tree × List Diagnostic} (same : SameProgress p q) (id : NodeId) :
    SameProgress (resolving p id) (resolving q id) := by
  have nodes := same.tables.syntactic.nodes id
  unfold resolving
  cases upper : p.1.get? id <;> cases lower : q.1.get? id <;>
    simp only [upper, lower, Option.map_some, Option.map_none, reduceCtorEq,
      Option.some.injEq] at nodes
  · exact same
  · next node node' =>
    -- Both nodes hold the same but for their tables and what they were resolved to.
    have kinds : node.kind.bare = node'.kind.bare := (congrArg Node.kind nodes : node.bare.kind = _)
    have spans : node.span = node'.span := (congrArg Node.span nodes : node.bare.span = _)
    have resolved : SameProgress (resolveNode p.1 id node) (resolveNode q.1 id node') := by
      unfold resolveNode
      -- Nodes of different kinds differ in what they are bare.
      cases kind : node.kind <;> cases kind' : node'.kind <;>
        simp only [kind, kind', NodeKind.bare, reduceCtorEq, NodeKind.reference.injEq] at kinds
      case types => exact sameProgress_resolveTypes same.tables id
      case reference =>
        obtain ⟨rfl, rfl, rfl, -⟩ := kinds
        rw [← spans]
        exact sameProgress_resolveReference same.tables id _ _ _ _
      all_goals exact ⟨same.tables, rfl⟩
    exact ⟨resolved.tables, congrArg₂ _ same.reports resolved.reports⟩

end Alike

section Confined

variable {base : Tree} {ids : List NodeId}

/-- What top-level names are those of, a reference can have as its target. -/
theorem mem_of_target? (named : ∀ entry ∈ base.table.entries, entry.node ∈ ids) {category : Category}
    {target : String} {definition : NodeId} (known : target? base category target = some definition) :
    definition ∈ ids := by
  -- A target is the node of an entry among the top-level names.
  obtain ⟨entry, chosen, rfl⟩ := Option.map_eq_some_iff.mp known
  obtain ⟨found, -⟩ := Option.filter_eq_some_iff.mp chosen
  exact named entry (SymbolTable.get?_eq_some found).1

/-- Resolving a node changes the tables of targets only. -/
theorem confined_resolveNode (named : ∀ entry ∈ base.table.entries, entry.node ∈ ids) {tree : Tree}
    (same : base.SameScopes tree) (id : NodeId) (node : Node) :
    Confined ids tree (resolveNode tree id node).1 := by
  unfold resolveNode
  cases node.kind
  case types =>
    obtain ⟨table, -, done⟩ := foldl_resolveName id (tree.identifiers id) tree [] []
    simp only [resolveTypes, done]
    exact (Confined.setNames tree table).trans
      (.modifyKind _ id fun kind => (keeps_list _ kind).2)
  case reference target category property link =>
    -- A reference is noted in the table of its target, and in no other.
    simp only [resolveReference, target?_congr same]
    cases known : target? base category (category.external target) with
    | none => exact .refl tree
    | some definition =>
      have member := mem_of_target? named known
      dsimp only
      split
      · exact (Confined.setTable tree member _).trans
          (.modifyKind _ id fun kind => (keeps_link _ kind).2)
      · exact .modifyKind tree id fun kind => (keeps_link _ kind).2
  all_goals exact .refl tree

/-- Resolving nodes changes the tables of targets only. -/
theorem confined_foldl_resolving (named : ∀ entry ∈ base.table.entries, entry.node ∈ ids)
    (nodes : List NodeId) (refer : ∀ id ∈ nodes, base.isOfType referrers id = true) :
    ∀ {s : Tree × List Diagnostic}, base.SameScopes s.1 →
      Confined ids s.1 (nodes.foldl resolving s).1 := by
  induction nodes with
  | nil => exact fun {s} _ => .refl s.1
  | cons first rest ih =>
    intro s same
    obtain ⟨kept, -⟩ := resolving_spec (refer first (by simp)) same
    -- The names stay, so the targets that come later are among the same definitions.
    refine Confined.trans ?_ (ih (fun id member => refer id (by simp [member])) kept)
    unfold resolving
    cases s.1.get? first with
    | none => exact .refl s.1
    | some node => exact confined_resolveNode named same first node

end Confined

end Resolution

namespace Tree.Forest

variable {tree : Tree} (forest : tree.Forest)

include forest

/-- Trees of the same tables are resolved alike. -/
theorem checkReferences_alike {other : Tree} (same : tree.SameTables other) :
    SameProgress (tree.checkReferences.next, tree.checkReferences.reports)
      (other.checkReferences.next, other.checkReferences.reports) := by
  cases rooted : tree.root? with
  | none =>
    rw [checkReferences_rootless rooted,
      checkReferences_rootless (same.syntactic.root.symm.trans rooted)]
    exact ⟨same, rfl⟩
  -- Both trees are traversed along the same growth.
  | some root =>
    obtain ⟨node, found, -⟩ := forest.root_file rooted
    obtain ⟨growth, grows, rfl⟩ := exists_growth forest found
    have links := same.syntactic.links
    -- The same nodes are visited in the same order.
    have visited : growth.ids.filter (other.isOfType Resolution.referrers) =
        growth.ids.filter (tree.isOfType Resolution.referrers) :=
      List.filter_congr fun id _ => same.syntactic.isOfType _ id
    rw [checkReferences_eq forest rooted grows, checkReferences_eq (forest.congr links)
      (same.syntactic.root.symm.trans rooted) (Grows.congr links growth grows), visited]
    exact SameProgress.foldl Resolution.sameProgress_resolving _ (p := (tree, [])) (q := (other, []))
      ⟨same, rfl⟩

/-- Resolution changes the tables of those definitions only that the top-level names are those of. -/
theorem confined_checkReferences {ids : List NodeId}
    (named : ∀ entry ∈ tree.table.entries, entry.node ∈ ids) :
    Confined ids tree tree.checkReferences.next := by
  -- Without a root nothing is checked; below one, tables are set only where an entry points.
  cases rooted : tree.root? with
  | none =>
    rw [checkReferences_rootless rooted]
    exact .refl tree
  | some root =>
    obtain ⟨node, found, -⟩ := forest.root_file rooted
    obtain ⟨growth, grows, rfl⟩ := exists_growth forest found
    rw [checkReferences_eq forest rooted grows]
    exact Resolution.confined_foldl_resolving named _
      (fun id member => (List.mem_filter.mp member).2) (s := (tree, [])) (.refl tree)

/-- A tree that is linked as another of the same tables after resolution stays so when it is resolved. -/
theorem slots_checkReferences_again {other : Tree} (same : tree.SameTables other)
    (linked : ∀ id, other.slots id = tree.checkReferences.next.slots id) (id : NodeId) :
    other.checkReferences.next.slots id = tree.checkReferences.next.slots id := by
  have rooted' := same.syntactic.root
  cases rooted : tree.root? with
  -- Without a root nothing is resolved.
  | none =>
    rw [checkReferences_rootless (rooted'.symm.trans rooted)]
    exact linked id
  | some root =>
    -- The links that a resolution leaves are those that the tables answer.
    obtain ⟨answered, -⟩ := checkReferences_slots forest rooted id
    obtain ⟨answered', left'⟩ := checkReferences_slots (forest.congr same.syntactic.links)
      (rooted'.symm.trans rooted) id
    have scopes := Resolution.scopes_of_sameTables same
    rw [same.syntactic.isOfType, Resolution.targeted_congr scopes] at answered' left'
    rw [Resolution.answers_congr scopes] at answered'
    -- What is resolved gets the same answers again, and the rest is as it was.
    by_cases resolved : tree.Under root id ∧ tree.isOfType Resolution.referrers id = true ∧
        Resolution.targeted tree id = true
    · have under := resolved.1.congr same.syntactic.links
      rw [answered' ⟨under, resolved.2⟩, answered resolved]
    · rw [left' fun both => resolved ⟨both.1.congr same.syntactic.symm.links, both.2⟩]
      exact linked id

end Tree.Forest

/-- A node is known by what it is bare, its table and what it was resolved to. -/
theorem Node.eq_of_bare {a b : Node} (bare : a.bare = b.bare) (table : a.kind.table? = b.kind.table?)
    (slots : a.kind.slots = b.kind.slots) : a = b := by
  obtain ⟨kind, span, parent, children⟩ := a
  obtain ⟨kind', span', parent', children'⟩ := b
  simp only [Node.bare, Node.mk.injEq] at bare
  obtain ⟨kinds, rfl, rfl, rfl⟩ := bare
  -- Of each kind, only the table and what was resolved are not in the bare node.
  have same : kind = kind' := by
    cases kind <;> cases kind' <;> simp_all [NodeKind.bare, NodeKind.table?, NodeKind.slots]
  rw [same]

/-- Trees of the same tables are the same if all nodes are resolved alike. -/
theorem Tree.SameTables.eq_of_slots {a b : Tree} (same : a.SameTables b)
    (size : b.nodes.size = a.nodes.size) (slots : ∀ id, b.slots id = a.slots id) : b = a := by
  -- Each node is known by its syntax, its table and its links.
  have found : ∀ id, b.get? id = a.get? id := by
    intro id
    have bare := same.syntactic.nodes id
    have table := same.owned id
    have linked := slots id
    unfold Tree.table? at table
    unfold Tree.slots at linked
    cases upper : a.get? id <;> cases lower : b.get? id <;>
      simp only [upper, lower, Option.map_some, Option.map_none, Option.bind_some,
        Option.getD_some, reduceCtorEq, Option.some.injEq] at bare table linked
    · rfl
    · next node node' =>
      exact congrArg some (Node.eq_of_bare bare.symm table linked)
  -- As many slots with the same nodes in them are the same slots.
  have nodes : b.nodes = a.nodes := by
    refine Array.ext size fun index inside inside' => ?_
    have slot := found ⟨index⟩
    unfold Tree.get? at slot
    rwa [Array.getElem?_eq_getElem inside, Array.getElem?_eq_getElem inside', Option.join_some,
      Option.join_some] at slot
  have root := same.syntactic.root
  have table := same.table
  cases a
  cases b
  cases nodes
  cases root
  cases table
  rfl

end ArgSchema
