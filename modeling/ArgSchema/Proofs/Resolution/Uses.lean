import ArgSchema.Proofs.Resolution.Result
import ArgSchema.Proofs.SymbolTable.References

/-! Uses of names: each node that is resolved is noted at the entries that its names are found as. -/

namespace ArgSchema

namespace Resolution

/-- The names in a type list that are those of types. -/
def typesUsed (tree : Tree) (id : NodeId) : List String :=
  match (tree.get? id).map fun node : Node => node.kind.bare with
  | some (.types _) => ((tree.identifiers id).map fun (name, category, _) =>
      category.external name).filter fun name => (typeNamed tree name).toOption.isSome
  | _ => []

/-- The properties of a definition that a node refers to, which is one at most. -/
def propertiesUsed (tree : Tree) (definition id : NodeId) : List String :=
  match (tree.get? id).map fun node : Node => node.kind.bare with
  | some (.reference target category property _) =>
    if target? tree category (category.external target) = some definition ∧
      (property? tree definition property).isSome then [property] else []
  | _ => []

/-- What types a list uses depends on the scopes only. -/
theorem typesUsed_congr {a b : Tree} (same : a.SameScopes b) (id : NodeId) :
    typesUsed b id = typesUsed a id := by
  -- The list is the same in both trees, and so are the types that its names stand for.
  unfold typesUsed
  rw [bare_congr same.syntactic, same.syntactic.identifiers]
  simp only [typeNamed_congr same]

/-- What properties a node uses depends on the scopes only. -/
theorem propertiesUsed_congr {a b : Tree} (same : a.SameScopes b) (definition id : NodeId) :
    propertiesUsed b definition id = propertiesUsed a definition id := by
  -- The target and the property are looked up in the same scopes.
  have properties : property? b = property? a :=
    funext fun definition => funext fun property => same.properties definition property
  unfold propertiesUsed
  rw [bare_congr same.syntactic, properties]
  simp only [target?_congr same]

/-- Nodes that refer to nothing use no types. -/
theorem typesUsed_eq_nil {tree : Tree} {id : NodeId} (other : tree.isOfType referrers id = false) :
    typesUsed tree id = [] := by
  unfold typesUsed
  cases found : tree.get? id with
  | none => rfl
  | some node =>
    rw [Tree.isOfType_of_get? found] at other
    obtain ⟨kind, span, parent, children⟩ := node
    -- Only lists of types use types.
    cases kind
    case types => simp [Node.type, NodeKind.type, referrers] at other
    all_goals rfl

/-- Nodes that refer to nothing use no properties. -/
theorem propertiesUsed_eq_nil {tree : Tree} {id : NodeId}
    (other : tree.isOfType referrers id = false) (definition : NodeId) :
    propertiesUsed tree definition id = [] := by
  unfold propertiesUsed
  cases found : tree.get? id with
  | none => rfl
  | some node =>
    rw [Tree.isOfType_of_get? found] at other
    obtain ⟨kind, span, parent, children⟩ := node
    -- Only references use properties.
    cases kind
    case reference => simp [Node.type, NodeKind.type, referrers] at other
    all_goals rfl

/-- What one node adds to the tables: a reference for each name that it uses. -/
structure Notes (tree : Tree) (id : NodeId) (after : Tree) : Prop where
  /-- It is noted at the types that it uses. -/
  names : after.table =
    tree.table.addReferences ((typesUsed tree id).map fun name => (name, id))
  /-- It is noted at the properties that it uses. -/
  properties : ∀ definition, after.table? definition = (tree.table? definition).map
    (·.addReferences ((propertiesUsed tree definition id).map fun name => (name, id)))

/-- Adding no references leaves all tables. -/
theorem map_addReferences_nil (table? : Option SymbolTable) :
    table?.map (·.addReferences []) = table? := Option.map_id'

/-- Resolving names notes a list at the types that are named. -/
theorem table_foldl_resolveName (list : NodeId) (names : List (String × Category × Span)) :
    ∀ (tree : Tree) (progress : List (Option NodeId) × List Diagnostic),
      (names.foldl (resolveName list) (tree, progress)).1.table =
        tree.table.addReferences (((names.map fun (name, category, _) =>
          category.external name).filter fun name => (typeNamed tree name).toOption.isSome).map
            fun name => (name, list)) := by
  -- Each name is resolved against the table that the earlier ones have left.
  induction names with
  | nil => exact fun _ _ => rfl
  | cons name rest ih =>
    intro tree progress
    obtain ⟨slots, reports⟩ := progress
    rw [List.foldl_cons, List.map_cons, List.filter_cons]
    cases found : typeNamed tree (name.2.1.external name.1) with
    | error problem =>
      simp only [resolveName, found, ih]
      rfl
    | ok definition =>
      -- The reference that is noted makes no difference to the names that follow.
      have noted := SymbolTable.SameNames.addReference tree.table (name.2.1.external name.1) list
      have scopes := Tree.SameScopes.table tree noted
      simp only [resolveName, found, ih, typeNamed_congr scopes]
      rfl

/-- Resolving a type list notes it at the types that it uses. -/
theorem notes_types {tree : Tree} {id : NodeId} {node : Node} {old : List (Option NodeId)}
    (found : tree.get? id = some node) (list : node.kind = .types old) :
    Notes tree id (resolveTypes tree id).1 := by
  have used : typesUsed tree id = ((tree.identifiers id).map fun (name, category, _) =>
      category.external name).filter fun name => (typeNamed tree name).toOption.isSome := by
    simp [typesUsed, found, list, NodeKind.bare]
  have none : ∀ definition, propertiesUsed tree definition id = [] := by
    simp [propertiesUsed, found, list, NodeKind.bare]
  have types := table_foldl_resolveName id (tree.identifiers id) tree ([], [])
  obtain ⟨table, -, done⟩ := foldl_resolveName id (tree.identifiers id) tree [] []
  rw [done] at types
  unfold resolveTypes
  simp only [done]
  -- Only the table of top-level names changes, and linking the list leaves all tables.
  refine ⟨types.trans (by rw [used]), fun definition => ?_⟩
  rw [none definition]
  exact (Tree.table?_modifyKind _ id (fun kind => (keeps_list _ kind).2) definition).trans
    (map_addReferences_nil _).symm

/-- Resolving a reference notes it at the property that it uses. -/
theorem notes_reference {tree : Tree} {id : NodeId} {node : Node} {target property : String}
    {category : Category} {old : Option NodeId} (found : tree.get? id = some node)
    (given : node.kind = .reference target category property old) (span : Span) :
    Notes tree id
      (resolveReference tree id span (category.external target) category property).1 := by
  -- Only a reference that finds its property is noted, with its target.
  have none : typesUsed tree id = [] := by simp [typesUsed, found, given, NodeKind.bare]
  have used : ∀ definition, propertiesUsed tree definition id =
      if target? tree category (category.external target) = some definition ∧
        (property? tree definition property).isSome then [property] else [] := by
    intro definition
    simp [propertiesUsed, found, given, NodeKind.bare]
  unfold resolveReference
  cases known : target? tree category (category.external target) with
  -- Without a target nothing is noted.
  | none =>
    refine ⟨by rw [none]; rfl, fun definition => ?_⟩
    rw [used, known, if_neg (by simp)]
    exact (map_addReferences_nil _).symm
  -- With a target, the property is noted if the target has it.
  | some aim =>
    simp only [property?_eq]
    cases named : property? tree aim property with
    | none =>
      have missing : ∀ definition, propertiesUsed tree definition id = [] := by
        intro definition
        rw [used, known, if_neg]
        rintro ⟨same, answered⟩
        rw [← Option.some.inj same, named] at answered
        cases answered
      refine ⟨by rw [none]; rfl, fun definition => ?_⟩
      rw [missing definition]
      exact (Tree.table?_modifyKind _ id (fun kind => (keeps_link _ kind).2) definition).trans
        (map_addReferences_nil _).symm
    | some config =>
      refine ⟨by rw [none]; rfl, fun definition => ?_⟩
      refine (Tree.table?_modifyKind _ id (fun kind => (keeps_link _ kind).2) definition).trans ?_
      rw [used, known]
      -- The target is the only definition whose table changes.
      by_cases here : definition = aim
      · subst here
        rw [named, if_pos ⟨rfl, rfl⟩, Tree.table?_setTable, if_pos rfl]
        cases tree.table? definition <;> rfl
      · rw [if_neg fun both => here (Option.some.inj both.1).symm, Tree.table?_setTable_of_ne here]
        exact (map_addReferences_nil _).symm

/-- Resolving a node that refers to others adds a reference for each name that it uses. -/
theorem notes_resolveNode {tree : Tree} {id : NodeId} {node : Node} (found : tree.get? id = some node)
    (refers : tree.isOfType referrers id = true) : Notes tree id (resolveNode tree id node).1 := by
  -- Lists of types and references are all that refers to something.
  have type : node.type = .types ∨ node.type = .reference := by
    simpa [Tree.isOfType_of_get? found, referrers] using refers
  unfold resolveNode
  cases kind : node.kind <;> simp only [Node.type, kind, NodeKind.type, reduceCtorEq, or_self] at type
  · exact notes_types found kind
  · exact notes_reference found kind node.span

/-- Resolving nodes in order adds a reference for each name that each of them uses. -/
theorem foldl_resolving_tables {base : Tree} (ids : List NodeId)
    (refer : ∀ id ∈ ids, base.isOfType referrers id = true) :
    ∀ {s : Tree × List Diagnostic}, base.SameScopes s.1 →
      (ids.foldl resolving s).1.table = s.1.table.addReferences
          (ids.flatMap fun id => (typesUsed base id).map fun name => (name, id)) ∧
        ∀ definition, (ids.foldl resolving s).1.table? definition =
          (s.1.table? definition).map (·.addReferences
            (ids.flatMap fun id => (propertiesUsed base definition id).map fun name => (name, id))) := by
  -- The scopes stay those of the tree at the start, and so does what each node uses.
  induction ids with
  | nil => exact fun {s} _ => ⟨rfl, fun definition => (map_addReferences_nil _).symm⟩
  | cons first rest ih =>
    intro s same
    -- The first node keeps the scopes, so the rest uses the same names.
    obtain ⟨kept, -⟩ := resolving_spec (refer first (.head _)) same
    have notes : Notes s.1 first (resolving s first).1 := by
      have refers : s.1.isOfType referrers first = true :=
        (same.syntactic.isOfType _ _).trans (refer first (.head _))
      obtain ⟨node, found, -⟩ := Tree.exists_of_isOfType refers
      simp only [resolving, found]
      exact notes_resolveNode found refers
    obtain ⟨names, properties⟩ := ih (fun id member => refer id (.tail _ member)) kept
    refine ⟨?_, fun definition => ?_⟩
    · rw [List.foldl_cons, names, notes.names, typesUsed_congr same, List.flatMap_cons,
        SymbolTable.addReferences_append]
    · rw [List.foldl_cons, properties, notes.properties, propertiesUsed_congr same,
        List.flatMap_cons, Option.map_map]
      simp only [Function.comp_def, SymbolTable.addReferences_append]

end Resolution

/-- Leaving out those elements of a list that give nothing changes nothing of what the list gives. -/
theorem flatMap_filter {α β : Type} {test : α → Bool} {give : α → List β}
    (none : ∀ a, test a = false → give a = []) (list : List α) :
    (list.filter test).flatMap give = list.flatMap give := by
  -- By induction on the list: what is filtered out gives nothing.
  induction list with
  | nil => rfl
  | cons a rest ih =>
    rw [List.filter_cons, List.flatMap_cons]
    cases passes : test a with
    | true => rw [if_pos rfl, List.flatMap_cons, ih]
    | false => rw [if_neg Bool.false_ne_true, ih, none a passes, List.nil_append]

/-- Resolution of a file adds a reference for each name that a node below the root uses, in document
order. -/
theorem Tree.checkReferences_tables {tree : Tree} (forest : tree.Forest) {growth : Growth}
    (rooted : tree.root? = some growth.id) (grows : tree.Grows growth) :
    let after := tree.checkReferences.next
    after.table = tree.table.addReferences (growth.ids.flatMap fun id =>
        (Resolution.typesUsed tree id).map fun name => (name, id)) ∧
      ∀ definition, after.table? definition = (tree.table? definition).map
        (·.addReferences (growth.ids.flatMap fun id =>
          (Resolution.propertiesUsed tree definition id).map fun name => (name, id))) := by
  intro after
  have visited := Resolution.foldl_resolving_tables
    (growth.ids.filter (tree.isOfType Resolution.referrers))
    (fun id member => (List.mem_filter.mp member).2)
    (show tree.SameScopes (tree, ([] : List Diagnostic)).1 from .refl tree)
  have same : after = _ := congrArg Reading.next (Tree.checkReferences_eq forest rooted grows)
  rw [same]
  -- Nodes that are not visited use nothing.
  refine ⟨visited.1.trans ?_, fun definition => (visited.2 definition).trans ?_⟩
  · rw [flatMap_filter fun id other => by rw [Resolution.typesUsed_eq_nil other, List.map_nil]]
  · rw [flatMap_filter fun id other => by
      rw [Resolution.propertiesUsed_eq_nil other, List.map_nil]]

end ArgSchema
