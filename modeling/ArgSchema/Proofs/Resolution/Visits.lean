import ArgSchema.Proofs.Resolution.Lookups
import ArgSchema.Proofs.Tree.Definitions
import ArgSchema.Proofs.Walk.Tops

/-! The visits of resolution: each node is linked to what the tables say it refers to, or reported. -/

namespace ArgSchema

namespace Resolution

open Walk (Runs)

/-- Resolving names in order links each to its type or reports it, and only adds references. -/
theorem foldl_resolveName (list : NodeId) (names : List (String × Category × Span)) :
    ∀ (tree : Tree) (slots : List (Option NodeId)) (reports : List Diagnostic),
      ∃ table, tree.table.SameNames table ∧
        names.foldl (resolveName list) (tree, slots, reports) =
          ({ tree with table := table }, slots ++ names.map (namedType? tree),
            reports ++ names.flatMap (nameReports tree)) := by
  induction names with
  | nil => exact fun tree slots reports => ⟨tree.table, .refl _, by simp⟩
  | cons name rest ih =>
    intro tree slots reports
    cases found : typeNamed tree (name.2.1.external name.1) with
    -- The name is left without a link and reported, and the table stays.
    | error problem =>
      obtain ⟨table, same, done⟩ := ih tree (slots ++ [none])
        (reports ++ [.located (.name problem) name.2.2])
      refine ⟨table, same, ?_⟩
      simp only [List.foldl_cons, resolveName, found, done, List.map_cons, List.flatMap_cons,
        namedType?, nameReports, Except.toOption, List.append_assoc, List.cons_append,
        List.nil_append]
    | ok definition =>
      -- The reference that is noted makes no difference to the names that follow.
      have noted := SymbolTable.SameNames.addReference tree.table (name.2.1.external name.1) list
      have scopes := Tree.SameScopes.table tree noted
      obtain ⟨table, same, done⟩ := ih { tree with
        table := tree.table.addReference (name.2.1.external name.1) list }
        (slots ++ [some definition]) reports
      refine ⟨table, noted.trans same, ?_⟩
      have types : namedType? { tree with
          table := tree.table.addReference (name.2.1.external name.1) list } = namedType? tree :=
        funext fun other => congrArg Except.toOption (typeNamed_congr scopes _)
      have problems : nameReports { tree with
          table := tree.table.addReference (name.2.1.external name.1) list } = nameReports tree :=
        funext fun other => by rw [nameReports, typeNamed_congr scopes, nameReports]
      simp only [List.foldl_cons, resolveName, found, done, types, problems, List.map_cons,
        List.flatMap_cons, namedType?, nameReports, Except.toOption, List.append_assoc,
        List.cons_append, List.nil_append]

/-- What resolving a node does to a tree, and what it reports. -/
structure Resolves (tree : Tree) (id : NodeId) (done : Tree × List Diagnostic) : Prop where
  /-- The scopes stay. -/
  scopes : tree.SameScopes done.1
  /-- What other nodes were resolved to stays. -/
  others : ∀ other, other ≠ id → done.1.slots other = tree.slots other
  /-- Every report is an error. -/
  errors : ∀ report ∈ done.2, report.severity = .error
  /-- The node is linked to what it refers to; a reference without a target keeps its link. -/
  slots : done.1.slots id = if targeted tree id then answers tree id else tree.slots id
  /-- Without reports nothing is missing. -/
  complete : done.2 = [] → none ∉ answers tree id
  /-- There are no reports if nothing is missing. -/
  silent : none ∉ answers tree id → done.2 = []

/-- Without reports a node is linked to what it refers to, and nothing is missing. -/
theorem Resolves.linked {tree : Tree} {id : NodeId} {done : Tree × List Diagnostic}
    (resolves : Resolves tree id done) (silent : done.2 = []) :
    done.1.slots id = answers tree id ∧ none ∉ answers tree id := by
  -- Nothing is missing, so the node is targeted and its slots are set.
  have complete := resolves.complete silent
  refine ⟨?_, complete⟩
  rw [resolves.slots, if_pos (targeted_of_complete complete)]

/-- Changing the contents of a live node changes what it was resolved to. -/
theorem slots_modifyKind {tree : Tree} {id : NodeId} {node : Node} (found : tree.get? id = some node)
    (f : NodeKind → NodeKind) : (tree.modifyKind id f).slots id = (f node.kind).slots := by
  unfold Tree.slots Tree.modifyKind
  simp [Tree.get?_modify, found]

/-- Changing the contents of a node leaves what others were resolved to. -/
theorem slots_modifyKind_of_ne {tree : Tree} {id other : NodeId} (apart : other ≠ id)
    (f : NodeKind → NodeKind) : (tree.modifyKind id f).slots other = tree.slots other := by
  unfold Tree.slots Tree.modifyKind
  rw [Tree.get?_modify, if_neg apart]

/-- Replacing the table of a definition leaves what nodes were resolved to. -/
theorem slots_setTable (tree : Tree) (id : NodeId) (table : SymbolTable) (other : NodeId) :
    (tree.setTable id table).slots other = tree.slots other := by
  -- A table is no part of what a node is linked to.
  unfold Tree.slots Tree.setTable Tree.modifyKind
  rw [Tree.get?_modify]
  split
  · cases tree.get? other <;> simp
  · rfl

/-- Linking a type list changes neither what it is nor its table. -/
theorem keeps_list (slots : List (Option NodeId)) (kind : NodeKind) :
    let linked : NodeKind := match kind with
      | .types _ => .types slots
      | other => other
    linked.bare = kind.bare ∧ linked.table? = kind.table? := by
  cases kind <;> exact ⟨rfl, rfl⟩

/-- Resolving a type list links each of its names, or reports it. -/
theorem resolves_types {tree : Tree} {id : NodeId} {node : Node} {old : List (Option NodeId)}
    (found : tree.get? id = some node) (list : node.kind = .types old) :
    Resolves tree id (resolveTypes tree id) := by
  -- The names are resolved one after the other, and the list is filled in the end.
  obtain ⟨table, same, done⟩ := foldl_resolveName id (tree.identifiers id) tree [] []
  have named := Tree.SameScopes.table tree same
  have reading : answers tree id = (tree.identifiers id).map (namedType? tree) := by
    simp [answers, found, list, NodeKind.bare]
  have live : ({ tree with table := table } : Tree).get? id = some node := found
  unfold resolveTypes
  simp only [done, List.nil_append]
  -- A list of types needs no target.
  have aimed : targeted tree id = true := by simp [targeted, found, list, NodeKind.bare]
  refine ⟨named.trans ?_, fun other apart => ?_, fun report member => ?_, ?_, fun silent => ?_,
    fun complete => ?_⟩
  · exact Tree.SameScopes.modifyKind _ _ (keeps_list _)
  · exact slots_modifyKind_of_ne apart _
  · obtain ⟨name, _, member⟩ := List.mem_flatMap.mp member
    unfold nameReports at member
    split at member
    · rw [List.mem_singleton.mp member]
      rfl
    · cases member
  · rw [slots_modifyKind live, list, if_pos aimed, reading]
    rfl
  · rw [reading]
    intro missing
    -- A name without type would have been reported.
    obtain ⟨name, member, failed⟩ := List.mem_map.mp missing
    have none := List.flatMap_eq_nil_iff.mp silent name member
    unfold nameReports at none
    unfold namedType? at failed
    split at none
    · cases none
    · next definition found =>
      rw [found] at failed
      cases failed
  · rw [reading] at complete
    refine List.flatMap_eq_nil_iff.mpr fun name member => ?_
    unfold nameReports
    split
    · next problem failed =>
      refine absurd (List.mem_map.mpr ⟨name, member, ?_⟩) complete
      rw [namedType?, failed]
      rfl
    · rfl

/-- Linking a reference changes neither what it is nor its table. -/
theorem keeps_link (config? : Option NodeId) (kind : NodeKind) :
    let linked : NodeKind := match kind with
      | .reference target category property _ => .reference target category property config?
      | other => other
    linked.bare = kind.bare ∧ linked.table? = kind.table? := by
  cases kind <;> exact ⟨rfl, rfl⟩

/-- The tree in which a reference is linked to a property, or to none. -/
def link (base : Tree) (id : NodeId) (config? : Option NodeId) : Tree :=
  base.modifyKind id fun
    | .reference target category property _ => .reference target category property config?
    | other => other

section Reference

variable {tree : Tree} {id : NodeId} {node : Node} {target property : String} {category : Category}
  {old : Option NodeId} (found : tree.get? id = some node)
  (given : node.kind = .reference target category property old)

include found given

/-- What a reference refers to is the property of its target. -/
theorem answers_eq_target : answers tree id =
    [(target? tree category (category.external target)).bind (property? tree · property)] := by
  simp [answers, found, given, NodeKind.bare]

/-- A reference has a target if a name for it is known. -/
theorem targeted_reference :
    targeted tree id = (target? tree category (category.external target)).isSome := by
  simp [targeted, found, given, NodeKind.bare]

/-- Linking a reference to what the tables of its target hold links it to what it refers to. -/
theorem slots_link {base : Tree} {definition : NodeId} {config? : Option NodeId}
    (known : target? tree category (category.external target) = some definition)
    (same : tree.SameSyntax base) (answer : property? tree definition property = config?) :
    (link base id config?).slots id =
      if targeted tree id then answers tree id else tree.slots id := by
  have aimed : targeted tree id = true := by
    rw [targeted_reference found given, known, Option.isSome_some]
  -- The node is still the reference that it was, whatever it is linked to.
  obtain ⟨node', live, bare⟩ := same.get? found
  have kind : node'.kind.bare = .reference target category property none := by
    have kinds := congrArg Node.kind bare
    simpa only [Node.bare, given, NodeKind.bare] using kinds
  rw [link, slots_modifyKind live, if_pos aimed, answers_eq_target found given, known,
    Option.bind_some, answer]
  obtain ⟨kind', span, parent, children⟩ := node'
  cases kind' <;> simp only [NodeKind.bare, reduceCtorEq] at kind
  rfl

/-- A reference whose target has no such property is linked to none, and reported. -/
theorem resolves_missing {definition : NodeId}
    (known : target? tree category (category.external target) = some definition)
    (missing : property? tree definition property = none) (problem : NameProblem) (span : Span) :
    Resolves tree id (link tree id none, [.located (.name problem) span]) := by
  -- The link is cleared, and the missing property is what is reported.
  have reading := answers_eq_target found given
  rw [known, Option.bind_some, missing] at reading
  refine ⟨.modifyKind _ _ (keeps_link none), fun other apart => slots_modifyKind_of_ne apart _,
    fun report member => ?_, slots_link found given known (.refl tree) missing, by simp,
    by simp [reading]⟩
  rw [List.mem_singleton.mp member]
  rfl

/-- A reference whose target has the property is noted there, and linked to it. -/
theorem resolves_known {definition config : NodeId} {table : SymbolTable}
    (known : target? tree category (category.external target) = some definition)
    (owned : tree.table? definition = some table)
    (named : property? tree definition property = some config) :
    Resolves tree id
      (link (tree.setTable definition (table.addReference property id)) id (some config), []) := by
  have reading := answers_eq_target found given
  rw [known, Option.bind_some, named] at reading
  -- The note changes no name, so the answers stay.
  have noted := Tree.SameScopes.setTable owned
    (SymbolTable.SameNames.addReference table property id)
  refine ⟨noted.trans (.modifyKind _ _ (keeps_link (some config))), fun other apart => ?_,
    by simp, slots_link found given known noted.syntactic named, fun _ => by simp [reading],
    fun _ => rfl⟩
  rw [link, slots_modifyKind_of_ne apart, slots_setTable]

/-- Resolving a reference links it to a property, or reports it. -/
theorem resolves_reference :
    Resolves tree id (resolveReference tree id node.span (category.external target) category
      property) := by
  unfold resolveReference
  cases known : target? tree category (category.external target) with
  -- Without a target the reference is reported and keeps its link.
  | none =>
    have reading := answers_eq_target found given
    have aimed := targeted_reference found given
    rw [known, Option.bind_none] at reading
    rw [known, Option.isSome_none] at aimed
    refine ⟨.refl _, fun _ _ => rfl, fun report member => ?_, by simp [aimed], by simp,
      by simp [reading]⟩
    rw [List.mem_singleton.mp member]
    rfl
  | some definition =>
    -- The target need not own a table, and then it has no properties.
    cases owned : tree.table? definition with
    | none =>
      have missing : property? tree definition property = none := by
        rw [property?, owned]
        rfl
      simp only [owned, Option.getD_none, SymbolTable.get?, SymbolTable.empty, List.find?_nil,
        Option.map_none]
      exact resolves_missing found given known missing _ _
    | some table =>
      have answer : property? tree definition property = (table.get? property).map (·.node) := by
        rw [property?, owned, Option.bind_some]
      simp only [owned, Option.getD_some, ← answer]
      cases named : property? tree definition property with
      | none => exact resolves_missing found given known named _ _
      | some config => exact resolves_known found given known owned named

end Reference

/-- The tree and the reports after a node was resolved. -/
def resolving (s : Tree × List Diagnostic) (id : NodeId) : Tree × List Diagnostic :=
  match s.1.get? id with
  | none => s
  | some node => ((resolveNode s.1 id node).1, s.2 ++ (resolveNode s.1 id node).2)

/-- Resolving a node links it to what it refers to, or reports it. -/
theorem resolves_node {tree : Tree} {id : NodeId} {node : Node} (found : tree.get? id = some node)
    (refers : tree.isOfType referrers id = true) : Resolves tree id (resolveNode tree id node) := by
  -- Lists of types and references are all that refers to something.
  have type : node.type = .types ∨ node.type = .reference := by
    simpa [Tree.isOfType_of_get? found, referrers] using refers
  unfold resolveNode
  cases kind : node.kind <;> simp only [Node.type, kind, NodeKind.type, reduceCtorEq, or_self] at type
  · exact resolves_types found kind
  · exact resolves_reference found kind

/-- A word has no property in an empty table, and it has one in a table as it has in the definition. -/
theorem property?_eq (tree : Tree) (definition : NodeId) (property : String) :
    (((tree.table? definition).getD .empty).get? property).map (·.node) =
      property? tree definition property := by
  unfold property?
  cases tree.table? definition <;> rfl

/-- What resolving a reference reports: that its target is not there, or that its property is not. -/
theorem reports_resolveReference (tree : Tree) (id : NodeId) (span : Span) (target : String)
    (category : Category) (property : String) :
    (resolveReference tree id span target category property).2 =
      match target? tree category target with
      | none => [.located (.name (unknownTarget category target)) span]
      | some definition => match property? tree definition property with
        | none => [.located (.name (.unknownProperty target property)) span]
        | some _ => [] := by
  -- The target is looked up first, and the property only if there is a target.
  unfold resolveReference
  cases target? tree category target with
  | none => rfl
  | some definition =>
    simp only [property?_eq]
    cases property? tree definition property <;> rfl

/-- What resolving a type list reports: each of its names that is that of no type. -/
theorem reports_resolveTypes (tree : Tree) (id : NodeId) :
    (resolveTypes tree id).2 = (tree.identifiers id).flatMap (nameReports tree) := by
  obtain ⟨table, -, done⟩ := foldl_resolveName id (tree.identifiers id) tree [] []
  simp [resolveTypes, done]

/-- What resolving a node reports. -/
def reported (tree : Tree) (id : NodeId) : List Diagnostic :=
  ((tree.get? id).map fun node => (resolveNode tree id node).2).getD []

/-- What resolving a node reports depends on the scopes only. -/
theorem reported_congr {a b : Tree} (same : a.SameScopes b) (id : NodeId) :
    reported b id = reported a id := by
  have nodes := same.syntactic.nodes id
  have names : nameReports b = nameReports a :=
    funext fun name => by rw [nameReports, typeNamed_congr same, nameReports]
  have properties : property? b = property? a :=
    funext fun definition => funext fun property => same.properties definition property
  unfold reported
  cases upper : a.get? id <;> cases lower : b.get? id <;>
    simp only [upper, lower, Option.map_some, Option.map_none, reduceCtorEq,
      Option.some.injEq] at nodes
  · rfl
  · next node node' =>
    -- Both nodes hold the same but for their tables and what they were resolved to.
    have kinds : node.kind.bare = node'.kind.bare := (congrArg Node.kind nodes : node.bare.kind = _)
    have spans : node.span = node'.span := (congrArg Node.span nodes : node.bare.span = _)
    simp only [Option.map_some, Option.getD_some, resolveNode]
    cases kind : node.kind <;> cases kind' : node'.kind <;>
      simp only [kind, kind', NodeKind.bare, reduceCtorEq, NodeKind.reference.injEq] at kinds
    case types => rw [reports_resolveTypes, reports_resolveTypes, same.syntactic.identifiers, names]
    case reference =>
      obtain ⟨rfl, rfl, rfl, -⟩ := kinds
      simp only [reports_resolveReference, target?_congr same, properties, spans]
    all_goals rfl

/-- Nothing is reported for a node that refers to something exactly if nothing is missing. -/
theorem reported_eq_nil_iff {tree : Tree} {id : NodeId}
    (refers : tree.isOfType referrers id = true) :
    reported tree id = [] ↔ none ∉ answers tree id := by
  -- A node is silent exactly if each of its lookups has an answer.
  obtain ⟨node, found, -⟩ := Tree.exists_of_isOfType refers
  have resolves := resolves_node found refers
  rw [reported, found]
  exact ⟨fun silent => (resolves.linked silent).2, resolves.silent⟩

/-- Everything that is reported for a node that refers to something is an error. -/
theorem severity_reported {tree : Tree} {id : NodeId} (refers : tree.isOfType referrers id = true) :
    ∀ report ∈ reported tree id, report.severity = .error := by
  -- Both kinds of nodes report errors only.
  unfold reported
  cases found : tree.get? id with
  | none => simp
  | some node => exact (resolves_node found refers).errors

end Resolution

end ArgSchema
