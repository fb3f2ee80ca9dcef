import ArgSchema.Proofs.SymbolTable.Entries
import ArgSchema.Proofs.Tree.Definitions
import ArgSchema.Proofs.Tree.Tables
import ArgSchema.Proofs.Walk.Tops
import ArgSchema.Resolution.Registration

/-! The visits of registration: what is done at each definition, as a function of the tree. -/

namespace ArgSchema

namespace Registration

open Walk (Runs)

/-- The names that a node would be known by as a definition. -/
def names (tree : Tree) (id : NodeId) : List Naming :=
  ((tree.get? id).map (aliases tree id)).getD []

/-- The names of a definition's properties. -/
def keywords (tree : Tree) (id : NodeId) : List Naming :=
  (tree.properties id).flatMap fun config => (keyword? tree config).toList

section Syntax

variable {tree other : Tree} (same : tree.SameSyntax other)

include same

/-- Trees of the same syntax know definitions by the same names. -/
theorem names_of_sameSyntax (id : NodeId) : names other id = names tree id := by
  have equal := same.nodes id
  unfold names
  -- A handle is live in both trees or in neither.
  cases upper : tree.get? id <;> cases lower : other.get? id <;>
    simp only [upper, lower, Option.map_some, Option.map_none, reduceCtorEq,
      Option.some.injEq] at equal
  · rfl
  · next node node' =>
    have types : node'.type = node.type :=
      congrArg Prod.fst (Node.links_eq_of_bare equal.symm)
    have spans : node'.span = node.span := (congrArg Node.span equal : node.bare.span = _).symm
    simp only [Option.map_some, Option.getD_some, aliases, types, spans, same.identifiers]

/-- Trees of the same syntax know properties by the same names. -/
theorem keyword?_of_sameSyntax (id : NodeId) : keyword? other id = keyword? tree id := by
  rw [keyword?, keyword?, same.identifiers]

/-- Trees of the same syntax know a definition's properties by the same names. -/
theorem keywords_of_sameSyntax (id : NodeId) : keywords other id = keywords tree id := by
  rw [keywords, keywords, same.properties]
  exact List.flatMap_congr fun config _ => by rw [keyword?_of_sameSyntax same]

end Syntax

/-- What entering names into the root table leaves. -/
def enteringNames (namings : List Naming) (s : Tree × Registration) : Tree × Registration :=
  let added := s.1.table.addAll namings
  ({ s.1 with table := added.1 }, { s.2 with reports := s.2.reports ++ added.2 })

/-- What entering a property into the table of a definition leaves. -/
def enteringProperty (id : NodeId) (s : Tree × Registration) : Tree × Registration :=
  match s.2.definition? with
  | none => s
  | some definition =>
    match s.1.table? definition with
    | none => s
    | some table =>
      let added := table.addAll (keyword? s.1 id).toList
      (s.1.setTable definition added.1, { s.2 with reports := s.2.reports ++ added.2 })

/-- What registering a node leaves, given what is done below it. -/
def registering (base : Tree) (id : NodeId) (below : Tree × Registration → Tree × Registration)
    (s : Tree × Registration) : Tree × Registration :=
  if base.isOfType (NodeTypes.only .config) id then enteringProperty id s
  else
    let named := enteringNames (names s.1 id) s
    let walked := below (named.1, { named.2 with definition? := some id })
    (walked.1, { walked.2 with definition? := s.2.definition? })

/-- Entering names does what it leaves. -/
theorem runs_enterNames (namings : List Naming) (s : Tree × Registration) :
    Runs (enterNames namings) s () (enteringNames namings s) := rfl

/-- Entering a property does what it leaves. -/
theorem runs_enterProperty (id : NodeId) (s : Tree × Registration) :
    Runs (enterProperty id) s () (enteringProperty id s) := by
  obtain ⟨tree, reports, definition?⟩ := s
  unfold enterProperty enteringProperty
  refine (Walk.runs_tree _).bind ((Walk.runs_own _).bind ?_)
  -- Without a definition, or without its table, nothing is entered.
  cases definition? with
  | none => exact Walk.runs_pure () _
  | some definition =>
    cases owned : tree.table? definition with
    | none => simpa only [owned] using Walk.runs_pure () _
    | some table =>
      simp only [owned]
      exact (Walk.runs_setTree _ _).bind (Walk.runs_setOwn _ _)

/-- Entering a property keeps the syntax. -/
theorem sameSyntax_enteringProperty (id : NodeId) (s : Tree × Registration) :
    s.1.SameSyntax (enteringProperty id s).1 := by
  -- At most the definition's table is set.
  unfold enteringProperty
  split
  · exact .refl _
  · split
    · exact .refl _
    · exact .setTable _ _ _

/-- Registering keeps the syntax and leaves every node in its place. -/
theorem steady_register (base : Tree) :
    Walk.Steady base landmarks register (registering base) := by
  -- A property enters its name, and a definition its names before its body is walked.
  intro id descend below stop deeper s same
  obtain ⟨node, found⟩ : ∃ node, s.1.get? id = some node := by
    rw [← same.isOfType, Tree.isOfType] at stop
    cases found : s.1.get? id with
    | none => simp [found] at stop
    | some node => exact ⟨node, rfl⟩
  -- Whether it is a property is the same in all trees of the walk.
  have config : base.isOfType (NodeTypes.only .config) id = decide (node.type = .config) := by
    rw [← same.isOfType, Tree.isOfType_of_get? found]
    simp
  unfold registering
  simp only [config, decide_eq_true_eq]
  by_cases property : node.type = .config
  · simp only [property, if_true]
    refine ⟨?_, same.trans (sameSyntax_enteringProperty id s)⟩
    refine (Walk.runs_node found).bind ?_
    simp only [property, if_true]
    exact (runs_enterProperty id s).bind (Walk.runs_pure id _)
  · simp only [property, if_false]
    -- A definition's names are entered before what is below it is walked.
    have entered : Runs (enterNames (aliases s.1 id node)) s ()
        (enteringNames (names s.1 id) s) := by
      simpa [names, found] using runs_enterNames (aliases s.1 id node) s
    have kept : base.SameSyntax (enteringNames (names s.1 id) s).1 := same.trans (.table _ _)
    obtain ⟨ran, walked⟩ := deeper (_, { (enteringNames (names s.1 id) s).2 with
      definition? := some id }) kept
    refine ⟨?_, walked⟩
    refine (Walk.runs_node found).bind ?_
    simp only [property, if_false]
    -- The names are entered, the body is walked, and the outer definition comes back.
    refine (Walk.runs_tree s).bind (entered.bind ?_)
    refine (Walk.runs_own _).bind ((Walk.runs_own _).bind ((Walk.runs_setOwn _ _).bind ?_))
    exact ran.bind ((Walk.runs_own _).bind ((Walk.runs_setOwn _ _).bind (Walk.runs_pure id _)))

/-- What clearing the table of a node leaves. -/
def clearing (id : NodeId) (_ : Tree × Unit → Tree × Unit) (s : Tree × Unit) : Tree × Unit :=
  (s.1.setTable id SymbolTable.empty, s.2)

/-- Clearing keeps the syntax and leaves every node in its place. -/
theorem steady_clearTable (base : Tree) :
    Walk.Steady base NodeTypes.definitions clearTable clearing := by
  intro id descend below _ _ s same
  exact ⟨rfl, same.trans (.setTable _ _ _)⟩

end Registration

end ArgSchema
