import ArgSchema.Proofs.Grammar.Syntax
import ArgSchema.Proofs.Tree.Definitions
import Mathlib.Data.List.Forall2

/-! Described trees: the nodes of a file stand for its definitions, properties, names and values. -/

namespace ArgSchema

namespace Outline

/-- The name that an outline stands for. -/
def label? : Outline → Option Label
  | .node (.identifier name category) _ => some ⟨name, category⟩
  | _ => none

/-- An outline that has a property, and so do all outlines within it. -/
inductive Every (P : Outline → Prop) : Outline → Prop
  /-- The outline itself and those below it. -/
  | node {outline : Outline} : P outline → (∀ below ∈ outline.children, Every P below) →
      Every P outline

end Outline

namespace Tree

variable {tree : Tree}

/-- Lists are drawn one by one. -/
theorem drawsAll_iff {ids : List NodeId} {outlines : List Outline} :
    tree.DrawsAll ids outlines ↔ List.Forall₂ tree.Draws ids outlines := by
  induction ids generalizing outlines with
  | nil => cases outlines <;> simp [DrawsAll]
  | cons id ids ih => cases outlines <;> simp [DrawsAll, ih]

namespace Draws

variable {id : NodeId} {outline : Outline} (drawn : tree.Draws id outline)

include drawn

/-- What is drawn is live, with the contents of the outline. -/
theorem live : ∃ node, tree.get? id = some node ∧ node.kind = outline.kind := by
  -- A drawn node is live, and of its outline's kind.
  cases outline with
  | node kind below =>
    obtain ⟨node, found, same, _⟩ := drawn.get?
    exact ⟨node, found, same⟩

/-- The children of a drawn node are drawn. -/
theorem children : List.Forall₂ tree.Draws (tree.children id) outline.children := by
  -- What is drawn below an outline are the outlines below it, one by one.
  cases outline with
  | node kind below =>
    obtain ⟨node, found, _, all⟩ := drawn.get?
    rw [children_of_get? found]
    exact drawsAll_iff.mp all

/-- A drawn node has the type of the outline. -/
theorem isOfType (types : NodeTypes) : tree.isOfType types id = decide (outline.type ∈ types) := by
  obtain ⟨node, found, same⟩ := drawn.live
  rw [isOfType_of_get? found, Node.type, same]
  rfl

/-- The children of some types are drawn as the outlines of these types. -/
theorem childrenOfType (types : NodeTypes) : List.Forall₂ tree.Draws (tree.childrenOfType id types)
    (outline.children.filter (·.type ∈ types)) :=
  List.rel_filter (fun child below given => by
    show tree.isOfType types child = true ↔ decide (below.type ∈ types) = true
    rw [isOfType given types]) drawn.children

/-- The names below a drawn node are those of the outline. -/
theorem identifiers : (tree.identifiers id).map (fun given => (⟨given.1, given.2.1⟩ : Label)) =
    outline.children.filterMap Outline.label? := by
  -- Child by child, the node is a name exactly if the outline is one.
  have named : List.Forall₂ (· = ·)
      ((tree.children id).filterMap fun child => ((tree.get? child).bind Node.named?).map
        fun given => (⟨given.1, given.2.1⟩ : Label))
      (outline.children.filterMap Outline.label?) := by
    refine List.rel_filterMap (fun child below given => ?_) drawn.children
    obtain ⟨node, found, same⟩ := live given
    obtain ⟨kind, rest⟩ := below
    simp only [found, Option.bind_some, Node.named?, same, Outline.kind, Outline.label?]
    cases kind <;> constructor
    rfl
  rw [identifiers_eq_named?, List.map_filterMap]
  exact List.forall₂_eq_eq_eq ▸ named

end Draws

/-- Where something is drawn and reached, a property of all outlines holds. -/
theorem Under.every {P : Outline → Prop} {top id : NodeId} {outline : Outline}
    (drawn : tree.Draws top outline) (every : outline.Every P) (reached : tree.Under top id) :
    ∃ inner, tree.Draws id inner ∧ inner.Every P := by
  induction reached with
  | top => exact ⟨outline, drawn, every⟩
  -- The handle of the child and its outline stand at the same place.
  | @child id below node _ found listed ih =>
    obtain ⟨inner, given, all⟩ := ih
    have children := given.children
    rw [children_of_get? found] at children
    obtain ⟨place, short, rfl⟩ := List.getElem_of_mem listed
    have long : place < inner.children.length := children.length_eq ▸ short
    cases all with
    | node _ below =>
      exact ⟨inner.children[place], children.get short long, below _ (List.getElem_mem long)⟩

end Tree

/-- The definition that an item is. -/
def Item.definition? : Item → Option Definition
  | .suppress _ => none
  | .definition given => some given

/-- The definitions among items. -/
def definitionsOf (items : List Item) : List Definition := items.filterMap Item.definition?

/-- A definition of a file is one of its items. -/
theorem mem_definitionsOf {items : List Item} {given : Definition} :
    given ∈ definitionsOf items ↔ .definition given ∈ items := by
  constructor
  · intro member
    obtain ⟨item, inside, same⟩ := List.mem_filterMap.mp member
    cases item with
    | suppress => cases same
    -- Only a definition is taken, and it is taken as it is.
    | definition other =>
      cases same
      exact inside
  · exact fun inside => List.mem_filterMap.mpr ⟨_, inside, rfl⟩

/-- The form of a definition is the type of its node. -/
theorem Form.type_mem (form : Form) : form.kind.type ∈ NodeTypes.definitions := by
  cases form <;> simp [Form.kind, NodeKind.type, NodeTypes.definitions]

/-- The outlines of a file that define something are those of its definitions. -/
theorem filter_definitions (items : List Item) :
    (items.map Item.outline).filter (·.type ∈ NodeTypes.definitions) =
      (definitionsOf items).map Definition.outline := by
  induction items with
  | nil => rfl
  | cons item rest ih =>
    cases item with
    -- A suppression is among the items, but defines nothing.
    | suppress kind =>
      have other : ¬(Item.suppress kind).outline.type ∈ NodeTypes.definitions := by
        simp [Item.outline, Outline.leaf, Outline.type, Outline.kind, NodeKind.type,
          NodeTypes.definitions]
      rw [List.map_cons, List.filter_cons_of_neg (by simpa using other), ih]
      rfl
    | definition given =>
      have own : (Item.definition given).outline.type ∈ NodeTypes.definitions :=
        given.heading.form.type_mem
      rw [List.map_cons, List.filter_cons_of_pos (by simpa using own), ih]
      rfl

/-- The names of a heading are the names among its outlines. -/
theorem Heading.filterMap_label? (heading : Heading) :
    heading.outlines.filterMap Outline.label? = heading.names := by
  have named : ∀ names : List Label, (names.map Label.outline).filterMap Outline.label? = names := by
    intro names
    induction names with
    | nil => rfl
    | cons label rest ih => simpa [Label.outline, Outline.leaf, Outline.label?] using ih
  -- A type list has names below it, but is none itself.
  cases types : heading.types? <;>
    simp [Heading.outlines, named, types, typesOutline, Outline.label?]

/-- The types in a list are the names among its outlines. -/
theorem filterMap_label?_types (names : List String) :
    (typesOutline names).children.filterMap Outline.label? = names.map fun name => ⟨name, .type⟩ := by
  -- Each child of the list is a label.
  induction names with
  | nil => rfl
  | cons name rest ih =>
    simpa [typesOutline, Outline.children, Label.outline, Outline.leaf, Outline.label?] using ih

namespace Definition

/-- What grows two steps below a definition as a property is its body. -/
theorem filter_configs (given : Definition) :
    (given.outline.children.flatMap fun part => part.children.filter
        (·.type ∈ NodeTypes.only .config)) = given.body.map Statement.outline := by
  -- Neither labels nor types have properties below them.
  have labels : ∀ names : List Label, (names.map Label.outline).flatMap (fun part =>
      part.children.filter (·.type ∈ NodeTypes.only .config)) = [] := by
    intro names
    refine List.flatMap_eq_nil_iff.mpr fun outline member => ?_
    obtain ⟨label, _, rfl⟩ := List.mem_map.mp member
    rfl
  have types : ∀ names : List String,
      (typesOutline names).children.filter (·.type ∈ NodeTypes.only .config) = [] := by
    intro names
    refine List.filter_eq_nil_iff.mpr fun outline member => ?_
    obtain ⟨name, _, rfl⟩ := List.mem_map.mp member
    simp [Label.outline, Outline.leaf, Outline.type, Outline.kind, NodeKind.type]
  have configs : (configsOutline given.body).children.filter (·.type ∈ NodeTypes.only .config) =
      given.body.map Statement.outline := by
    refine List.filter_eq_self.mpr fun outline member => ?_
    obtain ⟨statement, _, rfl⟩ := List.mem_map.mp member
    simp [Statement.outline, Outline.type, Outline.kind, NodeKind.type]
  unfold Definition.outline Heading.outlines
  rw [Outline.children_node, List.flatMap_append, List.flatMap_append, labels, List.nil_append,
    List.flatMap_singleton, configs]
  -- The types stand between the labels and the properties, if there are any.
  cases given.heading.types? with
  | none => rfl
  | some names =>
    rw [Option.toList_some, List.map_singleton, List.flatMap_singleton, types, List.nil_append]

/-- The names of a definition are the names among its outlines. -/
theorem filterMap_label? (given : Definition) :
    given.outline.children.filterMap Outline.label? = given.heading.names := by
  rw [Definition.outline, Outline.children_node, List.filterMap_append, Heading.filterMap_label?]
  simp [configsOutline, Outline.label?]

end Definition

/-- The keyword of a property is the first name among its outlines. -/
theorem Statement.filterMap_label? (statement : Statement) :
    statement.outline.children.filterMap Outline.label? = [statement.keyword] := by
  -- Suppressions have no names, and neither has the list of values.
  have marks : ∀ kinds : List WarningClass,
      (kinds.map fun kind => Outline.leaf (.suppress kind)).filterMap Outline.label? = [] := by
    intro kinds
    refine List.filterMap_eq_nil_iff.mpr fun outline member => ?_
    obtain ⟨kind, _, rfl⟩ := List.mem_map.mp member
    rfl
  rw [Statement.outline, Outline.children_node, List.filterMap_append, marks]
  simp [Label.outline, Outline.leaf, Outline.label?, valuesOutline]

namespace Tree

variable {tree : Tree}

/-- The definitions of a file are drawn in order. -/
theorem Draws.definitions {root : NodeId} {items : List Item}
    (drawn : tree.Draws root (fileOutline items)) :
    List.Forall₂ (fun id given => tree.Draws id (Definition.outline given)) (tree.definitions root)
      (definitionsOf items) := by
  have filtered := drawn.childrenOfType NodeTypes.definitions
  rw [fileOutline, Outline.children, filter_definitions, List.forall₂_map_right_iff] at filtered
  exact filtered

/-- The properties of a definition are drawn in order. -/
theorem Draws.properties {id : NodeId} {given : Definition}
    (drawn : tree.Draws id given.outline) :
    List.Forall₂ (fun config statement => tree.Draws config (Statement.outline statement))
      (tree.properties id) given.body := by
  -- Part by part, the properties are the children of that type.
  have all : List.Forall₂ tree.Draws (tree.properties id) (given.outline.children.flatMap fun part =>
      part.children.filter (·.type ∈ NodeTypes.only .config)) :=
    List.rel_flatMap drawn.children fun part below given => given.childrenOfType _
  rw [given.filter_configs, List.forall₂_map_right_iff] at all
  exact all

/-- The names of a drawn definition are those of its heading. -/
theorem Draws.names {id : NodeId} {given : Definition} (drawn : tree.Draws id given.outline) :
    (tree.identifiers id).map (fun found => (⟨found.1, found.2.1⟩ : Label)) =
      given.heading.names := by
  rw [drawn.identifiers, given.filterMap_label?]

/-- The name of a drawn property is its keyword. -/
theorem Draws.keyword {id : NodeId} {statement : Statement}
    (drawn : tree.Draws id statement.outline) :
    (tree.identifiers id).map (fun found => (⟨found.1, found.2.1⟩ : Label)) =
      [statement.keyword] := by
  rw [drawn.identifiers, statement.filterMap_label?]

/-- A drawn definition has the type of its form. -/
theorem Draws.type_of_definition {id : NodeId} {given : Definition}
    (drawn : tree.Draws id given.outline) :
    ∃ node, tree.get? id = some node ∧ node.type = given.heading.form.kind.type := by
  obtain ⟨node, found, same⟩ := drawn.live
  exact ⟨node, found, congrArg NodeKind.type same⟩

/-- A name that is written below a drawn definition is one of its heading. -/
theorem Draws.mem_names {id : NodeId} {given : Definition} (drawn : tree.Draws id given.outline)
    {name : String} {category : Category} {span : Span}
    (written : (name, category, span) ∈ tree.identifiers id) :
    ⟨name, category⟩ ∈ given.heading.names := by
  rw [← drawn.names]
  exact List.mem_map.mpr ⟨_, written, rfl⟩

end Tree

end ArgSchema
