import ArgSchema.Layout
import ArgSchema.Proofs.Tree.Described

/-! Texts of syntax: a tree is written as the text of the items that it stands for. -/

namespace ArgSchema

/-- A name with its marks. -/
def Label.text (label : Label) : String := label.category.external label.name

/-- Names with blanks between them. -/
def labelsText (labels : List Label) : String := " ".intercalate (labels.map Label.text)

/-- A type list; three dots stand for several values. -/
def typeListText (types : List String) (variadic : Bool) : String :=
  labelsText (types.map fun name => ⟨name, .type⟩) ++ if variadic then "..." else ""

/-- A text in square brackets, if it is optional. -/
def bracketedText (optional : Bool) (text : String) : String :=
  if optional then "[" ++ text ++ "]" else text

/-- A type list behind a blank, if there is one. -/
def typesPartText (types? : Option (List String)) (optional variadic : Bool) : String :=
  match types? with
  | none => ""
  | some types => " " ++ bracketedText optional (typeListText types variadic)

namespace Heading

/-- The text of a heading. -/
def text (heading : Heading) : String :=
  let labels := labelsText heading.names
  match heading.form with
  | .metadata => "meta"
  | .typeDefinition => labels
  | .positional optional variadic =>
    bracketedText optional labels ++ typesPartText heading.types? false variadic
  | .option optional valueOptional variadic =>
    bracketedText optional labels ++ typesPartText heading.types? valueOptional variadic

end Heading

/-- A suppression and the blank behind it. -/
def suppressText (kind : WarningClass) : String := "@suppress " ++ kind.name ++ " "

/-- A value behind a blank. -/
def spacedValueText (value : NodeKind) : String := " " ++ Layout.valueText value

/-- The text of a part of a property. -/
def Outline.partText : Outline → String
  | .node (.suppress kind) _ => suppressText kind
  | .node (.identifier name category) _ => (⟨name, category⟩ : Label).text
  | .node .values below => String.join (below.map fun value => spacedValueText value.kind)
  | _ => ""

/-- The text of a property, a line of its own. -/
def Statement.text (statement : Statement) : String :=
  "\t" ++ String.join (statement.suppressions.map suppressText ++
    [statement.keyword.text, String.join (statement.values.map spacedValueText)]) ++ ";\n"

/-- The text of a body. -/
def bodyText (body : List Statement) : String :=
  if body.isEmpty then " \x7b\x7d\n"
  else " \x7b\n" ++ String.join (body.map Statement.text) ++ "\x7d\n"

/-- The text of an item. -/
def Item.text : Item → String
  | .suppress kind => "@suppress " ++ kind.name ++ "\n"
  | .definition given => given.heading.text ++ bodyText given.body

/-- The text of a file. -/
def fileText (items : List Item) : String := "\n".intercalate (items.map Item.text)

/-- Lists whose members go together are mapped alike by functions that agree on such members. -/
theorem map_eq_of_forall₂ {α β γ : Type} {R : α → β → Prop} {xs : List α} {ys : List β}
    (all : List.Forall₂ R xs ys) {f : α → γ} {g : β → γ} (same : ∀ a b, R a b → f a = g b) :
    xs.map f = ys.map g := by
  -- By induction on how the lists go together.
  induction all with
  | nil => rfl
  | cons first _ ih => rw [List.map_cons, List.map_cons, same _ _ first, ih]

/-- The lists below a definition are its type list and its body. -/
theorem Definition.lists (given : Definition) :
    (given.outline.children.filter (·.type ∈ NodeTypes.only .types)).head? =
        given.heading.types?.map typesOutline ∧
      (given.outline.children.filter (·.type ∈ NodeTypes.only .configs)).head? =
        some (configsOutline given.body) := by
  have names : ∀ type, type ≠ .identifier →
      (given.heading.names.map Label.outline).filter (·.type ∈ NodeTypes.only type) = [] := by
    intro type other
    -- A name is of the type of names and of no other.
    refine List.filter_eq_nil_iff.mpr fun outline member => ?_
    obtain ⟨label, _, rfl⟩ := List.mem_map.mp member
    simpa [Label.outline, Outline.leaf, Outline.type, Outline.kind, NodeKind.type] using other.symm
  have own : (configsOutline given.body).type = .configs := rfl
  rw [Definition.outline, Outline.children_node, Heading.outlines]
  rw [List.filter_append, List.filter_append, List.filter_append, List.filter_append,
    names .types (by decide), names .configs (by decide), List.nil_append, List.nil_append]
  -- What is left are the type list, if there is one, and the body.
  cases given.heading.types? with
  | none => simp [own]
  | some types =>
    have list : (typesOutline types).type = .types := rfl
    simp [own, list]

namespace Tree

variable {tree : Tree}

/-- The first child of some types is drawn as the first outline of these types. -/
theorem Draws.findChild? {id : NodeId} {outline : Outline} (drawn : tree.Draws id outline)
    (types : NodeTypes) : Option.Rel tree.Draws (tree.findChild? id types)
      (outline.children.filter (·.type ∈ types)).head? := by
  have all := drawn.childrenOfType types
  unfold Tree.findChild?
  generalize tree.childrenOfType id types = ids at *
  generalize outline.children.filter (·.type ∈ types) = outlines at *
  -- The children of some types go together with the outlines of these types.
  cases all with
  | nil => exact .none
  | cons first _ => exact .some first

/-- What is written for live nodes from their contents is written for their outlines. -/
theorem map_kinds {write : NodeId → NodeKind → String} {text : Outline → String}
    (same : ∀ {id outline}, tree.Draws id outline → write id outline.kind = text outline)
    {ids : List NodeId} {outlines : List Outline} (drawn : List.Forall₂ tree.Draws ids outlines) :
    ((Layout.kinds tree ids).map fun (id, kind) => write id kind) = outlines.map text := by
  induction drawn with
  | nil => rfl
  | cons first _ ih =>
    -- A live node has the contents of its outline, so it is written as the outline is.
    obtain ⟨node, found, kind⟩ := first.live
    unfold Layout.kinds at ih ⊢
    rw [List.filterMap_cons]
    simp only [Tree.kind?, found, Option.map_some, List.map_cons, kind, same first]
    exact congrArg (text _ :: ·) ih

/-- Names are written as the labels that they are. -/
theorem namesText_eq (names : List (String × Category × Span)) : Layout.namesText names =
    labelsText (names.map fun given => ⟨given.1, given.2.1⟩) := by
  unfold Layout.namesText labelsText
  rw [List.map_map]
  rfl

/-- A part of a property is written as its text. -/
theorem Draws.configPart {id : NodeId} {outline : Outline} (drawn : tree.Draws id outline) :
    Layout.configPart tree id outline.kind = outline.partText := by
  have children := drawn.children
  obtain ⟨kind, below⟩ := outline
  cases kind with
  -- Only a list of values looks at its children.
  | values =>
    exact congrArg String.join
      (map_kinds (fun {_ value} _ => (rfl : _ = spacedValueText value.kind)) children)
  | _ => rfl

/-- A property is written as its text. -/
theorem Draws.configText {id : NodeId} {statement : Statement}
    (drawn : tree.Draws id statement.outline) :
    Layout.configText tree id = statement.text := by
  -- The parts of the text are those of the children, which are drawn one by one.
  have parts := map_kinds Draws.configPart drawn.children
  unfold Layout.configText Statement.text
  rw [parts, Statement.outline, Outline.children_node, List.map_append, List.map_map]
  simp [Function.comp_def, Outline.partText, Outline.leaf, Label.outline, valuesOutline,
    List.map_map, Outline.kind, Label.text]

/-- A body is written as its text. -/
theorem Draws.bodyText {id : NodeId} {given : Definition} (drawn : tree.Draws id given.outline) :
    Layout.bodyText tree id = ArgSchema.bodyText given.body := by
  have found := drawn.findChild? (.only .configs)
  rw [given.lists.2] at found
  unfold Layout.bodyText
  generalize tree.findChild? id _ = list? at *
  cases found with
  | @some list _ shown =>
    -- There is always a body, whose properties are written one after the other.
    have configs := shown.children
    rw [configsOutline, Outline.children_node, List.forall₂_map_right_iff] at configs
    have texts := map_eq_of_forall₂ configs fun _ _ => Draws.configText
    have empty := congrArg List.isEmpty texts
    simp only [List.isEmpty_map] at empty
    simp only [texts, empty]
    rfl

/-- A type list is written as its text. -/
theorem Draws.typesText {id : NodeId} {given : Definition} (drawn : tree.Draws id given.outline)
    (optional variadic : Bool) : Layout.typesText tree id optional variadic =
      typesPartText given.heading.types? optional variadic := by
  have found := drawn.findChild? (.only .types)
  rw [given.lists.1] at found
  unfold Layout.typesText typesPartText
  generalize tree.findChild? id _ = list? at *
  generalize given.heading.types? = types? at *
  cases types? with
  -- Without a type list there is nothing to write, and the tree has none either.
  | none =>
    cases found
    rfl
  | some types =>
    cases found with
    | @some list _ shown =>
      have names := shown.identifiers
      rw [filterMap_label?_types] at names
      simp only [namesText_eq, names]
      cases optional <;> refine String.toList_inj.mp ?_ <;> simp [bracketedText, typeListText]

/-- The names of a definition are written as its labels. -/
theorem Draws.labelsText {id : NodeId} {given : Definition} (drawn : tree.Draws id given.outline)
    (optional : Bool) : Layout.labelsText tree id optional =
      bracketedText optional (ArgSchema.labelsText given.heading.names) := by
  unfold Layout.labelsText
  rw [namesText_eq, drawn.names]
  rfl

/-- An item of a file is written as its text. -/
theorem Draws.itemText {id : NodeId} {item : Item} (drawn : tree.Draws id item.outline) :
    Layout.itemText tree id = item.text := by
  obtain ⟨node, found, same⟩ := drawn.live
  have kind : tree.kind? id = some item.outline.kind := by rw [Tree.kind?, found, ← same]; rfl
  -- What is written depends on the kind of the node, which is that of the item.
  unfold Layout.itemText
  rw [kind]
  cases item with
  | suppress kind => rfl
  | definition given =>
    have drawn : tree.Draws id given.outline := drawn
    show _ = given.heading.text ++ ArgSchema.bodyText given.body
    rw [← drawn.bodyText, Heading.text]
    have shown : (Item.definition given).outline.kind = given.heading.form.kind := rfl
    rw [shown]
    -- Each form writes its own lists in its own brackets.
    cases given.heading.form with
    | metadata => rfl
    | typeDefinition =>
      simp only [Form.kind, drawn.labelsText, bracketedText, Bool.false_eq_true, if_false]
    | positional optional variadic => simp only [Form.kind, drawn.labelsText, drawn.typesText]
    | option optional valueOptional variadic =>
      simp only [Form.kind, drawn.labelsText, drawn.typesText]

/-- A tree is written as the text of its items. -/
theorem Draws.format {root : NodeId} {items : List Item}
    (drawn : tree.Draws root (fileOutline items)) (rooted : tree.root? = some root) :
    tree.format = fileText items := by
  have children := drawn.children
  rw [fileOutline, Outline.children_node, List.forall₂_map_right_iff] at children
  -- The items are written one by one, each as its child of the root is.
  have texts := map_eq_of_forall₂ children fun _ _ => Draws.itemText
  rw [Tree.format, rooted]
  simp only [texts]
  rfl

end Tree

end ArgSchema
