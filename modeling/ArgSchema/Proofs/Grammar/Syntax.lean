import ArgSchema.Proofs.Tree.Outline

/-! The syntax of schemas: what a file says, without handles, places and punctuation. -/

namespace ArgSchema

/-- A name and the way it is written. -/
structure Label where
  /-- The name without its marks. -/
  name : String
  /-- The marks that belong to it. -/
  category : Category
deriving DecidableEq

/-- One property: suppressions, a keyword and values. -/
structure Statement where
  /-- Classes of warnings that are dropped from here on. -/
  suppressions : List WarningClass
  /-- The name of the property. -/
  keyword : Label
  /-- The values, each as the contents of a leaf. -/
  values : List NodeKind

/-- What a body defines. -/
inductive Form where
  /-- The schema itself. -/
  | metadata
  /-- A type. -/
  | typeDefinition
  /-- An argument known by its place. -/
  | positional (optional variadic : Bool)
  /-- An argument known by its labels. -/
  | option (optional valueOptional variadic : Bool)
deriving DecidableEq

/-- The contents of a definition's node, whose table is still empty. -/
def Form.kind : Form → NodeKind
  | .metadata => .metadata .empty
  | .typeDefinition => .typeDefinition .empty
  | .positional optional variadic => .positional optional variadic .empty
  | .option optional valueOptional variadic => .option optional valueOptional variadic .empty

/-- The types of definitions are those of their nodes. -/
theorem Form.type_mem_definitions (form : Form) : form.kind.type ∈ NodeTypes.definitions := by
  cases form <;> simp [Form.kind, NodeKind.type, NodeTypes.definitions]

/-- What stands in front of a body. -/
structure Heading where
  /-- What the body defines. -/
  form : Form
  /-- The names that the definition is known by; the word for the schema itself is none. -/
  names : List Label
  /-- The type list, if there is one. -/
  types? : Option (List String)
deriving DecidableEq

/-- A heading and the properties below it. -/
structure Definition where
  /-- What is defined. -/
  heading : Heading
  /-- The properties in order. -/
  body : List Statement

/-- What a file can hold. -/
inductive Item where
  /-- A class of warnings that is dropped from here on. -/
  | suppress (kind : WarningClass)
  /-- A definition. -/
  | definition (given : Definition)

/-- A name as a leaf. -/
def Label.outline (label : Label) : Outline := .leaf (.identifier label.name label.category)

/-- Values as the leaves of a list. -/
def valuesOutline (values : List NodeKind) : Outline := .node .values (values.map .leaf)

/-- Type names as the leaves of a list. -/
def typesOutline (names : List String) : Outline :=
  .node (.types []) (names.map fun name => (⟨name, .type⟩ : Label).outline)

/-- A property as a node over its suppressions, its keyword and its values. -/
def Statement.outline (statement : Statement) : Outline :=
  .node .config (statement.suppressions.map (fun kind => .leaf (.suppress kind)) ++
    [statement.keyword.outline, valuesOutline statement.values])

/-- Properties as a list. -/
def configsOutline (statements : List Statement) : Outline :=
  .node .configs (statements.map Statement.outline)

/-- The names and types of a heading, as children of the definition. -/
def Heading.outlines (heading : Heading) : List Outline :=
  heading.names.map Label.outline ++ heading.types?.toList.map typesOutline

/-- A definition as a node over its names, its types and its properties. -/
def Definition.outline (given : Definition) : Outline :=
  .node given.heading.form.kind (given.heading.outlines ++ [configsOutline given.body])

/-- An item of a file as a node. -/
def Item.outline : Item → Outline
  | .suppress kind => .leaf (.suppress kind)
  | .definition given => given.outline

/-- A file as a node over its items. -/
def fileOutline (items : List Item) : Outline := .node .file (items.map Item.outline)

end ArgSchema
