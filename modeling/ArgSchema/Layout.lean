import ArgSchema.Tree.Basic

/-! Layout: schema trees written as source text in one canonical form. -/

namespace ArgSchema

namespace Layout

/-- Names the way they are written, with blanks between them. -/
def namesText (names : List (String × Category × Span)) : String :=
  " ".intercalate (names.map fun (name, category, _) => category.external name)

/-- A character of quoted text; a backslash stands in front of one that would end it or its line. -/
def escaped : Char → String
  | '"' => "\\\""
  | '\\' => "\\\\"
  | '\n' => "\\n"
  | '\t' => "\\t"
  | '\r' => "\\r"
  | c => c.toString

/-- A text in quotes. -/
def quotedText (text : String) : String :=
  "\"" ++ String.join (text.toList.map escaped) ++ "\""

/-- A regular expression in quotes, where only quotes need a backslash. -/
def regexText (text : String) : String :=
  let escapeQuote := fun c : Char => if c = '"' then "\\\"" else c.toString
  "r\"" ++ String.join (text.toList.map escapeQuote) ++ "\""

/-- An integer; three dashes mark a negative one, since fewer would make it a label. -/
def integerText (value : Int) : String :=
  if value < 0 then "---" ++ toString value.natAbs else toString value

/-- A decimal fraction, which always has a point. -/
def decimalText (value : Binary64) : String :=
  let magnitude := value.magnitudeText
  let point := if magnitude.contains '.' then "" else ".0"
  (if value.isNegative then "---" else "") ++ magnitude ++ point

/-- One value of a property. -/
def valueText : NodeKind → String
  | .string text => quotedText text
  | .regex text => regexText text
  | .number value => integerText value
  | .decimal value => decimalText value
  | .boolean value => if value then "(true)" else "(false)"
  | .snippet code => "++\x7b" ++ code ++ "\x7d++"
  | .reference target category property _ => category.external target ++ "." ++ property
  | _ => ""

/-- The contents of live nodes, in order. -/
def kinds (tree : Tree) (ids : List NodeId) : List (NodeId × NodeKind) :=
  ids.filterMap fun id => (tree.kind? id).map fun kind => (id, kind)

/-- One part of a property. -/
def configPart (tree : Tree) (id : NodeId) : NodeKind → String
  | .suppress kind => "@suppress " ++ kind.name ++ " "
  | .identifier name category => category.external name
  | .values =>
    String.join ((kinds tree (tree.children id)).map fun (_, kind) => " " ++ valueText kind)
  | _ => ""

/-- A property on a line of its own. -/
def configText (tree : Tree) (id : NodeId) : String :=
  let parts := (kinds tree (tree.children id)).map fun (child, kind) => configPart tree child kind
  "\t" ++ String.join parts ++ ";\n"

/-- The properties of a definition in braces. -/
def bodyText (tree : Tree) (id : NodeId) : String :=
  let configs := match tree.findChild? id (NodeTypes.only .configs) with
    | some list => tree.children list
    | none => []
  -- Without properties the braces share a line.
  if configs.isEmpty then " \x7b\x7d\n"
  else " \x7b\n" ++ String.join (configs.map (configText tree)) ++ "\x7d\n"

/-- The names of a definition, in brackets if its argument is optional. -/
def labelsText (tree : Tree) (id : NodeId) (optional : Bool) : String :=
  let names := namesText (tree.identifiers id)
  if optional then "[" ++ names ++ "]" else names

/-- The type list of an argument, in brackets if its value is optional. -/
def typesText (tree : Tree) (id : NodeId) (optional variadic : Bool) : String :=
  match tree.findChild? id (NodeTypes.only .types) with
  | none => ""
  | some types =>
    let list := namesText (tree.identifiers types) ++ if variadic then "..." else ""
    -- The ellipsis belongs to the types, so it stands inside the brackets.
    if optional then " [" ++ list ++ "]" else " " ++ list

/-- An item of a file. -/
def itemText (tree : Tree) (id : NodeId) : String :=
  match tree.kind? id with
  | some (.suppress kind) => "@suppress " ++ kind.name ++ "\n"
  -- The block of the schema has its word for a name, and no types.
  | some (.metadata _) => "meta" ++ bodyText tree id
  | some (.typeDefinition _) => labelsText tree id false ++ bodyText tree id
  | some (.positional optional variadic _) =>
    labelsText tree id optional ++ typesText tree id false variadic ++ bodyText tree id
  | some (.option optional valueOptional variadic _) =>
    labelsText tree id optional ++ typesText tree id valueOptional variadic ++ bodyText tree id
  | _ => ""

end Layout

/-- The source text of a tree, with a blank line between the items of the file. -/
def Tree.format (tree : Tree) : String :=
  match tree.root? with
  | none => ""
  | some root => "\n".intercalate ((tree.children root).map (Layout.itemText tree))

end ArgSchema
