import ArgSchema.Proofs.Grammar.Derivation
import ArgSchema.Proofs.Parser.Attachment

/-! Reductions of what symbols stand for, without a tree: the syntax that a stack has collected. -/

namespace ArgSchema

/-- What a symbol of the stack stands for. -/
inductive Phrase where
  /-- A token that is not part of a larger phrase yet. -/
  | token (given : Token)
  /-- Values of a property. -/
  | values (values : List NodeKind)
  /-- Type names of an argument. -/
  | types (names : List String)
  /-- Properties of a definition. -/
  | configs (statements : List Statement)
  /-- A suppression or a definition. -/
  | item (item : Item)
  /-- A file. -/
  | file (items : List Item)

namespace Phrase

/-- A phrase as a token or as the outline of a node. -/
def piece : Phrase → Piece
  | .token given => .token given
  | .values given => .node (valuesOutline given)
  | .types names => .node (typesOutline names)
  | .configs statements => .node (configsOutline statements)
  | .item given => .node given.outline
  | .file items => .node (fileOutline items)

/-- What a phrase can be in a header. -/
def part : Phrase → HeaderPart
  | .token given => .ofToken given
  | .types _ => .types
  | _ => .foreign

/-- The name that a token is. -/
def label? : Phrase → Option Label
  | .token given => given.label?
  | _ => none

/-- The names in a type list. -/
def types? : Phrase → Option (List String)
  | .types names => some names
  | _ => none

/-- The class of warnings that a suppression drops. -/
def suppression? : Phrase → Option WarningClass
  | .item (.suppress kind) => some kind
  | _ => none

/-- Puts values at the end of a list, or begins one. -/
def addValues (values : List NodeKind) : List Phrase → List Phrase
  | .values before :: below => .values (before ++ values) :: below
  | below => .values values :: below

/-- Puts a type name at the end of a list, or begins one. -/
def addType (name : String) : List Phrase → List Phrase
  | .types before :: below => .types (before ++ [name]) :: below
  | below => .types [name] :: below

/-- Puts a property at the end of a list, or begins one. -/
def addStatement (statement : Statement) : List Phrase → List Phrase
  | .configs before :: below => .configs (before ++ [statement]) :: below
  | below => .configs [statement] :: below

/-- Puts an item at the end of a file or begins one, unless something in front of it is open. -/
def addItem (item : Item) : List Phrase → List Phrase
  | [] => [.file [item]]
  | .file before :: below => .file (before ++ [item]) :: below
  | below => .item item :: below

/-- Whether a type behind a phrase belongs to a type list. -/
def takesTypes : Phrase → Bool
  | .token given => given.kind ∈ [.identifier, .shortlabel, .longlabel, .openSquare, .closeSquare]
  | .types _ => true
  | _ => false

/-- The phrases after a type's name. -/
def readType (type : Token) (below : List Phrase) : List Phrase :=
  if below.head?.any takesTypes then addType type.text below else .token type :: below

/-- The phrases after a word. -/
def readWord (word : Token) (below : List Phrase) : List Phrase :=
  match below with
  | .token modifier :: rest =>
    if modifier.isSuppress then
      match WarningClass.ofName? word.text with
      | some kind => addItem (.suppress kind) rest
      -- A warning that is not known leaves nothing on the stack.
      | none => rest
    else .token word :: below
  | _ => .token word :: below

/-- The phrases after a property that ends: its suppressions become part of it. -/
def closeProperty (keyword : Label) (values : List NodeKind) (below : List Phrase) : List Phrase :=
  let (marks, rest) := below.span fun phrase => phrase.suppression?.isSome
  addStatement ⟨marks.reverse.filterMap suppression?, keyword, values⟩ rest

/-- The phrases after a semicolon. -/
def readSemicolon (semicolon : Token) (below : List Phrase) : List Phrase :=
  match below with
  | .token opening :: _ =>
    if opening.kind = .openCurly then below else .token semicolon :: below
  -- Behind a property one semicolon more is dropped.
  | .configs _ :: _ => below
  | .values given :: .token word :: rest =>
    match word.keyword? with
    | some keyword => closeProperty keyword given rest
    | none => .token semicolon :: below
  | _ => .token semicolon :: below

/-- The heading that phrases spell, given the contents of the definition's node. -/
def heading (kind : NodeKind) (phrases : List Phrase) : Heading :=
  let names := phrases.filterMap label?
  let types? := (phrases.filterMap types?).head?
  match kind with
  | .typeDefinition _ => ⟨.typeDefinition, names, types?⟩
  | .positional optional variadic _ => ⟨.positional optional variadic, names, types?⟩
  | .option optional valueOptional variadic _ =>
    ⟨.option optional valueOptional variadic, names, types?⟩
  -- The word for the schema itself is no name.
  | _ => ⟨.metadata, [], none⟩

/-- The properties on top of phrases, and the phrases below them. -/
def splitBody : List Phrase → List Statement × List Phrase
  | .configs statements :: below => (statements, below)
  | below => ([], below)

/-- The phrases after a closing curly bracket. -/
def readCloseCurly (closing : Token) (below : List Phrase) : List Phrase :=
  match (splitBody below).2 with
  | .token opening :: rest =>
    if opening.kind = .openCurly then
      match Header.ofParts? (rest.map part) with
      | some header =>
        -- The header is on the stack from the back, so it is read in reverse.
        let heading := heading header.kind (rest.take header.length).reverse
        addItem (.definition ⟨heading, (splitBody below).1⟩) (rest.drop header.length)
      | none => .token closing :: below
    else .token closing :: below
  | _ => .token closing :: below

/-- The phrases once the token on top has become part of what it completes. -/
def reduce : List Phrase → List Phrase
  | .token top :: below =>
    if top.kind.isValue then addValues top.leaf?.toList below
    else
      match top.kind with
      | .semicolon => readSemicolon top below
      | .type => readType top below
      | .identifier => readWord top below
      | .closeCurly => readCloseCurly top below
      | _ => .token top :: below
  | phrases => phrases

/-- The phrases after a token that was read. -/
def read (phrases : List Phrase) (token : Token) : List Phrase := reduce (.token token :: phrases)

/-- The phrases after the tokens of a list. -/
def readAll (phrases : List Phrase) (tokens : List Token) : List Phrase := tokens.foldl read phrases

/-- The items of a file that phrases are, if they are nothing else. -/
def items? : List Phrase → Option (List Item)
  | [] => some []
  | [.file items] => some items
  | _ => none

end Phrase

end ArgSchema
