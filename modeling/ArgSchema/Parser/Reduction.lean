import ArgSchema.Diagnostics
import ArgSchema.Parser.Header

/-! Reductions: the token on top of the stack completes a piece of the tree, or waits for more. -/

namespace ArgSchema

/-- The leaf that stands for a token, if the token has contents. -/
def Token.leaf? (token : Token) : Option NodeKind :=
  match token.kind with
  | .identifier =>
    some (.identifier token.text (if token.isWord "meta" then .metadata else .identifier))
  | .shortlabel => some (.identifier token.text .shortlabel)
  | .longlabel => some (.identifier token.text .longlabel)
  | .type => some (.identifier token.text .type)
  | .property => some (.identifier token.text .property)
  | .reference category property => some (.reference token.text category property none)
  | .string => some (.string token.text)
  | .regex => some (.regex token.text)
  | .number value => some (.number value)
  | .decimal value => some (.decimal value)
  | .boolean value => some (.boolean value)
  | .snippet => some (.snippet token.text)
  | _ => none

/-- Whether a token can name a property. -/
def Token.isKeyword (token : Token) : Bool :=
  token.kind = .identifier || token.kind = .property

namespace Symbol

/-- The node of a symbol that is one of some type. -/
def node? (tree : Tree) (type : NodeType) : Symbol → Option NodeId
  | .token _ => none
  | .node id => if tree.isOfType (.only type) id then some id else none

/-- The text that a symbol stands for. -/
def span? (tree : Tree) : Symbol → Option Span
  | .token given => some given.span
  | .node id => (tree.get? id).map (·.span)

/-- Whether a symbol is a token that can name a property. -/
def isKeyword : Symbol → Bool
  | .token given => given.isKeyword
  | .node _ => false

/-- Whether a symbol is a semicolon. -/
def isSemicolon : Symbol → Bool
  | .token given => given.kind = .semicolon
  | .node _ => false

end Symbol

namespace Tree

/-- Hangs a symbol below a node: a node as it is, a token as the leaf that stands for it. -/
def attach (parent : NodeId) (tree : Tree) (symbol : Symbol) : Except TreeError Tree :=
  match symbol with
  | .node id => tree.addChild parent id
  | .token token =>
    match token.leaf? with
    -- Brackets and marks are not part of the tree.
    | none => .ok tree
    | some kind => (tree.alloc kind token.span).addChild parent tree.nextId

/-- Hangs symbols below a node, in order. -/
def attachAll (parent : NodeId) (tree : Tree) (symbols : List Symbol) : Except TreeError Tree :=
  symbols.foldlM (attach parent) tree

/-- The tree with the span of a node stretched to the end of another. -/
def widen (tree : Tree) (id : NodeId) (span : Span) : Tree :=
  tree.modify id fun node => { node with span := node.span.through span }

end Tree

/-- A parser between two tokens. -/
structure Parser where
  /-- The nodes made so far. -/
  tree : Tree
  /-- The symbols that are not part of a larger node yet. -/
  stack : SymbolStack
  /-- What happened to the record so far, in order. -/
  events : List Event
deriving DecidableEq

namespace Parser

/-- A parser that has read nothing. -/
def start : Parser := ⟨Tree.empty, SymbolStack.empty, []⟩

/-- The parser after more events. -/
def record (parser : Parser) (events : List Event) : Parser :=
  { parser with events := parser.events ++ events }

/-- The parser with another tree and other symbols. -/
def set (parser : Parser) (tree : Tree) (symbols : List Symbol) : Parser :=
  { parser with tree := tree, stack := ⟨symbols⟩ }

/-- Hangs a symbol below the list node on top of others, or below a new one there. -/
def collect (parser : Parser) (tree : Tree) (list : NodeKind) (below : List Symbol)
    (symbol : Symbol) (span : Span) : Except TreeError Parser :=
  match below.head?.bind (Symbol.node? tree list.type) with
  | some id => do
    -- A list that is on top takes the symbol, and the span grows with it.
    let grown ← (tree.widen id span).attach id symbol
    return parser.set grown below
  | none => do
    let grown ← (tree.alloc list span).attach tree.nextId symbol
    return parser.set grown (.node tree.nextId :: below)

/-- Hangs a definition or suppression below the file, unless something in front of it is open. -/
def place (parser : Parser) (tree : Tree) (below : List Symbol) (id : NodeId) (span : Span) :
    Except TreeError Parser :=
  let file? := below.head?.bind (Symbol.node? tree .file)
  if below.isEmpty || file?.isSome then parser.collect tree .file below (.node id) span
  else .ok (parser.set tree (.node id :: below))

/-- Puts a value at the end of its property's values. -/
def readValue (parser : Parser) (value : Token) (below : List Symbol) : Except TreeError Parser :=
  parser.collect parser.tree .values below (.token value) value.span

/-- Whether a type behind a symbol belongs to an argument's type list. -/
def beginsTypes : Symbol → Bool
  | .token token =>
    token.kind ∈ [.identifier, .shortlabel, .longlabel, .openSquare, .closeSquare]
  | .node _ => false

/-- Puts a type at the end of an argument's types; behind anything else it stays what it is. -/
def readType (parser : Parser) (type : Token) (below : List Symbol) : Except TreeError Parser :=
  let list? := below.head?.bind (Symbol.node? parser.tree .types)
  if list?.isSome || below.head?.any beginsTypes then
    parser.collect parser.tree (.types []) below (.token type) type.span
  else .ok parser

/-- Carries out a suppression; one of an unknown class is reported and dropped. -/
def readWord (parser : Parser) (word : Token) (below : List Symbol) : Except TreeError Parser :=
  match below with
  | .token modifier :: rest =>
    if modifier.kind = .modifier && modifier.text = "suppress" then
      match WarningClass.ofName? word.text with
      | some kind =>
        let span := modifier.span.through word.span
        (parser.record [.suppress kind]).place (parser.tree.alloc (.suppress kind) span) rest
          parser.tree.nextId span
      | none =>
        -- Both tokens are dropped, and no suppression takes their place.
        let problem := Problem.parse (.unknownWarning word.text)
        .ok ((parser.record [.report (.located problem word.span)]).set parser.tree rest)
    else .ok parser
  | _ => .ok parser

/-- Makes a property of a keyword, its values and the suppressions in front of it. -/
def closeProperty (parser : Parser) (keyword : Token) (values : NodeId) (semicolon : Token)
    (below : List Symbol) : Except TreeError Parser := do
  let tree := parser.tree
  let config := tree.nextId
  let span := keyword.span.through semicolon.span
  let isSuppression := fun symbol => (Symbol.node? tree .suppress symbol).isSome
  let (suppressions, rest) := below.span isSuppression
  -- The suppressions stand below the keyword, and are taken in the order they were written.
  let parts := suppressions.reverse ++ [.token keyword, .node values]
  let grown ← (tree.alloc .config span).attachAll config parts
  parser.collect grown .configs rest (.node config) span

/-- Closes a property, or drops a semicolon that closes nothing inside a body. -/
def readSemicolon (parser : Parser) (semicolon : Token) (below : List Symbol) :
    Except TreeError Parser :=
  let dropped := fun warning =>
    (parser.record [.report (.warning warning semicolon.span)]).set parser.tree below
  match below with
  | .token opening :: _ =>
    if opening.kind = .openCurly then .ok (dropped .emptyStatement) else .ok parser
  -- Behind a property the semicolon is one too many, and the list stays.
  | .node id :: rest =>
    if parser.tree.isOfType (.only .configs) id then .ok (dropped .straySemicolon)
    else
      match parser.tree.isOfType (.only .values) id, rest with
      | true, .token keyword :: outer =>
        if keyword.isKeyword then parser.closeProperty keyword id semicolon outer else .ok parser
      | _, _ => .ok parser
  | [] => .ok parser

/-- Makes a definition of a header and a body; a body without properties still gets its list. -/
def closeDefinition (parser : Parser) (header : Header) (opening : Token) (body : Option NodeId)
    (closing : Token) (below : List Symbol) : Except TreeError Parser := do
  let tree := parser.tree
  let definition := tree.nextId
  let heading := (below.take header.length).reverse
  let start := (heading.head?.bind (Symbol.span? tree)).getD opening.span
  let span := start.through closing.span
  -- The word that heads a block about the schema itself is no name.
  let names := if header.kind.type = .metadata then [] else heading
  let named ← (tree.alloc header.kind span).attachAll definition names
  let grown ← match body with
    | some configs => named.addChild definition configs
    | none =>
      (named.alloc .configs (opening.span.through closing.span)).addChild definition named.nextId
  parser.place grown (below.drop header.length) definition span

/-- Closes a body, if what stands in front of it is a header. -/
def readCloseCurly (parser : Parser) (closing : Token) (below : List Symbol) :
    Except TreeError Parser :=
  -- Without properties there is no list between the braces.
  let body := below.head?.bind (Symbol.node? parser.tree .configs)
  match if body.isSome then below.drop 1 else below with
  | .token opening :: rest =>
    if opening.kind = .openCurly then
      match Header.ofSymbols? parser.tree rest with
      | some header => parser.closeDefinition header opening body closing rest
      | none => .ok parser
    else .ok parser
  | _ => .ok parser

/-- Makes of the token on top of the stack what it completes.

What it completes goes to its place in the list or file before it at once, so a second look would
find nothing more to do. -/
def reduce (parser : Parser) : Except TreeError Parser :=
  match parser.stack.symbols with
  | .token top :: below =>
    -- Only what stands on top can complete something.
    if top.kind.isValue then parser.readValue top below
    else
      match top.kind with
      | .semicolon => parser.readSemicolon top below
      | .type => parser.readType top below
      | .identifier => parser.readWord top below
      | .closeCurly => parser.readCloseCurly top below
      | _ => .ok parser
  | _ => .ok parser

end Parser

end ArgSchema
