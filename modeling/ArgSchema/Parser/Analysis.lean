import ArgSchema.Parser.Reduction

/-! Explanations of a stack that did not become one file: which tokens are missing, and which stray. -/

namespace ArgSchema

/-- A syntax error and its place. -/
abbrev SyntaxError := ParseProblem × Span

/-- An opening curly bracket and the symbols in front of it, the nearest first. -/
structure OpenCurly where
  /-- The bracket. -/
  token : Token
  /-- The symbols in front of it. -/
  before : List Symbol

/-- The brackets that are open in front of a symbol, the innermost first. -/
structure OpenBrackets where
  /-- Curly brackets. -/
  curlies : List OpenCurly
  /-- Square brackets. -/
  squares : List Token

namespace OpenBrackets

/-- No bracket is open. -/
def none : OpenBrackets := ⟨[], []⟩

/-- Whether properties can stand here. -/
def inBody (brackets : OpenBrackets) : Bool := !brackets.curlies.isEmpty

/-- The brackets that are open behind a symbol. -/
def pass (brackets : OpenBrackets) (before : List Symbol) : Symbol → OpenBrackets
  | .node _ => brackets
  | .token token =>
    match token.kind with
    -- An open brace remembers what stood in front of it, for the header that may be there.
    | .openCurly => { brackets with curlies := ⟨token, before⟩ :: brackets.curlies }
    | .closeCurly => { brackets with curlies := brackets.curlies.drop 1 }
    | .openSquare => { brackets with squares := token :: brackets.squares }
    | .closeSquare => { brackets with squares := brackets.squares.drop 1 }
    | _ => brackets

/-- Errors of the brackets that are never closed, in order of opening. -/
def unterminated (brackets : OpenBrackets) : List SyntaxError :=
  brackets.curlies.reverse.map (fun opened => (.unterminatedCurly, opened.token.span)) ++
    brackets.squares.reverse.map (fun token => (.unterminatedSquare, token.span))

end OpenBrackets

namespace Tree

/-- Why a proper body was not made a definition, judged by what stands in front of it. -/
def headerErrors (tree : Tree) (opened : OpenCurly) : List SyntaxError :=
  let nameless := [(.namelessBody, opened.token.span)]
  let untyped := fun (token : Token) =>
    if token.kind = .identifier then [(.missingTypes token.text, token.span)] else []
  match opened.before with
  | [] => nameless
  -- Behind a whole item there is no name that the body could belong to.
  | .node id :: _ =>
    if tree.isOfType (NodeTypes.toplevel ∪ .only .file) id then nameless else []
  | .token token :: rest =>
    match token.kind with
    | .semicolon | .closeCurly => nameless
    -- An argument in brackets has its name below them.
    | .closeSquare =>
      match rest with
      | .token name :: _ => untyped name
      | _ => []
    | _ => untyped token

/-- Whether the symbols between two curly brackets are properties and nothing else. -/
def isProperBody (tree : Tree) : List Symbol → Bool
  | [] => true
  | [symbol] => (symbol.node? tree .configs).isSome
  | _ => false

/-- Errors at a closing curly bracket. -/
def closeCurlyErrors (tree : Tree) (brackets : OpenBrackets) (before : List Symbol)
    (token : Token) : List SyntaxError :=
  match brackets.curlies with
  | [] => [(.unmatchedCloseCurly, token.span)]
  | opened :: _ =>
    -- What stands between the brackets, without the opening one.
    let body := before.take (before.length - (opened.before.length + 1))
    if tree.isProperBody body then tree.headerErrors opened else []

/-- Errors at a semicolon that was not made part of a property. -/
def semicolonErrors (tree : Tree) (brackets : OpenBrackets) (before : List Symbol)
    (token : Token) : List SyntaxError :=
  if !brackets.inBody then [(.straySemicolon, token.span)]
  -- Inside a body it should have closed a property, and one of its parts is missing.
  else match before.head? with
    | some (.token keyword) =>
      if keyword.isKeyword then [(.emptyProperty keyword.text, token.span)] else []
    | some (.node id) =>
      match tree.get? id with
      | some node => if node.type = .values then [(.missingPropertyName, node.span)] else []
      | none => []
    | none => []

/-- The shortlabel of a symbol: the token itself, or the first name of an option. -/
def shortlabel? (tree : Tree) : Symbol → Option (String × Span)
  | .token token => if token.kind = .shortlabel then some (token.text, token.span) else none
  | .node id =>
    if tree.isOfType (.only .option) id then
      match (tree.identifiers id).head? with
      | some (name, .shortlabel, span) => some (name, span)
      | _ => none
    else none

/-- Errors at a token, which lies between some symbols. -/
def tokenErrors (tree : Tree) (brackets : OpenBrackets) (before after : List Symbol)
    (token : Token) : List SyntaxError :=
  match token.kind with
  | .closeCurly => tree.closeCurlyErrors brackets before token
  | .closeSquare =>
    if brackets.squares.isEmpty then [(.missingOpenSquare, token.span)] else []
  | .semicolon => tree.semicolonErrors brackets before token
  -- An ellipsis belongs behind a list of types.
  | .ellipsis =>
    if (before.head?.bind (Symbol.node? tree .types)).isSome then []
    else [(.strayVariadic, token.span)]
  -- The labels of an option are written with the short one first.
  | .longlabel =>
    match after.head?.bind tree.shortlabel? with
    | some (short, span) => [(.misorderedLabels short token.text, span)]
    | none => []
  | .modifier => [(.strayModifier token.text, token.span)]
  | _ => []

/-- Whether a property can start with a symbol. -/
def beginsProperty (tree : Tree) (symbol : Symbol) : Bool :=
  symbol.isKeyword || (symbol.node? tree .suppress).isSome

/-- Errors at a node, which lies between some symbols. -/
def nodeErrors (tree : Tree) (brackets : OpenBrackets) (before after : List Symbol)
    (node : Node) : List SyntaxError :=
  match node.type with
  -- A property joins a list of them when it is read, so it is never alone among the symbols.
  | .configs | .config => if brackets.inBody then [] else [(.missingOpenCurly, node.span)]
  | .suppress =>
    if brackets.inBody && !after.head?.any tree.beginsProperty then
      [(.strayModifier "suppress", node.span)]
    else []
  | .values =>
    if before.head?.any Symbol.isKeyword && !after.head?.any Symbol.isSemicolon then
      [(.missingSemicolon, node.span)]
    else []
  | _ => []

/-- Errors at a symbol, which lies between others. -/
def symbolErrors (tree : Tree) (brackets : OpenBrackets) (before after : List Symbol) :
    Symbol → List SyntaxError
  | .token token => tree.tokenErrors brackets before after token
  | .node id =>
    match tree.get? id with
    | some node => tree.nodeErrors brackets before after node
    -- No symbol is a node that is gone.
    | none => []

/-- Errors at the symbols behind some others, in order, then those of brackets left open. -/
def errorsFrom (tree : Tree) (brackets : OpenBrackets) (before : List Symbol) :
    List Symbol → List SyntaxError
  -- Brackets that are open at the end are reported last.
  | [] => brackets.unterminated
  | symbol :: after =>
    tree.symbolErrors brackets before after symbol ++
      tree.errorsFrom (brackets.pass before symbol) (symbol :: before) after

/-- The place of the first symbol that is more than a file. -/
def firstSpan? (tree : Tree) (symbols : List Symbol) : Option Span :=
  symbols.findSome? fun symbol =>
    if (symbol.node? tree .file).isSome then none else symbol.span? tree

/-- Every error of symbols that form no file; there is at least one. -/
def syntaxErrors (tree : Tree) (symbols : List Symbol) (ending : Span) : List SyntaxError :=
  match tree.errorsFrom .none [] symbols with
  | [] => [(.unexpected, (tree.firstSpan? symbols).getD ending)]
  | errors => errors

end Tree

end ArgSchema
