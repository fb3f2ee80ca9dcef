import ArgSchema.Proofs.Parser.Still

/-! Attempts: rules as they are carried out on a stack, symbols first and checks later, with everything
that can go wrong once symbols were taken or the tree was asked. -/

namespace ArgSchema

/-- What can go wrong while a rule is carried out. -/
inductive Lapse where
  /-- The tree refuses what it is asked for. -/
  | refused (error : TreeError)
  /-- Symbols were taken from the stack that the rule has no use for. -/
  | lost (symbols : List Symbol)

/-- What carrying out a rule comes to: what is left, or nothing if no rule applies. -/
abbrev Attempt := Except Lapse (Option Parser)

namespace Attempt

/-- What the tree refuses is a lapse. -/
def ofTree (step : Except TreeError Parser) : Attempt := (step.mapError .refused).map some

/-- A rule that is applied without a look at what can go wrong. -/
def ofRule (rule : Option (Except TreeError Parser)) : Attempt :=
  match rule with
  | none => .ok none
  | some step => ofTree step

end Attempt

/-- Stretches a node of a tree, if there is one of the handle. -/
def Tree.stretch (tree : Tree) (id : NodeId) (span : Span) : Except TreeError Tree := do
  let _ ← tree.node id
  return tree.widen id span

namespace Parser

/-- The node below some symbols, if it is one of some type. -/
def nodeAt? (parser : Parser) (depth : Nat) (type : NodeType) : Option NodeId :=
  (parser.stack.peek? depth).bind (Symbol.node? parser.tree type)

/-- The token below some symbols. -/
def tokenAt? (parser : Parser) (depth : Nat) : Option Token :=
  match parser.stack.peek? depth with
  | some (.token token) => some token
  | _ => none

/-- Whether a token of some kind is below some symbols. -/
def isTokenAt (parser : Parser) (depth : Nat) (kind : TokenKind) : Bool :=
  (parser.tokenAt? depth).any (·.kind = kind)

/-- The token on top of the stack and the parser without it; a node stays where it is. -/
def popToken? (parser : Parser) : Option (Token × Parser) :=
  (parser.tokenAt? 0).map fun token => (token, { parser with stack := parser.stack.pop })

/-- Hangs a symbol below a list on the stack, or below a new one if there is none. -/
def hang (parser : Parser) (list? : Option NodeId) (list : NodeKind) (symbol : Symbol)
    (span : Span) : Except TreeError Parser := do
  match list? with
  | some id =>
    -- The list is stretched before the symbol is hung below it, or made for it.
    let wide ← parser.tree.stretch id span
    return { parser with tree := ← wide.attach id symbol }
  | none =>
    let id := parser.tree.nextId
    let grown ← (parser.tree.alloc list span).attach id symbol
    return { parser with tree := grown, stack := parser.stack.push (.node id) }

/-- Takes a token from the stack and hangs it below a list. -/
def hangToken (parser : Parser) (list? : Parser → Option NodeId) (list : NodeKind) : Attempt :=
  match parser.popToken? with
  | some (token, rest) => .ofTree (rest.hang (list? rest) list (.token token) token.span)
  | none => .ok none

/-- Takes a symbol from the stack and hangs it below a list; a token is lost. -/
def hangNode (parser : Parser) (list? : Parser → Option NodeId) (list : NodeKind) : Attempt :=
  -- The symbol is off the stack while its list is looked for.
  let rest : Parser := { parser with stack := parser.stack.pop }
  match parser.stack.peek? 0 with
  | some (.node id) => .ofTree do
    let node ← rest.tree.node id
    rest.hang (list? rest) list (.node id) node.span
  | some (.token token) => .error (.lost [.token token])
  | none => .ok none

/-- Takes a value from the stack and puts it at the end of the values in front of it. -/
def attemptValue (parser : Parser) : Attempt := parser.hangToken (·.nodeAt? 0 .values) .values

/-- Takes a type from the stack and puts it at the end of an argument's types. -/
def attemptType (parser : Parser) : Attempt :=
  let existing := parser.nodeAt? 1 .types
  -- Where the type belongs is judged before it is taken.
  if existing.isNone && !(parser.stack.peek? 1).any beginsTypes then .ok none
  else parser.hangToken (fun _ => existing) (.types [])

/-- Drops the token on top of the stack with a warning; a node stays where it is. -/
def dropTop (parser : Parser) (warning : Warning) : Attempt :=
  match parser.popToken? with
  | some (token, rest) => .ok (some (rest.record [.report (.warning warning token.span)]))
  | none => .ok (some parser)

/-- Takes a keyword, values and a semicolon from the stack, and then the suppressions in front of
them, and makes a property of them. -/
def takeProperty (parser : Parser) (values : NodeId) : Attempt :=
  -- The keyword, the values and the semicolon come off together.
  let (symbols, below) := parser.stack.splitOff 3
  match symbols with
  | .token keyword :: _ :: .token semicolon :: _ => .ofTree do
    let config := parser.tree.nextId
    let tree := parser.tree.alloc .config (keyword.span.through semicolon.span)
    let (suppressions, rest) :=
      below.symbols.span fun symbol => (Symbol.node? tree .suppress symbol).isSome
    let marked ← tree.attachAll config suppressions.reverse
    let named ← marked.attach config (.token keyword)
    let grown ← named.addChild config values
    return parser.set grown (.node config :: rest)
  -- With other symbols on top they would all be lost.
  | symbols => .error (.lost symbols)

/-- Ends a property, or drops a semicolon that ends nothing inside a body. -/
def attemptSemicolon (parser : Parser) : Attempt :=
  match parser.nodeAt? 1 .values, (parser.stack.peek? 2).any Symbol.isKeyword with
  | some values, true => parser.takeProperty values
  -- No property is complete, so the semicolon may be one too many.
  | _, _ =>
    if parser.isTokenAt 1 .openCurly then parser.dropTop .emptyStatement
    else
      match parser.nodeAt? 1 .configs with
      | some _ => parser.dropTop .straySemicolon
      | none => .ok none

/-- Takes a modifier and a word from the stack and makes a suppression of them, or drops them if there
is no class of that name. -/
def attemptWord (parser : Parser) : Attempt :=
  if (parser.tokenAt? 1).any Token.isSuppress then
    let (symbols, below) := parser.stack.splitOff 2
    match symbols with
    | .token modifier :: .token word :: _ =>
      match WarningClass.ofName? word.text with
      | some kind =>
        let tree := parser.tree.alloc (.suppress kind) (modifier.span.through word.span)
        .ok (some ((parser.record [.suppress kind]).set tree
          (.node parser.tree.nextId :: below.symbols)))
      | none =>
        let problem := Problem.parse (.unknownWarning word.text)
        .ok (some ((parser.record [.report (.located problem word.span)]).set parser.tree
          below.symbols))
    -- With other symbols on top both would be lost.
    | symbols => .error (.lost symbols)
  else .ok none

/-- Most symbols that a header has. -/
def maxHeader : Nat := 8

/-- The text that a symbol stands for, if its node is there. -/
def spanOf (tree : Tree) : Symbol → Except TreeError Span
  | .token token => .ok token.span
  | .node id => (·.span) <$> tree.node id

/-- Whether a symbol of a header hangs below its definition; the word that heads a block about the
schema itself is no name. -/
def isPart (header : Header) : Symbol → Bool
  | .token _ => header.kind.type ≠ .metadata
  | .node _ => true

/-- Takes a header and a body from the stack and makes a definition of them. -/
def takeDefinition (parser : Parser) (header : Header) (depth : Nat) (body : Option NodeId) :
    Attempt :=
  let (symbols, below) := parser.stack.splitOff (header.length + depth + 1)
  match symbols.head?, symbols.getLast? with
  | some first, some (.token closing) => .ofTree do
    let start ← spanOf parser.tree first
    let definition := parser.tree.nextId
    let names := (symbols.take header.length).filter (isPart header)
    let named ← (parser.tree.alloc header.kind (start.through closing.span)).attachAll definition names
    let grown ← match body with
      | some configs => named.addChild definition configs
      | none =>
        -- Without properties the list spans the two braces.
        let opening := match symbols[header.length]? with
          | some (.token opening) => opening.span
          | _ => closing.span
        (named.alloc .configs (opening.through closing.span)).addChild definition named.nextId
    return parser.set grown (.node definition :: below.symbols)
  -- With no token on top everything that was split off would be lost.
  | _, _ => .error (.lost symbols)

/-- Ends a definition, if a header stands in front of its body. -/
def attemptCloseCurly (parser : Parser) : Attempt :=
  let body := parser.nodeAt? 1 .configs
  let depth := if body.isSome then 2 else 1
  if parser.isTokenAt depth .openCurly then
    -- No header is longer than that.
    let parts := ((parser.stack.symbols.drop (depth + 1)).take maxHeader).map
      (HeaderPart.ofSymbol parser.tree)
    match Header.ofParts? parts with
    | some header => parser.takeDefinition header depth body
    | none => .ok none
  else .ok none

/-- Takes a definition or a suppression from the stack and hangs it below the file. -/
def attemptItem (parser : Parser) : Attempt :=
  let file := parser.nodeAt? 1 .file
  if file.isNone && parser.stack.size ≠ 1 then .ok none else parser.hangNode (fun _ => file) .file

/-- Carries out the rule that applies to the top of the stack, if there is one. -/
def attempt (parser : Parser) : Attempt :=
  match parser.stack.peek? 0 with
  | none => .ok none
  | some (.token top) =>
    if top.kind.isValue then parser.attemptValue
    else
      match top.kind with
      | .semicolon => parser.attemptSemicolon
      | .type => parser.attemptType
      | .identifier => parser.attemptWord
      | .closeCurly => parser.attemptCloseCurly
      | _ => .ok none
  -- A node on top goes to the list it belongs to.
  | some (.node id) =>
    if parser.tree.isOfType (.only .config) id then
      parser.hangNode (·.nodeAt? 0 .configs) .configs
    else if parser.tree.isOfType NodeTypes.toplevel id then parser.attemptItem
    else .ok none

/-- Warns of a suppression that ends a file, whose last child is looked up. -/
def attemptTrailing (parser : Parser) (file : NodeId) : Except TreeError Parser :=
  match (parser.tree.children file).getLast? with
  | none => .ok parser
  -- The last node is looked up by its identifier, which could fail.
  | some last => do
    let node ← parser.tree.node last
    return if node.type = .suppress then
      parser.record [.report (.warning .straySuppress node.span)] else parser

/-- Makes the file that is alone on the stack the root, or reports what keeps it from being one. -/
def attemptFinish (parser : Parser) (ending : Span) : Except TreeError Parser :=
  if parser.stack.isEmpty then do
    let tree ← (parser.tree.alloc .file ending).setRoot parser.tree.nextId
    return { parser with tree := tree }
  else
    match parser.nodeAt? 0 .file, decide (parser.stack.size = 1) with
    | some file, true => do
      let warned ← parser.attemptTrailing file
      let tree ← warned.tree.setRoot file
      return { warned with tree := tree }
    -- Anything but a file alone is refused, with all that is wrong about it.
    | _, _ => return parser.record ((parser.tree.syntaxErrors parser.stack.toList ending).map
        fun (problem, span) => .report (.located (.parse problem) span))

variable {parser : Parser} {below : List Symbol} {phrases : List Phrase}

/-- A symbol of some type is a live node. -/
theorem exists_node_of_node? {tree : Tree} {symbol : Symbol} {type : NodeType} {id : NodeId}
    (named : symbol.node? tree type = some id) : ∃ node, tree.get? id = some node := by
  -- A symbol of a type is a live node, as the type is read off the tree.
  obtain rfl := Tree.eq_of_node? named
  simp only [Symbol.node?, Option.ite_none_right_eq_some] at named
  obtain ⟨node, found, -⟩ := Tree.exists_of_isOfType named.1
  exact ⟨node, found⟩

/-- Hanging a symbol below the list in front of it, or a new one, is collecting it. -/
theorem hang_eq_collect (parser : Parser) (list : NodeKind) (symbol : Symbol) (span : Span) :
    parser.hang (parser.nodeAt? 0 list.type) list symbol span =
      parser.collect parser.tree list parser.stack.symbols symbol span := by
  unfold hang collect
  -- Both look for the list on top of the stack and attach the symbol to it.
  rw [nodeAt?, SymbolStack.peek?, ← List.head?_eq_getElem?]
  cases named : parser.stack.symbols.head?.bind (Symbol.node? parser.tree list.type) with
  | none => rfl
  | some id =>
    -- The list is live, so it can be stretched.
    obtain ⟨top, -, named⟩ := Option.bind_eq_some_iff.mp named
    obtain ⟨node, found⟩ := exists_node_of_node? named
    have live : parser.tree.node id = .ok node := by
      unfold Tree.node
      rw [found]
    simp only [Tree.stretch, live, bind, Except.bind, pure, Except.pure]
    rfl

/-- Attaching symbols in front of others is attaching all of them. -/
theorem attachAll_append (parent : NodeId) (tree : Tree) (first second : List Symbol) :
    tree.attachAll parent (first ++ second) =
      tree.attachAll parent first >>= fun grown => grown.attachAll parent second :=
  List.foldlM_append

/-- A new node is of no other type than its own. -/
theorem node?_alloc (tree : Tree) (kind : NodeKind) (span : Span) {type : NodeType}
    (other : kind.type ≠ type) (symbol : Symbol) :
    symbol.node? (tree.alloc kind span) type = symbol.node? tree type := by
  cases symbol with
  | token => rfl
  | node id =>
    have same : (tree.alloc kind span).isOfType (.only type) id = tree.isOfType (.only type) id := by
      unfold Tree.isOfType
      rw [Tree.get?_alloc]
      split
      · next fresh =>
        -- The handle of the new node named none before.
        subst fresh
        cases found : tree.get? tree.nextId with
        | none => simpa [Node.type] using other
        | some node => exact absurd rfl (Tree.ne_nextId found)
      · rfl
    simp only [Symbol.node?, same]

/-- A node of one type is of no other. -/
theorem isOfType_other {tree : Tree} {id : NodeId} {type other : NodeType}
    (typed : tree.isOfType (.only type) id = true) (apart : type ≠ other) :
    tree.isOfType (.only other) id = false := by
  -- The handle names one live node, and that has one type.
  obtain ⟨node, found, same⟩ := Tree.exists_of_isOfType_only typed
  rw [Tree.isOfType_of_get? found, same, decide_eq_false_iff_not, NodeTypes.mem_only]
  exact apart

section Top

variable {top : Symbol} (symbols : parser.stack.symbols = top :: below)

include symbols

/-- What is below the top of a stack is looked for in the rest. -/
theorem peek?_below (depth : Nat) : parser.stack.peek? (depth + 1) = below[depth]? := by
  rw [SymbolStack.peek?, symbols, List.getElem?_cons_succ]

/-- A node right below the top is the first of the rest. -/
theorem nodeAt?_one (type : NodeType) :
    parser.nodeAt? 1 type = below.head?.bind (Symbol.node? parser.tree type) := by
  rw [nodeAt?, peek?_below symbols, List.head?_eq_getElem?]

end Top

section Token

variable {top : Token} (symbols : parser.stack.symbols = .token top :: below)

include symbols

/-- A token that is taken from the stack leaves the rest. -/
theorem popToken?_eq : parser.popToken? = some (top, parser.set parser.tree below) := by
  simp only [popToken?, tokenAt?, SymbolStack.peek?, SymbolStack.pop, symbols, set,
    List.getElem?_cons_zero, Option.map_some, List.drop_succ_cons, List.drop_zero]

/-- A token that is taken is hung below the list in front of it, or below a new one. -/
theorem hangToken_eq {list? : Parser → Option NodeId} {list : NodeKind}
    (found : list? (parser.set parser.tree below) =
      (parser.set parser.tree below).nodeAt? 0 list.type) :
    parser.hangToken list? list =
      .ofTree (parser.collect parser.tree list below (.token top) top.span) := by
  unfold hangToken
  -- The token is taken first, so the list is looked for on top of what is left.
  rw [popToken?_eq symbols]
  dsimp only
  rw [found, hang_eq_collect]
  rfl

/-- A value is taken and put at the end of its list without a lapse. -/
theorem attemptValue_eq : parser.attemptValue = .ofTree (parser.readValue top below) :=
  hangToken_eq symbols rfl

/-- A type is taken and put at the end of its list without a lapse. -/
theorem attemptType_eq : parser.attemptType = .ofRule (parser.typeRule? top below) := by
  have hung : parser.hangToken (fun _ => below.head?.bind (Symbol.node? parser.tree .types))
      (.types []) = .ofTree (parser.collect parser.tree (.types []) below (.token top) top.span) :=
    hangToken_eq symbols (by rw [nodeAt?, SymbolStack.peek?, List.head?_eq_getElem?]; rfl)
  unfold attemptType typeRule?
  -- Both ask for a list below the type, or for a symbol that begins one.
  rw [nodeAt?_one symbols, peek?_below symbols, ← List.head?_eq_getElem?]
  dsimp only
  rw [hung, ← Option.not_isSome, ← Bool.not_or]
  cases (below.head?.bind (Symbol.node? parser.tree .types)).isSome || below.head?.any beginsTypes
  · rfl
  · rfl

/-- A token that is dropped leaves the rest, and a warning. -/
theorem dropTop_eq (warning : Warning) : parser.dropTop warning =
    .ok (some ((parser.record [.report (.warning warning top.span)]).set parser.tree below)) := by
  -- The top is a token, so taking it off succeeds.
  unfold dropTop
  rw [popToken?_eq symbols]
  rfl

omit symbols in
/-- A keyword, values and a semicolon are taken and made a property without a lapse. -/
theorem takeProperty_eq {semicolon keyword : Token} {values : NodeId} {outer : List Symbol}
    (symbols : parser.stack.symbols = .token semicolon :: .node values :: .token keyword :: outer) :
    parser.takeProperty values = .ofTree (parser.makeProperty keyword values semicolon outer) := by
  unfold takeProperty makeProperty
  -- The three symbols are those that were seen, and what lies below them is searched for
  -- suppressions.
  simp only [SymbolStack.splitOff, symbols, List.take_succ_cons, List.take_zero, List.reverse_cons,
    List.reverse_nil, List.nil_append, List.cons_append, List.drop_succ_cons, List.drop_zero,
    node?_alloc parser.tree .config _ (show NodeKind.config.type ≠ .suppress by decide)]
  refine congrArg Attempt.ofTree ?_
  generalize List.span _ outer = cut
  obtain ⟨suppressions, rest⟩ := cut
  -- The keyword and the values are attached behind the suppressions, one after the other.
  simp only [attachAll_append, bind_assoc]
  refine bind_congr fun marked => ?_
  simp only [Tree.attachAll, List.foldlM_cons, List.foldlM_nil, bind_assoc, pure_bind]
  rfl

/-- A semicolon ends a property or is dropped without a lapse. -/
theorem attemptSemicolon_eq :
    parser.attemptSemicolon = .ofRule (parser.semicolonRule? top below) := by
  unfold attemptSemicolon semicolonRule?
  -- What the rule finds below the semicolon decides which of its branches is taken.
  rw [nodeAt?_one symbols, nodeAt?_one symbols, dropTop_eq symbols, dropTop_eq symbols, isTokenAt,
    tokenAt?, peek?_below symbols, peek?_below symbols]
  cases below with
  | nil => rfl
  | cons first rest =>
    cases first with
    -- A token below is no node, so only the bracket is asked for.
    | token opening =>
      simp only [List.head?_cons, Option.bind_some, Symbol.node?, List.getElem?_cons_zero,
        Option.any_some, decide_eq_true_eq]
      split
      · rfl
      · rfl
    -- A node below is a list of values, a list of properties, or neither.
    | node id =>
      simp only [List.head?_cons, Option.bind_some, Symbol.node?, List.getElem?_cons_zero,
        List.getElem?_cons_succ, Option.any_none, Bool.false_eq_true, if_false]
      cases values : parser.tree.isOfType (.only .values) id with
      | false =>
        simp only [Bool.false_eq_true, if_false]
        cases parser.tree.isOfType (.only .configs) id <;> rfl
      | true =>
        -- Values are no properties, and end one if a keyword stands in front of them.
        simp only [isOfType_other values (show NodeType.values ≠ .configs by decide), if_true,
          Bool.false_eq_true, if_false]
        cases rest with
        | nil => rfl
        | cons second outer =>
          cases second with
          | node => rfl
          | token keyword =>
            simp only [List.getElem?_cons_zero, Option.any_some, Symbol.isKeyword]
            cases keyword.isKeyword with
            | false => rfl
            | true => exact takeProperty_eq symbols

/-- A modifier and a word are taken and made a suppression, or dropped, without a lapse. -/
theorem attemptWord_eq : parser.attemptWord = .ofRule (parser.wordRule? top below) := by
  unfold attemptWord wordRule?
  rw [tokenAt?, peek?_below symbols]
  match below with
  | [] | .node _ :: _ => rfl
  | .token modifier :: rest =>
    -- The two symbols are the word and the token below it.
    have taken : parser.stack.splitOff 2 = ([.token modifier, .token top], ⟨rest⟩) := by
      rw [SymbolStack.splitOff, symbols]
      rfl
    simp only [List.getElem?_cons_zero, Option.any_some, taken]
    have pair : (decide (modifier.kind = .modifier) && decide (modifier.text = "suppress")) =
        modifier.isSuppress := rfl
    rw [pair]
    cases modifier.isSuppress with
    | false => rfl
    | true => cases WarningClass.ofName? top.text <;> rfl

end Token

/-- Which types a header ends with is told by its last four parts. -/
theorem typesForm_four (a b c d : HeaderPart) (first second : List HeaderPart) :
    TypesForm.ofParts (a :: b :: c :: d :: first) = TypesForm.ofParts (a :: b :: c :: d :: second) := by
  -- The pattern asks for the last part first, and goes on only behind one that fits.
  cases a <;> first | rfl | skip
  all_goals cases b <;> first | rfl | skip
  all_goals cases c <;> first | rfl | skip
  all_goals cases d <;> rfl

/-- Which names a header without its types ends with is told by its last four parts. -/
theorem namesForm_four (a b c d : HeaderPart) (first second : List HeaderPart) :
    NamesForm.ofParts? (a :: b :: c :: d :: first) =
      NamesForm.ofParts? (a :: b :: c :: d :: second) := by
  -- The longest form has four parts, so what stands behind them is never looked at.
  cases a <;> first | rfl | skip
  all_goals cases b <;> first | rfl | skip
  all_goals cases c <;> first | rfl | skip
  all_goals cases d <;> rfl

/-- What is told by four parts is told by the first ones of a list. -/
theorem ofParts_take {α : Type} {form : List HeaderPart → α}
    (four : ∀ a b c d first second,
      form (a :: b :: c :: d :: first) = form (a :: b :: c :: d :: second))
    (parts : List HeaderPart) (more : Nat) : form (parts.take (more + 4)) = form parts := by
  match parts with
  -- Fewer than four parts are all taken.
  | [] | [_] | [_, _] | [_, _, _] => rfl
  | a :: b :: c :: d :: rest => exact four a b c d _ _

/-- The types of a header are at most four parts. -/
theorem length_typesForm_le (parts : List HeaderPart) : (TypesForm.ofParts parts).length ≤ 4 := by
  unfold TypesForm.ofParts
  split <;> simp

/-- A header is found among as many symbols as a header can have, if it is found at all. -/
theorem header_take (parts : List HeaderPart) :
    Header.ofParts? (parts.take maxHeader) = Header.ofParts? parts := by
  cases parts with
  | nil => rfl
  | cons first rest =>
    -- The types are found first, and the names among what is left of the parts.
    have types : TypesForm.ofParts ((first :: rest).take maxHeader) =
        TypesForm.ofParts (first :: rest) := ofParts_take typesForm_four _ 4
    -- At least four parts are left for the names.
    have few := length_typesForm_le (first :: rest)
    obtain ⟨more, most⟩ : ∃ more,
        maxHeader - (TypesForm.ofParts (first :: rest)).length = more + 4 :=
      ⟨4 - (TypesForm.ofParts (first :: rest)).length, by unfold maxHeader; omega⟩
    have same : (NamesForm.ofParts? (((first :: rest).take maxHeader).drop
          (TypesForm.ofParts ((first :: rest).take maxHeader)).length)).bind
          (Header.ofForms? · (TypesForm.ofParts ((first :: rest).take maxHeader))) =
        (NamesForm.ofParts? ((first :: rest).drop (TypesForm.ofParts (first :: rest)).length)).bind
          (Header.ofForms? · (TypesForm.ofParts (first :: rest))) := by
      rw [types, List.drop_take, most, ofParts_take namesForm_four]
    cases first <;> first | rfl | exact same

/-- A header and a body are taken and made a definition without a lapse, if the header starts with a
token and its word for the schema itself stands alone. -/
theorem takeDefinition_eq {header : Header} {depth : Nat} {body : Option NodeId}
    {heading inner rest : List Symbol} {first opening closing : Token}
    (taken : parser.stack.splitOff (header.length + depth + 1) =
      (heading ++ .token opening :: inner, ⟨rest.drop header.length⟩))
    (named : heading = (rest.take header.length).reverse) (full : heading.length = header.length)
    (starts : heading.head? = some (.token first)) (ends : inner.getLast? = some (.token closing))
    (alone : header.kind.type = .metadata → heading = [.token first]) :
    parser.takeDefinition header depth body =
      .ofTree (parser.makeDefinition header opening body closing rest) := by
  have names : heading.filter (isPart header) =
      -- Only the word for the schema itself is no part of its definition.
      if header.kind.type = .metadata then [] else heading := by
    split
    · next schema =>
      rw [alone schema]
      simp [isPart, schema]
    · next other =>
      refine List.filter_eq_self.mpr fun symbol _ => ?_
      cases symbol with
      | token => simpa [isPart] using other
      | node => rfl
  -- The first and the last of the symbols that were taken are tokens.
  have front : (heading ++ .token opening :: inner).head? = some (.token first) := by
    rw [List.head?_append, starts]
    rfl
  have back : (heading ++ .token opening :: inner).getLast? = some (.token closing) := by
    rw [List.getLast?_append, List.getLast?_cons, ends]
    rfl
  -- The header is what stands in front of the opening bracket.
  have head : (heading ++ .token opening :: inner).take header.length = heading := by
    rw [← full, List.take_left]
  have bracket : (heading ++ .token opening :: inner)[header.length]? = some (.token opening) := by
    rw [← full, List.getElem?_append_right (Nat.le_refl _), Nat.sub_self]
    rfl
  unfold takeDefinition makeDefinition
  -- What is left are the same steps on the same tree.
  rw [taken]
  simp only [front, back, head, bracket, names, ← named, starts, Option.bind_some, Symbol.span?,
    Option.getD_some, spanOf]
  rfl

/-- Names, in brackets or without them, start with a token. -/
theorem startsWithToken_names {labelled optional : Bool} {labels : List Label} {front : List Phrase}
    (given : Phrase.InSquares (Phrase.NamesFront labelled labels) optional front) :
    ∃ first more, front.reverse = .token first :: more := by
  cases given with
  -- Brackets start with one of them, and names without them are tokens.
  | bare inner => cases inner <;> exact ⟨_, _, rfl⟩
  | brackets => exact ⟨_, _, List.reverse_concat⟩

/-- A header starts with a token, and the word for the schema itself is all of its header. -/
theorem startsWithToken_header {heading : Heading} {front : List Phrase}
    (headed : Phrase.Headed heading front) : ∃ first more, front.reverse = .token first :: more ∧
      (heading.form.kind.type = .metadata → more = []) := by
  cases headed with
  | metadata => exact ⟨_, [], rfl, fun _ => rfl⟩
  | typeDefinition => exact ⟨_, [], rfl, fun _ => rfl⟩
  | flag names =>
    obtain ⟨first, more, starts⟩ := startsWithToken_names names
    exact ⟨first, more, starts, nofun⟩
  | positional names | option names =>
    -- The names stand in front of the types.
    obtain ⟨first, more, starts⟩ := startsWithToken_names names
    rw [List.reverse_append, starts]
    exact ⟨first, _, rfl, nofun⟩

/-- A header that the stack shows and the body behind it are taken and made a definition without a
lapse. -/
theorem takeDefinition_of_header {header : Header} {body : Option NodeId} {opening closing : Token}
    {inner rest : List Symbol} (stacked : Stacked parser.tree rest phrases)
    (found : Header.ofParts? (phrases.map Phrase.part) = some header)
    (symbols : parser.stack.symbols = .token closing :: (inner ++ .token opening :: rest)) :
    parser.takeDefinition header (inner.length + 1) body =
      .ofTree (parser.makeDefinition header opening body closing rest) := by
  obtain ⟨heading, front, others, rfl, length, kind, headed⟩ := Phrase.headed_of_parts found
  -- The phrases in front of the body are those of a header.
  obtain ⟨first, more, starts, alone⟩ := startsWithToken_header headed
  have size := stacked.shown.length_eq
  rw [List.length_map, List.length_append] at size
  have full : (rest.take front.length).length = front.length := by
    rw [List.length_take]
    omega
  -- The symbols of the header show its phrases, so the first of them is a token too.
  have whole := stacked
  rw [← List.take_append_drop front.length rest] at whole
  have shown := List.forall₂_reverse_iff.mpr (whole.split full).1
  rw [← List.map_reverse, starts] at shown
  generalize named : (rest.take front.length).reverse = names at shown
  cases shown with
  | @cons symbol _ names _ head tail =>
    -- A symbol that shows a token is that token.
    cases symbol with
    | node => cases head
    | token token =>
      cases head
      have cut : parser.stack.symbols =
          (.token closing :: inner ++ [.token opening]) ++ rest := by simp [symbols]
      have count : header.length + (inner.length + 1) + 1 =
          (.token closing :: inner ++ [Symbol.token opening]).length + front.length := by
        simp only [length, List.length_append, List.length_cons, List.length_nil]
        omega
      have taken : parser.stack.splitOff (header.length + (inner.length + 1) + 1) =
          (.token first :: names ++ .token opening :: (inner.reverse ++ [.token closing]),
            ⟨rest.drop header.length⟩) := by
        rw [SymbolStack.splitOff, cut, count, List.take_length_add_append,
          List.drop_length_add_append, length, List.reverse_append, named]
        simp
      -- With the symbols split at the bracket, the definition is made of them.
      refine takeDefinition_eq taken (length ▸ named.symm) ?_ rfl List.getLast?_concat
        fun schema => ?_
      · rw [← named, List.length_reverse, full, length]
      · rw [alone (kind ▸ schema)] at tail
        cases tail
        rfl

/-- A body with a header in front of it is taken and made a definition without a lapse. -/
theorem Shows.attemptCloseCurly_eq {closing : Token}
    (shows : parser.Shows (.token closing :: phrases))
    (symbols : parser.stack.symbols = .token closing :: below) :
    parser.attemptCloseCurly = .ofRule (parser.closeCurlyRule? closing below) := by
  have stacked : Stacked parser.tree (.token closing :: below) (.token closing :: phrases) :=
    symbols ▸ shows
  unfold attemptCloseCurly closeCurlyRule?
  rw [nodeAt?_one symbols]
  dsimp only
  generalize bodyTop : below.head?.bind (Symbol.node? parser.tree .configs) = body
  generalize bodyRest : (if body.isSome = true then below.drop 1 else below) = front
  have stacked' := (splitBody_stacked stacked.tail bodyTop bodyRest).1
  -- Between the bracket and what stands in front of the body there is at most the body.
  obtain ⟨inner, behind, depth⟩ : ∃ inner, below = inner ++ front ∧
      (if body.isSome = true then 2 else 1) = inner.length + 1 := by
    rw [← bodyRest]
    cases body with
    | none => exact ⟨[], rfl, rfl⟩
    | some id =>
      obtain ⟨top, first, -⟩ := Option.bind_eq_some_iff.mp bodyTop
      obtain ⟨rest, rfl⟩ := List.head?_eq_some_iff.mp first
      exact ⟨[top], rfl, rfl⟩
  subst behind
  -- So the depth at which the rule looks is that of the front.
  have dropped : parser.stack.symbols.drop (inner.length + 1) = front := by
    rw [symbols, List.drop_succ_cons, List.drop_left]
  have reached : parser.stack.symbols[inner.length + 1]? = front[0]? := by
    rw [← dropped, List.getElem?_drop, Nat.add_zero]
  have further : parser.stack.symbols.drop (inner.length + 1 + 1) = front.drop 1 := by
    rw [← dropped, List.drop_drop]
  simp only [depth, isTokenAt, tokenAt?, SymbolStack.peek?, reached, further]
  match front, stacked' with
  | [], _ => rfl
  | .node id :: rest, _ => rfl
  | .token opening :: rest, stacked' =>
    obtain ⟨phrase, others, same⟩ := stacked'.uncons
    -- The header is judged by at most as many symbols as the longest one has.
    rw [same] at stacked'
    simp only [List.getElem?_cons_zero, Option.any_some, decide_eq_true_eq, List.drop_succ_cons,
      List.drop_zero, List.map_take, header_take, Header.ofSymbols?, map_eq_of_shows stacked'.tail]
    split
    · cases found : Header.ofParts? (others.map Phrase.part) with
      | none => rfl
      | some header => exact takeDefinition_of_header stacked'.tail found symbols
    · rfl

section Node

variable {id : NodeId} (symbols : parser.stack.symbols = .node id :: below)

include symbols

/-- A node that is taken is hung below the list in front of it, or below a new one. -/
theorem hangNode_eq {list? : Parser → Option NodeId} {list : NodeKind}
    (found : list? (parser.set parser.tree below) =
      (parser.set parser.tree below).nodeAt? 0 list.type) :
    parser.hangNode list? list = .ofTree (parser.gather list id below) := by
  have popped : ({ parser with stack := parser.stack.pop } : Parser) =
      parser.set parser.tree below := by
    rw [SymbolStack.pop, symbols]
    rfl
  unfold hangNode gather
  -- The node is taken, and its span is looked up before it is hung below the list.
  rw [popped, SymbolStack.peek?, symbols]
  simp only [List.getElem?_cons_zero, found, hang_eq_collect]
  rfl

/-- A definition or a suppression is taken and hung below the file without a lapse. -/
theorem attemptItem_eq : parser.attemptItem = .ofRule
    (if below.isEmpty || (below.head?.bind (Symbol.node? parser.tree .file)).isSome then
      some (parser.gather .file id below)
    else none) := by
  have hung : parser.hangNode (fun _ => below.head?.bind (Symbol.node? parser.tree .file)) .file =
      .ofTree (parser.gather .file id below) :=
    hangNode_eq symbols (by rw [nodeAt?, SymbolStack.peek?, List.head?_eq_getElem?]; rfl)
  unfold attemptItem
  -- The file is looked for below the item, before the item is taken.
  rw [nodeAt?_one symbols, SymbolStack.size, symbols]
  dsimp only
  rw [hung]
  -- The item is alone on the stack when nothing is below it.
  cases below with
  | nil => rfl
  | cons first rest =>
    cases (first :: rest).head?.bind (Symbol.node? parser.tree .file) with
    | some file => rfl
    | none => simp [Attempt.ofRule]

/-- The rule for a node on top of the stack is carried out without a lapse. -/
theorem attempt_eq_of_node : parser.attempt = .ofRule parser.reduction? := by
  unfold attempt reduction?
  rw [SymbolStack.peek?, symbols]
  dsimp only [List.getElem?_cons_zero]
  split
  -- Properties go to their list and items to the file; other nodes wait.
  · exact hangNode_eq symbols rfl
  · split
    · exact attemptItem_eq symbols
    · rfl

end Node

/-- The rule for the top of a stack that shows phrases is carried out without a lapse. -/
theorem Shows.attempt_eq (shows : parser.Shows phrases) :
    parser.attempt = .ofRule parser.reduction? := by
  cases symbols : parser.stack.symbols with
  | nil => rw [attempt, reduction?, SymbolStack.peek?, symbols]; rfl
  | cons first below =>
    cases first with
    | node id => exact attempt_eq_of_node symbols
    | token top =>
      have stacked : Stacked parser.tree (.token top :: below) phrases := symbols ▸ shows
      obtain ⟨phrase, others, rfl⟩ := stacked.uncons
      cases phrase with
      | token given =>
        cases stacked.head
        unfold attempt reduction?
        rw [SymbolStack.peek?, symbols]
        dsimp only [List.getElem?_cons_zero]
        -- Each kind of token has its rule, and most have none.
        split
        · exact attemptValue_eq symbols
        · cases top.kind with
          | semicolon => exact attemptSemicolon_eq symbols
          | type => exact attemptType_eq symbols
          | identifier => exact attemptWord_eq symbols
          | closeCurly => exact shows.attemptCloseCurly_eq symbols
          | _ => rfl
      | _ => cases stacked.head

/-- A warning changes no tree. -/
theorem tree_warnTrailing (parser : Parser) (file : NodeId) :
    (parser.warnTrailing file).tree = parser.tree := by
  -- Only a warning is recorded.
  unfold warnTrailing
  split
  · split <;> rfl
  · rfl

/-- The last child of a file is there, so the look at it is not refused. -/
theorem attemptTrailing_eq (forest : parser.tree.Forest) (file : NodeId) :
    parser.attemptTrailing file = .ok (parser.warnTrailing file) := by
  unfold attemptTrailing warnTrailing Tree.children
  -- Children are live in a well-formed tree.
  cases live : parser.tree.get? file with
  | none => rfl
  | some node =>
    rw [Option.map_some, Option.getD_some]
    cases last : node.children.getLast? with
    | none => rfl
    | some id =>
      obtain ⟨child, found, -⟩ := forest.child live id (List.mem_of_getLast? last)
      have given : parser.tree.node id = .ok child := by rw [Tree.node, found]
      simp only [given, Option.bind_some, found]
      rfl

/-- The end of a stream is read without a lapse. -/
theorem attemptFinish_eq (forest : parser.tree.Forest) (ending : Span) :
    parser.attemptFinish ending = parser.finish ending := by
  unfold attemptFinish finish nodeAt?
  rw [SymbolStack.isEmpty, SymbolStack.peek?, SymbolStack.size]
  match symbols : parser.stack.symbols with
  | [] => rfl
  | [.token _] => rfl
  | [.node file] =>
    simp only [List.isEmpty_cons, Bool.false_eq_true, if_false, List.getElem?_cons_zero,
      Option.bind_some, Symbol.node?, List.length_singleton, decide_true]
    cases parser.tree.isOfType (.only .file) file with
    | false => rfl
    | true =>
      simp only [if_true, attemptTrailing_eq forest, bind, Except.bind, tree_warnTrailing]
  | first :: second :: rest =>
    have many : decide ((first :: second :: rest).length = 1) = false := by simp
    rw [many]
    -- Whatever the lowest symbol is, more than one symbol is no file.
    cases (first :: second :: rest)[0]?.bind (Symbol.node? parser.tree .file) <;> cases first <;> rfl

end Parser

end ArgSchema
