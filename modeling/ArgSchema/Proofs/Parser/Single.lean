import ArgSchema.Proofs.Parser.Marks

/-! Single reductions: one rule at a time, and why no sequence of them goes on forever. -/

namespace ArgSchema

namespace Parser

/-- Hangs the node on top of the stack below the list node in front of it, or below a new one there. -/
def gather (parser : Parser) (list : NodeKind) (id : NodeId) (below : List Symbol) :
    Except TreeError Parser := do
  let node ← parser.tree.node id
  parser.collect parser.tree list below (.node id) node.span

/-- Makes a property of a keyword, its values and the suppressions in front of it, and leaves it on
the stack. -/
def makeProperty (parser : Parser) (keyword : Token) (values : NodeId) (semicolon : Token)
    (below : List Symbol) : Except TreeError Parser := do
  let tree := parser.tree
  let isSuppression := fun symbol => (Symbol.node? tree .suppress symbol).isSome
  let (suppressions, rest) := below.span isSuppression
  let parts := suppressions.reverse ++ [.token keyword, .node values]
  let grown ← (tree.alloc .config (keyword.span.through semicolon.span)).attachAll tree.nextId parts
  -- The property is left on the stack; taking it up in a list is another rule.
  return parser.set grown (.node tree.nextId :: rest)

/-- The rule for a semicolon: a property ends, or a semicolon that closes nothing is dropped. -/
def semicolonRule? (parser : Parser) (semicolon : Token) (below : List Symbol) :
    Option (Except TreeError Parser) :=
  let dropped := fun warning =>
    some (.ok ((parser.record [.report (.warning warning semicolon.span)]).set parser.tree below))
  match below with
  | .token opening :: _ => if opening.kind = .openCurly then dropped .emptyStatement else none
  | .node id :: rest =>
    if parser.tree.isOfType (.only .configs) id then dropped .straySemicolon
    else
      match parser.tree.isOfType (.only .values) id, rest with
      | true, .token keyword :: outer =>
        if keyword.isKeyword then some (parser.makeProperty keyword id semicolon outer) else none
      | _, _ => none
  | [] => none

/-- The rule for a type: it goes to an argument's types. -/
def typeRule? (parser : Parser) (type : Token) (below : List Symbol) :
    Option (Except TreeError Parser) :=
  let list? := below.head?.bind (Symbol.node? parser.tree .types)
  -- A type is one of a list only behind such a list, or where one can begin.
  if list?.isSome || below.head?.any beginsTypes then
    some (parser.collect parser.tree (.types []) below (.token type) type.span)
  else none

/-- The rule for a word: behind its modifier it is a suppression, which is dropped if its class is
unknown. -/
def wordRule? (parser : Parser) (word : Token) (below : List Symbol) :
    Option (Except TreeError Parser) :=
  match below with
  | .token modifier :: rest =>
    if modifier.kind = .modifier && modifier.text = "suppress" then
      match WarningClass.ofName? word.text with
      | some kind =>
        let tree := parser.tree.alloc (.suppress kind) (modifier.span.through word.span)
        some (.ok ((parser.record [.suppress kind]).set tree (.node parser.tree.nextId :: rest)))
      | none =>
        let problem := Problem.parse (.unknownWarning word.text)
        some (.ok ((parser.record [.report (.located problem word.span)]).set parser.tree rest))
    else none
  | _ => none

/-- Makes a definition of a header and a body, and leaves it on the stack. -/
def makeDefinition (parser : Parser) (header : Header) (opening : Token) (body : Option NodeId)
    (closing : Token) (below : List Symbol) : Except TreeError Parser := do
  let tree := parser.tree
  let definition := tree.nextId
  let heading := (below.take header.length).reverse
  let start := (heading.head?.bind (Symbol.span? tree)).getD opening.span
  let names := if header.kind.type = .metadata then [] else heading
  let named ← (tree.alloc header.kind (start.through closing.span)).attachAll definition names
  let grown ← match body with
    | some configs => named.addChild definition configs
    | none =>
      (named.alloc .configs (opening.span.through closing.span)).addChild definition named.nextId
  -- The definition is left on the stack; taking it up in the file is another rule.
  return parser.set grown (.node definition :: below.drop header.length)

/-- The rule for a closing curly bracket: behind a header and a body it ends a definition. -/
def closeCurlyRule? (parser : Parser) (closing : Token) (below : List Symbol) :
    Option (Except TreeError Parser) :=
  let body := below.head?.bind (Symbol.node? parser.tree .configs)
  match if body.isSome then below.drop 1 else below with
  | .token opening :: rest =>
    if opening.kind = .openCurly then
      (Header.ofSymbols? parser.tree rest).map fun header =>
        parser.makeDefinition header opening body closing rest
    else none
  | _ => none

/-- The one reduction that applies to the top of the stack, if there is one: the smallest step in
which the stack changes without a token being read. -/
def reduction? (parser : Parser) : Option (Except TreeError Parser) :=
  match parser.stack.symbols with
  | [] => none
  | .token top :: below =>
    if top.kind.isValue then some (parser.readValue top below)
    else
      match top.kind with
      | .semicolon => parser.semicolonRule? top below
      | .type => parser.typeRule? top below
      | .identifier => parser.wordRule? top below
      | .closeCurly => parser.closeCurlyRule? top below
      | _ => none
  | .node id :: below =>
    if parser.tree.isOfType (.only .config) id then some (parser.gather .configs id below)
    else if parser.tree.isOfType NodeTypes.toplevel id then
      -- Behind something that is open an item waits for the bracket that closes it.
      if below.isEmpty || (below.head?.bind (Symbol.node? parser.tree .file)).isSome then
        some (parser.gather .file id below)
      else none
    else none

/-- A parser comes to be another one by a single reduction. -/
def Reduces (parser next : Parser) : Prop := parser.reduction? = some (.ok next)

/-- How far the top of the stack is from being a part of a list. -/
def pending (parser : Parser) : Nat :=
  match parser.stack.symbols with
  | [] => 0
  -- A token can become a node, which can become part of a list.
  | .token _ :: _ => 2
  | .node id :: _ =>
    if parser.tree.isOfType (.only .config) id || parser.tree.isOfType NodeTypes.toplevel id then 1
    else 0

/-- What is left to be reduced: the symbols count more than what the top one can still become. -/
def load (parser : Parser) : Nat := 3 * parser.stack.symbols.length + parser.pending

variable {parser next : Parser} {tree : Tree} {list : NodeKind} {below : List Symbol}
  {symbol : Symbol} {span : Span}

/-- The top of a stack is never far from being a part of a list. -/
theorem pending_le (parser : Parser) : parser.pending ≤ 2 := by
  -- A token or a property on top counts two at most.
  unfold pending
  split
  · omega
  · omega
  · split <;> omega

/-- A stack with fewer symbols has less left to be reduced. -/
theorem load_lt_of_length (fewer : next.stack.symbols.length < parser.stack.symbols.length) :
    next.load < parser.load := by
  -- A symbol weighs more than everything that is pending.
  have light := next.pending_le
  unfold load
  omega

/-- A collected symbol leaves the list in front of it on top of the stack, or a new list. -/
theorem collect_ok (done : parser.collect tree list below symbol span = .ok next) :
    next.stack.symbols = below ∨ next.stack.symbols = .node tree.nextId :: below ∧
      next.tree.mark? tree.nextId = some (list, span) := by
  -- The symbol is hung below a list that was there, or below a new one.
  unfold collect at done
  split at done
  · -- There is a list in front of the symbol.
    obtain ⟨grown, -, done⟩ := ok_of_bind done
    cases done
    exact .inl rfl
  · -- A list is made, and hanging the symbol below it leaves what it is.
    obtain ⟨grown, attached, done⟩ := ok_of_bind done
    cases done
    exact .inr ⟨rfl, Tree.mark?_attach attached (Tree.mark?_alloc_nextId tree list span)⟩

/-- Collecting the top of a stack leaves less to be reduced if the list is a smaller thing. -/
theorem load_lt_of_collect (top : parser.stack.symbols = symbol :: below)
    (done : parser.collect tree list below symbol span = .ok next)
    (inert : list.type ≠ .config ∧ list.type ∉ NodeTypes.toplevel) (waiting : 0 < parser.pending) :
    next.load < parser.load := by
  -- Either the stack is shorter, or what is on top of it has no rule.
  rcases collect_ok done with same | ⟨same, marked⟩
  · -- The symbol is gone, and three units with it.
    exact load_lt_of_length (by rw [same, top]; exact Nat.lt_succ_self _)
  · -- A new list on top takes no part in a rule.
    have settled : next.pending = 0 := by
      rw [pending, same]
      simp only [Tree.isOfType_of_mark? marked, NodeTypes.mem_only, inert.1, inert.2, decide_false,
        Bool.or_false, Bool.false_eq_true, if_false]
    unfold load
    rw [settled, same, top]
    simp only [List.length_cons]
    omega

/-- A property that is made takes the suppressions in front of its keyword and stands in their place. -/
theorem makeProperty_ok {keyword semicolon : Token} {values : NodeId}
    (made : parser.makeProperty keyword values semicolon below = .ok next) :
    next.events = parser.events ∧
      next.stack.symbols = .node parser.tree.nextId ::
        below.dropWhile (fun symbol => (Symbol.node? parser.tree .suppress symbol).isSome) ∧
      (parser.tree.alloc .config (keyword.span.through semicolon.span)).attachAll
        parser.tree.nextId ((below.takeWhile fun symbol =>
          (Symbol.node? parser.tree .suppress symbol).isSome).reverse ++
            [.token keyword, .node values]) = .ok next.tree := by
  unfold makeProperty at made
  -- The suppressions in front of the keyword are taken, and what is left of the stack stays.
  simp only [List.span_eq_takeWhile_dropWhile] at made
  obtain ⟨grown, attached, made⟩ := ok_of_bind made
  cases made
  exact ⟨rfl, rfl, attached⟩

/-- A definition that is made takes the names of its header and its properties, which are a new list
if it has none, and stands in the place of them all. -/
theorem makeDefinition_ok {header : Header} {opening closing : Token} {body : Option NodeId}
    (made : parser.makeDefinition header opening body closing below = .ok next) :
    next.events = parser.events ∧
      next.stack.symbols = .node parser.tree.nextId :: below.drop header.length ∧
      ∃ named names, names ⊆ below ∧
        (parser.tree.alloc header.kind ((((below.take header.length).reverse.head?.bind
          (Symbol.span? parser.tree)).getD opening.span).through closing.span)).attachAll
          parser.tree.nextId names = .ok named ∧
        ((∃ configs, named.addChild parser.tree.nextId configs = .ok next.tree) ∨
          (named.alloc .configs (opening.span.through closing.span)).addChild parser.tree.nextId
            named.nextId = .ok next.tree) := by
  obtain ⟨named, attached, made⟩ := ok_of_bind made
  -- A block that describes the schema has no names, and the names of others are in their header.
  have inside : (if header.kind.type = .metadata then [] else (below.take header.length).reverse) ⊆
      below := by
    split
    · exact List.nil_subset _
    · exact fun symbol member => List.mem_of_mem_take (List.mem_reverse.mp member)
  cases body with
  | none =>
    obtain ⟨grown, linked, made⟩ := ok_of_bind made
    cases made
    exact ⟨rfl, rfl, named, _, inside, attached, .inr linked⟩
  | some configs =>
    obtain ⟨grown, linked, made⟩ := ok_of_bind made
    cases made
    exact ⟨rfl, rfl, named, _, inside, attached, .inl ⟨configs, linked⟩⟩

/-- What a single reduction can be. -/
inductive Rule (parser next : Parser) : Prop
  /-- The top of the stack goes to a list, which is no part of a rule itself. -/
  | collect {symbol : Symbol} {below : List Symbol} {list : NodeKind} {span : Span} :
      parser.stack.symbols = symbol :: below → symbol.span? parser.tree = some span →
      0 < parser.pending → list.type ≠ .config ∧ list.type ∉ NodeTypes.toplevel →
      parser.collect parser.tree list below symbol span = .ok next → Rule parser next
  /-- The top of the stack is dropped. -/
  | drop {top : Symbol} {below rest : List Symbol} {events : List Event} :
      parser.stack.symbols = top :: below → rest <:+ below →
      next = (parser.record events).set parser.tree rest → Rule parser next
  /-- A suppression is made. -/
  | suppress {word modifier : Token} {rest : List Symbol} {kind : WarningClass} :
      parser.stack.symbols = .token word :: .token modifier :: rest →
      next = (parser.record [.suppress kind]).set
        (parser.tree.alloc (.suppress kind) (modifier.span.through word.span))
        (.node parser.tree.nextId :: rest) → Rule parser next
  /-- A property is made. -/
  | property {semicolon keyword : Token} {values : NodeId} {outer : List Symbol} :
      parser.stack.symbols = .token semicolon :: .node values :: .token keyword :: outer →
      parser.makeProperty keyword values semicolon outer = .ok next → Rule parser next
  /-- A definition is made. -/
  | definition (front : List Symbol) {closing opening : Token} {rest : List Symbol}
      {header : Header} {body : Option NodeId} :
      parser.stack.symbols = .token closing :: (front ++ .token opening :: rest) →
      parser.makeDefinition header opening body closing rest = .ok next → Rule parser next

/-- The rule for a semicolon makes a property or drops the semicolon. -/
theorem rule_of_semicolon {semicolon : Token}
    (top : parser.stack.symbols = .token semicolon :: below)
    (done : parser.semicolonRule? semicolon below = some (.ok next)) : Rule parser next := by
  -- The rule for a semicolon drops it or makes a property.
  unfold semicolonRule? at done
  split at done
  · -- Behind an opening bracket the statement is empty.
    split at done
    · exact .drop top (List.suffix_refl _) (Except.ok.inj (Option.some.inj done)).symm
    · cases done
  · split at done
    · -- Behind properties the semicolon closes nothing.
      exact .drop top (List.suffix_refl _) (Except.ok.inj (Option.some.inj done)).symm
    · -- Behind values it closes a property if a keyword stands in front of them.
      split at done
      · split at done
        · exact .property top (Option.some.inj done)
        · cases done
      · cases done
  · cases done

/-- The rule for a word makes a suppression or drops the word and its modifier. -/
theorem rule_of_word {word : Token} (top : parser.stack.symbols = .token word :: below)
    (done : parser.wordRule? word below = some (.ok next)) : Rule parser next := by
  unfold wordRule? at done
  -- A known word makes a suppression, and an unknown one is dropped; else there is no rule.
  split at done
  · split at done
    · split at done
      · exact .suppress top (Except.ok.inj (Option.some.inj done)).symm
      · exact .drop top (List.suffix_cons _ _) (Except.ok.inj (Option.some.inj done)).symm
    · cases done
  · cases done

/-- The rule for a closing curly bracket makes a definition. -/
theorem rule_of_closeCurly {closing : Token} (top : parser.stack.symbols = .token closing :: below)
    (done : parser.closeCurlyRule? closing below = some (.ok next)) : Rule parser next := by
  unfold closeCurlyRule? at done
  dsimp only at done
  split at done
  · next opening rest cut =>
    split at done
    · obtain ⟨header, -, made⟩ := Option.map_eq_some_iff.mp done
      -- The body stands between the brackets, if there is one.
      split at cut
      · refine .definition (below.take 1) ?_ made
        rw [top, ← cut, List.take_append_drop]
      · refine .definition [] ?_ made
        rw [top, cut, List.nil_append]
    · cases done
  · cases done

/-- A node that is gathered goes to a list. -/
theorem rule_of_gather {id : NodeId} (top : parser.stack.symbols = .node id :: below)
    (waiting : 0 < parser.pending)
    (inert : list.type ≠ .config ∧ list.type ∉ NodeTypes.toplevel)
    (done : parser.gather list id below = .ok next) : Rule parser next := by
  obtain ⟨node, found, collected⟩ := ok_of_bind done
  refine .collect top ?_ waiting inert collected
  -- The node was found, so its span is that of its symbol.
  rw [Symbol.span?, Tree.get?_of_node found]
  rfl

/-- A single reduction is one by some rule. -/
theorem Reduces.rule (reduces : parser.Reduces next) : Rule parser next := by
  unfold Reduces reduction? at reduces
  split at reduces
  · cases reduces
  · next top below symbols =>
    have waiting : 0 < parser.pending := by
      rw [pending, symbols]
      exact Nat.zero_lt_two
    -- What applies to a token depends on its kind: values and types are collected.
    split at reduces
    · exact .collect symbols rfl waiting ⟨by decide, by decide⟩ (Option.some.inj reduces)
    · split at reduces
      · exact rule_of_semicolon symbols reduces
      · unfold typeRule? at reduces
        dsimp only at reduces
        split at reduces
        · exact .collect symbols rfl waiting ⟨by decide, by decide⟩ (Option.some.inj reduces)
        · cases reduces
      · exact rule_of_word symbols reduces
      · exact rule_of_closeCurly symbols reduces
      · cases reduces
  · next id below symbols =>
    -- Of the nodes, properties are gathered, and parts of a file are.
    split at reduces
    · next config =>
      refine rule_of_gather symbols ?_ ⟨by decide, by decide⟩ (Option.some.inj reduces)
      rw [pending, symbols]
      simp [config]
    · split at reduces
      · next toplevel =>
        split at reduces
        · refine rule_of_gather symbols ?_ ⟨by decide, by decide⟩ (Option.some.inj reduces)
          rw [pending, symbols]
          simp [toplevel]
        · cases reduces
      · cases reduces

/-- Every single reduction leaves less to be reduced. -/
theorem Reduces.load_lt (reduces : parser.Reduces next) : next.load < parser.load := by
  cases reduces.rule with
  | collect top _ waiting inert done =>
    -- The one rule that can keep the number of symbols, and then their top settles.
    exact load_lt_of_collect top done inert waiting
  | @drop _ below rest _ top behind same =>
    subst same
    have shorter := behind.length_le
    refine load_lt_of_length ?_
    rw [top]
    exact Nat.lt_succ_of_le shorter
  | suppress top same =>
    subst same
    refine load_lt_of_length ?_
    rw [top]
    exact Nat.lt_succ_self _
  | @property _ _ _ outer top made =>
    -- Three symbols, and suppressions in front of them, become one.
    have left := (makeProperty_ok made).2.1
    have shorter := List.length_dropWhile_le
      (fun symbol => (Symbol.node? parser.tree .suppress symbol).isSome) outer
    refine load_lt_of_length ?_
    rw [left, top]
    simp only [List.length_cons]
    omega
  | definition _ top made =>
    -- Two brackets at least become one symbol.
    have left := (makeDefinition_ok made).2.1
    refine load_lt_of_length ?_
    rw [left, top]
    simp only [List.length_cons, List.length_append, List.length_drop]
    omega

/-- No sequence of reductions goes on forever. -/
theorem wellFounded_reduces : WellFounded fun next parser : Parser => parser.Reduces next :=
  Subrelation.wf Reduces.load_lt (measure load).wf

end Parser

end ArgSchema
