import ArgSchema.Proofs.Parser.Allotment
import ArgSchema.Proofs.Parser.Intact
import ArgSchema.Proofs.Parser.Meaning
import ArgSchema.Proofs.Parser.Suppressions

/-! Exact spans: every node of a parsed file spans the text from its first token to its last. -/

namespace ArgSchema

namespace Parser

variable {parser next finished : Parser} {extents : NodeId → Extent} {symbol : Symbol}
  {below : List Symbol} {list : NodeKind} {span : Span} {kept : List Token} {phrases : List Phrase}

section Step

variable (allots : parser.Allots extents (kept ++ parser.discards))
  (stage : parser.Stage (kept ++ parser.discards))
  (increasing : Token.Increasing (kept ++ parser.discards))

include allots

/-- Symbols are dropped with their tokens. -/
theorem Allots.drop {front : List Symbol} (symbols : parser.stack.symbols = front ++ below)
    (gone : parser.discards = front.reverse.flatMap (Symbol.tokens extents)) (events : List Event) :
    ((parser.record events).set parser.tree below).Allots extents kept := by
  -- The dropped symbols' tokens are discarded, and the rest of the tokens belong to what is left.
  refine ⟨allots.covered, ?_⟩
  have whole := allots.tokens
  rw [symbols, gone, List.reverse_append, List.flatMap_append] at whole
  exact List.append_cancel_right whole

include increasing

/-- The tokens of the stack are those that are left if none is dropped. -/
theorem Allots.kept_eq {symbols : List Symbol} (same : parser.stack.symbols = symbols)
    (whole : parser.discards = []) :
    symbols.reverse.flatMap (Symbol.tokens extents) = kept ∧ Token.Increasing kept := by
  rw [whole, List.append_nil] at increasing
  exact ⟨by rw [← same, allots.tokens, whole, List.append_nil], increasing⟩

include stage

/-- A symbol that is collected brings its tokens, and none is dropped. -/
theorem allots_of_collect (symbols : parser.stack.symbols = symbol :: below)
    (whole : parser.discards = [])
    (stands : ∀ token, symbol = .token token → token.leaf? ≠ none)
    (spans : (symbol.extent extents).Spans span)
    (typed : list.type ∈ [.values, .types, .configs, .file])
    (done : parser.collect parser.tree list below symbol span = .ok next) :
    ∃ changed, next.Allots changed kept := by
  obtain ⟨rfl, increasing⟩ := allots.kept_eq increasing symbols whole
  exact allots_collect allots.covered (symbols ▸ stage.loose) stands spans typed increasing done

/-- A semicolon is dropped or ends a property. -/
theorem allots_of_semicolon {top : Token} (symbols : parser.stack.symbols = .token top :: below)
    (kind : top.kind = .semicolon) (done : parser.semicolonRule? top below = some (.ok next)) :
    ∃ changed, next.Allots changed kept := by
  unfold semicolonRule? at done
  split at done
  · next opening rest =>
    -- Behind an opening bracket it is dropped.
    split at done
    · next curly =>
      cases done
      exact ⟨extents, @Allots.drop _ _ _ _ allots [_] symbols
        (by simp [discards, symbols, kind, curly]) _⟩
    · cases done
  · next id rest =>
    -- Behind properties it is dropped as well, and behind the values of a keyword it ends a property.
    split at done
    · next configs =>
      cases done
      exact ⟨extents, @Allots.drop _ _ _ _ allots [_] symbols
        (by simp [discards, symbols, kind, configs]) _⟩
    · next other =>
      split at done
      · next values =>
        split at done
        · next keyword =>
          -- All three symbols go into the property, so every token of them is kept.
          obtain ⟨rfl, increasing⟩ := allots.kept_eq increasing symbols
            (by simp [discards, symbols, other])
          have loose : Loose parser.tree _ := symbols ▸ stage.loose
          exact allots_property allots.covered (loose.of_suffix (List.suffix_cons _ _)) keyword values
            kind increasing (Option.some.inj done)
        · cases done
      · cases done
  · cases done

/-- A word is made a suppression with its modifier, or both are dropped. -/
theorem allots_of_word {top : Token} (symbols : parser.stack.symbols = .token top :: below)
    (kind : top.kind = .identifier) (done : parser.wordRule? top below = some (.ok next)) :
    ∃ changed, next.Allots changed kept := by
  unfold wordRule? at done
  split at done
  · next modifier rest =>
    split at done
    · next suppress =>
      have suppress : modifier.isSuppress = true := suppress
      -- A class that is known makes a node of the two, and one that is not drops them.
      split at done
      · next class_ known =>
        cases done
        -- The node takes both tokens, so both are kept.
        obtain ⟨rfl, increasing⟩ := allots.kept_eq increasing symbols
          (by simp [discards, symbols, kind, known])
        have loose : Loose parser.tree _ := symbols ▸ stage.loose
        exact allots_suppress allots.covered (loose.of_suffix ⟨[_, _], rfl⟩) suppress kind known
          increasing
      · next unknown =>
        cases done
        exact ⟨extents, @Allots.drop _ _ _ _ allots [_, _] symbols
          (by simp [discards, symbols, kind, suppress, unknown]) _⟩
    · cases done
  · cases done

/-- A closing bracket ends a definition. -/
theorem allots_of_closeCurly {top : Token} (symbols : parser.stack.symbols = .token top :: below)
    (kind : top.kind = .closeCurly) (done : parser.closeCurlyRule? top below = some (.ok next)) :
    ∃ changed, next.Allots changed kept := by
  -- The rule looks for a body, an opening bracket and a header; with all three, it makes a
  -- definition.
  obtain ⟨phrases, stacked⟩ := stage.stacked_of_token symbols
  unfold closeCurlyRule? at done
  dsimp only at done
  generalize bodyTop : below.head?.bind (Symbol.node? parser.tree .configs) = body at done
  generalize bodyRest : (if body.isSome = true then below.drop 1 else below) = front at done
  obtain ⟨stacked', -⟩ := splitBody_stacked stacked bodyTop bodyRest
  split at done
  · next opening rest =>
    split at done
    · next curly =>
      obtain ⟨header, found, made⟩ := Option.map_eq_some_iff.mp done
      obtain ⟨phrase, others, same⟩ := stacked'.uncons
      rw [same] at stacked'
      rw [Header.ofSymbols?, map_eq_of_shows stacked'.tail] at found
      -- The body stands between the brackets, if there is one.
      have cut : below = body.toList.map .node ++ .token opening :: rest := by
        cases body with
        | none => exact bodyRest
        | some configs =>
          cases below with
          | nil => cases bodyTop
          | cons first below =>
            obtain rfl := Tree.eq_of_node? bodyTop
            exact congrArg _ bodyRest
      subst cut
      obtain ⟨rfl, increasing⟩ := allots.kept_eq increasing symbols
        (discards_eq_nil symbols (by rw [kind]; decide) (by rw [kind]; decide))
      -- Everything the definition takes is on top of the stack, and detached.
      have loose : Loose parser.tree _ := symbols ▸ stage.loose
      exact allots_definition allots.covered stacked'.tail (loose.of_suffix (List.suffix_cons _ _)) found
        curly kind increasing made
    · cases done
  · cases done

/-- A node is gathered with its tokens. -/
theorem allots_of_gather {id : NodeId} (symbols : parser.stack.symbols = .node id :: below)
    (typed : list.type ∈ [.values, .types, .configs, .file])
    (done : parser.gather list id below = .ok next) : ∃ changed, next.Allots changed kept := by
  obtain ⟨node, found, collected⟩ := ok_of_bind done
  -- A node is never dropped, so all tokens are kept.
  exact allots_of_collect allots stage increasing symbols (by rw [discards, symbols]) nofun
    (allots.covered.covers (Tree.get?_of_node found) nofun).2 typed collected

/-- After every single reduction the stack divides the tokens that are left, and each node has its
part. -/
theorem Allots.reduces (reduces : parser.Reduces next) : ∃ changed, next.Allots changed kept := by
  -- One case for each rule, with what the rule does to the extents shown beside it.
  unfold Reduces reduction? at reduces
  split at reduces
  · cases reduces
  · next top below symbols =>
    -- What applies to a token depends on its kind: values and types are collected.
    split at reduces
    · next value =>
      have other : ∀ kind, kind.isValue = false → top.kind ≠ kind := by
        rintro kind no rfl
        cases no.symm.trans value
      exact allots_of_collect allots stage increasing symbols
        (discards_eq_nil symbols (other _ rfl) (other _ rfl))
        (by rintro _ ⟨⟩; exact Option.ne_none_iff_exists'.mpr (Token.exists_leaf? value))
        (Extent.spans_single top) (by decide) (Option.some.inj reduces)
    · split at reduces
      · next kind => exact allots_of_semicolon allots stage increasing symbols kind reduces
      · next kind =>
        -- A type joins its list, or begins one.
        unfold typeRule? at reduces
        dsimp only at reduces
        split at reduces
        · exact allots_of_collect allots stage increasing symbols
            (discards_eq_nil symbols (by rw [kind]; decide) (by rw [kind]; decide))
            (by rintro _ ⟨⟩; simp [Token.leaf?, kind]) (Extent.spans_single top) (by decide)
            (Option.some.inj reduces)
        · cases reduces
      · next kind => exact allots_of_word allots stage increasing symbols kind reduces
      · next kind => exact allots_of_closeCurly allots stage increasing symbols kind reduces
      · cases reduces
  · next id below symbols =>
    -- Of the nodes, properties are gathered, and parts of a file are.
    split at reduces
    · exact allots_of_gather allots stage increasing symbols (by decide) (Option.some.inj reduces)
    · split at reduces
      · split at reduces
        · exact allots_of_gather allots stage increasing symbols (by decide)
            (Option.some.inj reduces)
        · cases reduces
      · cases reduces

end Step

/-- A tree that has no root gets one, and nothing else changes. -/
theorem setRoot_of_rootless {tree after : Tree} {file : NodeId} (rootless : tree.root? = none)
    (done : tree.setRoot file = .ok after) : after = { tree with root? := some file } := by
  -- A root that is replaced would be there, so the file is put where none was.
  obtain ⟨node, -, -, -, same | ⟨old, held, -⟩⟩ := Tree.setRoot_ok done
  · exact same
  · cases rootless.symm.trans held

/-- A parser that finishes with a root holds a file, or has read nothing and makes an empty file. -/
theorem rooted_of_finish {root : NodeId} {ending : Span} (shows : parser.Shows phrases)
    (done : parser.finish ending = .ok finished) (rooted : finished.tree.root? = some root) :
    finished.tree.Forest ∧ ∃ items, Phrase.items? phrases = some items ∧
      finished.tree.Draws root (fileOutline items) ∧
      (parser.stack.symbols = [.node root] ∧
          finished.tree = { parser.tree with root? := some root } ∨
        parser.stack.symbols = [] ∧ root = parser.tree.nextId ∧
          finished.tree = { parser.tree.alloc .file ending with root? := some root }) := by
  -- Finishing leaves the phrases' file, if they are one, as the tree's root.
  obtain ⟨other, same, final⟩ := finish_of_shows shows ending
  cases done.symm.trans same
  obtain ⟨forest, describes, -⟩ := final
  cases read : Phrase.items? phrases with
  | none =>
    rw [read] at describes
    cases rooted.symm.trans describes
  | some items =>
    rw [read] at describes
    obtain ⟨other, rooted', drawn⟩ := describes
    cases rooted.symm.trans rooted'
    refine ⟨forest, items, rfl, drawn, ?_⟩
    unfold Phrase.items? at read
    unfold finish at done
    -- Without phrases there are no symbols, and a file is a node alone.
    split at read
    · have symbols := List.forall₂_nil_right_iff.mp shows.shown
      rw [symbols] at done
      obtain ⟨tree, placed, done⟩ := ok_of_bind done
      cases done
      obtain rfl := @setRoot_of_rootless (parser.tree.alloc .file ending) _ _ shows.rootless placed
      cases rooted
      exact .inr ⟨symbols, rfl, rfl⟩
    -- The file is the only symbol, so the tree is rooted where it stands.
    · obtain ⟨file, below, symbols, stands⟩ := Stacked.exists_node shows rfl
      have stacked : Stacked parser.tree parser.stack.symbols _ := shows
      rw [symbols] at stacked
      obtain rfl : below = [] := List.forall₂_nil_right_iff.mp stacked.tail.shown
      have typed : parser.tree.isOfType (.only .file) file = true := stacked.head.isOfType .file
      rw [symbols] at done
      simp only [typed, if_true] at done
      obtain ⟨tree, placed, done⟩ := ok_of_bind done
      cases done
      obtain rfl := setRoot_of_rootless shows.rootless placed
      cases rooted
      exact .inl ⟨symbols, rfl⟩
    · cases read

end Parser

namespace Tree

/-- The spans below a root are exact: each is for the tokens that its node is made of, and so children
stand in order within their parents. -/
structure ExactSpans (tree : Tree) (extents : NodeId → Extent) (root : NodeId) : Prop where
  /-- Each node is made of its tokens. -/
  covers : ∀ {id node}, tree.Under root id → tree.get? id = some node →
    tree.Covers extents node (extents id)
  /-- Each span goes from the start of the node's first token to the end of its last, unless the file is
  empty. -/
  spans : ∀ {id node}, tree.Under root id → tree.get? id = some node →
    (extents id).Spans node.span ∨ id = root ∧ node.children = []
  /-- No span ends in front of its start. -/
  ordered : ∀ {id node}, tree.Under root id → tree.get? id = some node → node.span.Ordered
  /-- Each child ends in front of the start of those behind it. -/
  siblings : ∀ {id node}, tree.Under root id → tree.get? id = some node →
    node.children.Pairwise tree.Precedes
  /-- Each child that is no suppression of a property lies inside its parent. -/
  inside : ∀ {id node child below}, tree.Under root id → tree.get? id = some node →
    child ∈ node.children → tree.get? child = some below →
    ¬(node.type = .config ∧ below.type = .suppress) → below.span.Inside node.span
  /-- Each suppression of a property ends in front of the property, inside the definition. -/
  ahead : ∀ {id node child below}, tree.Under root id → tree.get? id = some node →
    child ∈ node.children → tree.get? child = some below →
    node.type = .config ∧ below.type = .suppress → below.span.stop.before node.span.start ∧
      ∃ definition ∈ tree.children root, ∃ outer, tree.get? definition = some outer ∧
        outer.type ∈ NodeTypes.definitions ∧ tree.Under definition id ∧
        below.span.Inside outer.span

variable {tree : Tree} {extents : NodeId → Extent} {root : NodeId} {file : Node}

/-- Spans for tokens that stand one behind the other are exact. -/
theorem Spanned.exact (spanned : tree.Spanned extents root) (here : tree.get? root = some file)
    (type : file.type = .file) : tree.ExactSpans extents root where
  covers under found := (spanned.covers under found).1
  spans under found := .inl (spanned.covers under found).2
  ordered under found := spanned.ordered under found
  siblings under found := spanned.siblings under found
  inside under found member lower other := by
    -- The two records say the same, but one of them parts the suppressions from the other children.
    have placed := spanned.span_child under found member lower
    rwa [if_neg other] at placed
  ahead under found member lower mark := by
    have placed := spanned.span_child under found member lower
    rw [if_pos mark] at placed
    rw [children_of_get? here]
    exact ⟨placed, spanned.exists_definition under here type found mark.1 member lower⟩

/-- A tree whose nodes are made of their tokens has exact spans below its root. -/
theorem Covered.exact {before : Tree} {items : List Item} (covered : before.Covered extents none)
    (same : tree = { before with root? := some root }) (forest : tree.Forest)
    (drawn : tree.Draws root (fileOutline items))
    (increasing : Token.Increasing (extents root).tokens) : tree.ExactSpans extents root := by
  obtain ⟨file, here, kind, -⟩ := drawn.get?
  subst same
  -- Nothing that a node is made of depends on the root.
  refine Spanned.exact ⟨forest, fun {id node} _ found => ?_, increasing⟩ here
    (by rw [Node.type, kind]; rfl)
  obtain ⟨covers, spans⟩ := covered.covers found (by simp)
  exact ⟨covers.congr rfl rfl (fun linked => linked) fun _ _ => ⟨rfl, fun _ => rfl⟩, spans⟩

/-- An empty file has exact spans. -/
theorem exactSpans_of_empty (here : tree.get? root = some file) (type : file.type = .file)
    (childless : file.children = []) (ordered : file.span.Ordered) :
    tree.ExactSpans (fun _ => ⟨[], []⟩) root := by
  -- Nothing is below the file.
  have alone : ∀ {id node}, tree.Under root id → tree.get? id = some node →
      root = id ∧ file = node := by
    intro id node under found
    have same : root = id := by
      by_contra other
      obtain ⟨child, member, -⟩ := under.exists_child (Ne.symm other)
      rw [children_of_get? here, childless] at member
      cases member
    subst same
    exact ⟨rfl, Option.some.inj (here.symm.trans found)⟩
  -- So there is no child to compare with another.
  have none : ∀ {id node child}, tree.Under root id → tree.get? id = some node →
      child ∉ node.children := by
    intro id node child under found
    obtain ⟨-, rfl⟩ := alone under found
    rw [childless]
    exact List.not_mem_nil
  refine ⟨fun under found => ?_, fun under found => ?_, fun under found => ?_, fun under found => ?_,
    fun under found member => (none under found member).elim,
    fun under found member => (none under found member).elim⟩ <;>
    obtain ⟨rfl, rfl⟩ := alone under found
  -- The file is covered by its list of no items.
  · have covers := @Covers.list tree (fun _ => ⟨[], []⟩) file (by simp [type])
    rwa [childless] at covers
  · exact .inr ⟨rfl, childless⟩
  · exact ordered
  · rw [childless]
    exact .nil

end Tree

namespace Parsing

variable {disk : Disk} {stream : Preprocessor} {state : Parsing} {shifted kept : List Token}

/-- The stack of every state divides the tokens that are left among its symbols, and every node is made
of its part of them. -/
theorem Ledger.allots (ledger : Ledger disk stream state shifted kept)
    (increasing : Token.Increasing (stream.drain disk).toList) :
    ∃ extents, state.parser.Allots extents kept := by
  induction ledger with
  -- At first there are neither nodes nor symbols.
  | start => exact ⟨fun _ => ⟨[], []⟩, ⟨.empty, nofun, nofun⟩, rfl⟩
  | reduce ledger reduces ih =>
    obtain ⟨extents, allots⟩ := ih
    -- What a state keeps are some of the tokens of the stream, in their order.
    have among := ledger.sublist.trans (ledger.shifted_append_ahead ▸ List.sublist_append_left _ _)
    exact allots.reduces ledger.stage (increasing.sublist among) reduces
  | @shift parser source lookahead token shifted kept _ _ _ _ ih =>
    obtain ⟨extents, covered, tokens⟩ := ih
    refine ⟨extents, covered, ?_⟩
    show (Symbol.token lookahead :: parser.stack.symbols).reverse.flatMap _ = _
    rw [← tokens, List.reverse_cons, List.flatMap_append]
    rfl

/-- Parsing that leaves a tree read all tokens, and has no rule to apply any more. -/
theorem ledger_of_parse {tree : Tree} (parsed : (stream.parse disk).result = .ok tree) :
    ∃ (state : Parsing) (kept : List Token) (finished : Parser),
      Ledger disk stream state (stream.drain disk).toList kept ∧ state.parser.reduction? = none ∧
      state.parser.finish state.lookahead.span = .ok finished ∧ finished.tree = tree := by
  have runs := stream.parse_runs disk
  unfold Runs at runs
  cases taken : (stream.pop disk).result with
  | error failure =>
    rw [taken] at runs
    rw [show stream.parse disk = _ from runs] at parsed
    cases parsed
  | ok token =>
    rw [taken] at runs
    obtain ⟨last, turns, ends⟩ := runs
    -- Every state that is reached has an account of its tokens.
    obtain ⟨shifted, kept, ledger⟩ := Reached.exists_ledger ⟨token, taken, turns⟩
    have whole := ledger.shifted_append_ahead
    generalize stream.parse disk = result at ends parsed
    cases ends with
    | failed => cases parsed
    | @finished parser finished source lookahead none ended done =>
      cases parsed
      -- At the end nothing is ahead.
      rw [ahead, if_pos ended, List.append_nil] at whole
      exact ⟨_, kept, finished, whole ▸ ledger, none, done, rfl⟩

end Parsing

/-- In the tree of a file without includes every span goes from the start of its node's first token to
the end of its last, where the tokens are those of the file that no rule dropped, and spell what the
tree draws. -/
theorem Preprocessor.spans_exact {disk : Disk} {stream : Preprocessor} {tree : Tree} {root : NodeId}
    (opens : Opens disk stream) (free : stream.root.lexer.raw.IncludeFree)
    (parsed : (stream.parse disk).result = .ok tree) (rooted : tree.root? = some root) :
    ∃ extents, tree.ExactSpans extents root ∧
      (∃ state, Parsing.Ledger disk stream state (stream.drain disk).toList (extents root).tokens) ∧
      ∃ items, tree.Draws root (fileOutline items) ∧
        (items = [] ∧ (extents root).tokens = [] ∨ Grammar.File items (extents root).tokens) := by
  obtain ⟨state, kept, finished, ledger, none, done, rfl⟩ := Parsing.ledger_of_parse parsed
  have increasing : Token.Increasing (stream.drain disk).toList := opens.drain_increasing free
  obtain ⟨extents, allots⟩ := ledger.allots increasing
  have tokens := allots.tokens
  have moves := ledger.stage.moves
  rw [none] at moves
  cases moves with
  | rests shows still exact =>
    obtain ⟨forest, items, read, drawn, placed⟩ := Parser.rooted_of_finish shows done rooted
    have spelled := exact.spells.items read
    -- The stack is the file, or nothing was read and the file is new.
    rcases placed with ⟨symbols, same⟩ | ⟨symbols, rfl, same⟩
    · obtain rfl : (extents root).tokens = kept := by simpa [symbols] using tokens
      have exact := allots.covered.exact same forest drawn (increasing.sublist ledger.sublist)
      exact ⟨extents, exact, ⟨state, ledger⟩, items, drawn, spelled⟩
    · obtain rfl : [] = kept := by simpa [symbols] using tokens
      -- The new file spans the end of the input.
      have ordered := (ledger.reached.spansOrdered opens).lookahead
      have exact : finished.tree.ExactSpans (fun _ => ⟨[], []⟩) state.parser.tree.nextId := by
        rw [same]
        exact Tree.exactSpans_of_empty (Tree.get?_alloc_nextId ..) rfl rfl ordered
      exact ⟨_, exact, ⟨state, ledger⟩, items, drawn, spelled⟩

/-- The tokens of a type with a property behind a suppression. -/
theorem reads_suppression : Reads (Utf8.encode "<t> \x7b@suppress missing-define a 1;\x7d")
    [(.type, "t"), (.openCurly, "\x7b"), (.modifier, "suppress"), (.identifier, "missing-define"),
      (.identifier, "a"), (.number 1, "1"), (.semicolon, ";"), (.closeCurly, "\x7d")] [] :=
  .of_scan 35 (by decide +kernel)

/-- Those tokens spell the type. -/
theorem file_suppression {tokens : List Token}
    (same : tokens.map (fun token => (token.kind, token.text)) = [(.type, "t"),
      (.openCurly, "\x7b"), (.modifier, "suppress"), (.identifier, "missing-define"),
      (.identifier, "a"), (.number 1, "1"), (.semicolon, ";"), (.closeCurly, "\x7d")]) :
    Grammar.File [.definition ⟨⟨.typeDefinition, [⟨"t", .type⟩], none⟩,
      [⟨[.missingDefine], ⟨"a", .identifier⟩, [.number 1]⟩]⟩] tokens := by
  simp only [List.map_eq_cons_iff, List.map_eq_nil_iff, Prod.mk.injEq] at same
  obtain ⟨type, _, rfl, ⟨typed, named⟩, opening, _, rfl, ⟨opens, -⟩, modifier, _, rfl,
    ⟨modifies, command⟩, word, _, rfl, ⟨names, known⟩, keyword, _, rfl, ⟨heads, called⟩, value, _, rfl,
    ⟨holds, -⟩, semicolon, _, rfl, ⟨ends, -⟩, closing, _, rfl, ⟨closes, -⟩, rfl⟩ := same
  -- From the innermost phrases outwards.
  have strays : Grammar.Strays [] := nofun
  have header : Grammar.Header ⟨.typeDefinition, [⟨"t", .type⟩], none⟩ [type] := by
    rw [← named]
    exact .typeDefinition (.token typed)
  have mark : Grammar.Suppression .missingDefine [modifier, word] :=
    .pair (by simp [Token.isSuppress, modifies, command]) names (by rw [known]; decide)
  have name : keyword.keyword? = some ⟨"a", .identifier⟩ := by
    simp [Token.keyword?, Token.isKeyword, Token.label?, Token.category?, Token.isWord, heads, called]
  have literal : Grammar.Value (.number 1) [value] :=
    .token (by simp [Token.value?, holds])
  -- The property with its suppression in front.
  have property : Grammar.Config ⟨[.missingDefine], ⟨"a", .identifier⟩, [.number 1]⟩
      ([modifier, word] ++ keyword :: [value] ++ semicolon :: []) :=
    .statement (Grammar.Sequence.none.more mark) name (List.cons_ne_nil _ _)
      (Grammar.Sequence.none.more literal) ends strays
  exact .items (List.cons_ne_nil _ _) (Grammar.Sequence.none.more (.definition (.definition header
    (@Grammar.Body.braces _ opening [] _ closing opens strays
      (Grammar.Sequence.none.more property) closes))))

namespace Preprocessor

/-- A type with a property behind a suppression is parsed, and all spans in its tree are exact. -/
theorem spans_exact_suppression :
    ∃ (disk : Disk) (stream : Preprocessor) (tree : Tree) (root : NodeId)
      (extents : NodeId → Extent),
      (stream.parse disk).result = .ok tree ∧ tree.root? = some root ∧
      (tree.children root).length = 1 ∧ tree.ExactSpans extents root := by
  -- The text is parsed as the definition, and the general law tells its spans.
  let disk : Disk := .empty
  let text := Utf8.encode "<t> \x7b@suppress missing-define a 1;\x7d"
  obtain ⟨tree, root, result, -, rooted, drawn⟩ :=
    parse_of_reads disk "schema" text [] reads_suppression (by decide) file_suppression
  have free : (ofSource "schema" text []).root.lexer.raw.IncludeFree :=
    reads_suppression.includeFree (by decide) (by simp) ["schema"]
  obtain ⟨extents, exact, -⟩ := spans_exact (.source "schema" text []) free result rooted
  exact ⟨disk, _, tree, root, extents, result, rooted, drawn.children.length_eq, exact⟩

end Preprocessor

end ArgSchema
