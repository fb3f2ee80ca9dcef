import ArgSchema.Proofs.Parser.Covering
import ArgSchema.Proofs.Parser.Stages
import ArgSchema.Proofs.Tree.Described

/-! Allotments: at every stage the stack divides what was read among its symbols, and each node of the tree
has its part. -/

namespace ArgSchema

/-- Symbols whose nodes stay made of the same tokens are made of the same tokens. -/
theorem Symbol.flatMap_tokens {symbols : List Symbol} {extents changed : NodeId → Extent}
    (same : ∀ id ∈ Symbol.ids symbols, changed id = extents id) :
    symbols.reverse.flatMap (Symbol.tokens changed) =
      symbols.reverse.flatMap (Symbol.tokens extents) := by
  -- A token is its own, and a node's tokens are told by its extent.
  refine List.flatMap_congr fun symbol member => ?_
  cases symbol with
  | token => rfl
  | node id =>
    have known := same id (List.mem_filterMap.mpr ⟨_, List.mem_reverse.mp member, rfl⟩)
    exact congrArg Extent.tokens known

namespace Parser

/-- All nodes are made of their tokens, and the symbols of the stack of all that is left. -/
structure Allots (parser : Parser) (extents : NodeId → Extent) (kept : List Token) : Prop where
  /-- Each node is made of its tokens. -/
  covered : parser.tree.Covered extents none
  /-- The stack is made of what is left. -/
  tokens : parser.stack.symbols.reverse.flatMap (Symbol.tokens extents) = kept

/-- The nodes of a stack are live, each once and attached nowhere. -/
structure Loose (tree : Tree) (symbols : List Symbol) : Prop where
  /-- No node is on the stack twice. -/
  once : (Symbol.ids symbols).Nodup
  /-- Every node of the stack is live and has no parent. -/
  live : ∀ id ∈ Symbol.ids symbols, ∃ node, tree.get? id = some node ∧ node.parent? = none

variable {parser next : Parser} {tree grown : Tree} {extents changed : NodeId → Extent}
  {symbol : Symbol} {below rest : List Symbol} {list : NodeKind} {span : Span} {id : NodeId}
  {node : Node} {kept : List Token}

/-- A node of a loose stack is live and has no parent. -/
theorem Loose.get? (loose : Loose tree below) (member : .node id ∈ below) :
    ∃ node, tree.get? id = some node ∧ node.parent? = none :=
  loose.live id (List.mem_filterMap.mpr ⟨_, member, rfl⟩)

/-- Some of the symbols of a stack are loose as well. -/
theorem Loose.of_suffix (loose : Loose tree below) (behind : rest <:+ below) : Loose tree rest := by
  -- Handles on the lower part of the stack are among all of them.
  obtain ⟨front, rfl⟩ := behind
  refine ⟨?_, fun id member => loose.live id (by simp [member])⟩
  have once := loose.once
  rw [Symbol.ids_append, List.nodup_append] at once
  exact once.2.1

/-- A stack that shows phrases is loose. -/
theorem loose_of_stacked {phrases : List Phrase} (stacked : Stacked tree below phrases) :
    Loose tree below :=
  ⟨stacked.once, Tree.live_of_shows stacked.shown⟩

/-- The stack of every stage is loose. -/
theorem Stage.loose (stage : parser.Stage kept) : Loose parser.tree parser.stack.symbols := by
  -- Only a property that was just made shows no phrase; everything below it does.
  cases stage with
  | still shows | read shows | item shows => exact loose_of_stacked shows
  | property symbols stacked stands fresh =>
    obtain ⟨node, found, -, detached⟩ := stands.live
    have loose := loose_of_stacked stacked
    rw [symbols]
    refine ⟨List.nodup_cons.mpr ⟨fresh, loose.once⟩, fun other member => ?_⟩
    rcases List.mem_cons.mp (by simpa using member) with rfl | member
    · exact ⟨node, found, detached⟩
    · exact loose.live other member

/-- What is below a token on top of a stack shows phrases. -/
theorem Stage.stacked_of_token (stage : parser.Stage kept) {top : Token}
    (symbols : parser.stack.symbols = .token top :: below) :
    ∃ phrases, Stacked parser.tree below phrases := by
  -- The top is a token, so no property was just made.
  cases stage with
  | still shows | read shows | item shows =>
    unfold Parser.Shows at shows
    rw [symbols] at shows
    obtain ⟨phrase, rest, same⟩ := shows.uncons
    rw [same] at shows
    exact ⟨rest, shows.tail⟩
  | property node => cases symbols.symm.trans node

/-- The symbols of a stack whose nodes are carried on are made of the same tokens. -/
theorem Loose.flatMap_tokens (loose : Loose tree below) (carries : tree.Carries extents grown changed)
    {other : NodeId} {extent : Extent} (apart : other ∉ Symbol.ids below) :
    below.reverse.flatMap (Symbol.tokens (Function.update changed other extent)) =
      below.reverse.flatMap (Symbol.tokens extents) := by
  -- The nodes of the stack are live and are not the one that changes, so each keeps its tokens.
  refine Symbol.flatMap_tokens fun id member => ?_
  obtain ⟨node, found, -⟩ := loose.live id member
  rw [Function.update_of_ne (by rintro rfl; exact apart member), carries.extent found]

/-- A new node is none of a loose stack. -/
theorem Loose.nextId (loose : Loose tree below) : tree.nextId ∉ Symbol.ids below := by
  -- The nodes of a stack are live, and the next identifier names none that is.
  intro member
  obtain ⟨node, found, -⟩ := loose.live _ member
  exact Tree.ne_nextId found rfl

/-- What a symbol of a stack is made of is carried on. -/
theorem Loose.extent (loose : Loose tree below) (carries : tree.Carries extents grown changed)
    (member : symbol ∈ below) : symbol.extent changed = symbol.extent extents := by
  -- A node on the stack is live, and carrying keeps the extents of live nodes.
  cases symbol with
  | token => rfl
  | node id =>
    obtain ⟨node, found, -⟩ := loose.get? member
    exact carries.extent found

/-- Some symbols of a stack whose nodes are carried on are made of the same tokens. -/
theorem Loose.flatMap_of_subset (loose : Loose tree below)
    (carries : tree.Carries extents grown changed) {symbols : List Symbol} (inside : symbols ⊆ below) :
    symbols.flatMap (Symbol.tokens changed) = symbols.flatMap (Symbol.tokens extents) :=
  List.flatMap_congr fun _ member => congrArg Extent.tokens (loose.extent carries (inside member))

/-- A node that has settled is put on a stack that was carried on. -/
theorem allots_push (symbols : next.stack.symbols = .node id :: below) (loose : Loose tree below)
    (carries : tree.Carries extents next.tree changed) {extent : Extent}
    (settled : next.tree.Covered (Function.update changed id extent) none)
    (apart : id ∉ Symbol.ids below) :
    next.Allots (Function.update changed id extent)
      (below.reverse.flatMap (Symbol.tokens extents) ++ extent.tokens) := by
  refine ⟨settled, ?_⟩
  -- The symbols below keep their extents, and the node on top has the new one.
  rw [symbols, List.reverse_cons, List.flatMap_append, List.flatMap_singleton,
    loose.flatMap_tokens carries apart]
  simp only [Symbol.tokens, Symbol.extent, Function.update_self]

section Collect

variable (covered : tree.Covered extents none) (loose : Loose tree (symbol :: below))
  (stands : ∀ token, symbol = .token token → token.leaf? ≠ none)
  (spans : (symbol.extent extents).Spans span)
  (typed : list.type ∈ [.values, .types, .configs, .file])

include covered loose stands spans typed

/-- A symbol goes to the end of the list in front of it with its tokens. -/
theorem allots_onto
    (increasing : Token.Increasing ((symbol :: below).reverse.flatMap (Symbol.tokens extents)))
    (front : below = .node id :: rest) (list_typed : tree.isOfType (.only list.type) id = true)
    (attached : (tree.widen id span).attach id symbol = .ok grown) :
    ∃ changed, (parser.set grown below).Allots changed
      ((symbol :: below).reverse.flatMap (Symbol.tokens extents)) := by
  -- The list on the stack is stretched, and the symbol on top is hung below it.
  subst front
  have inner := loose.of_suffix (List.suffix_cons _ _)
  obtain ⟨node, found, detached⟩ := inner.live id (by simp)
  have type : node.type = list.type := by
    rw [Tree.isOfType_of_get? found, decide_eq_true_eq] at list_typed
    exact NodeTypes.mem_only.mp list_typed
  obtain ⟨changed, hangs⟩ := (covered.widen found detached span).attach attached
  obtain ⟨hung, above, became⟩ := hangs.grown (Tree.get?_widen found span)
  obtain ⟨child, rfl, same⟩ := became.single stands
  have carries := (Tree.Carries.widen tree extents id span).trans hangs.carries
  rw [loose.extent carries (List.mem_cons_self ..)] at same
  obtain ⟨covers, spans'⟩ := covered.covers found nofun
  -- The list was made of its elements, and is made of one more now.
  have joined := covers.eq_join (type ▸ typed) detached
  have mapped : node.children.map changed = node.children.map extents :=
    List.map_congr_left fun other member =>
      have ⟨_, lower, _⟩ := covered.forest.child found other member
      carries.extent lower
  have some : node.children.map extents ≠ [] := by
    intro none
    rw [joined, none] at spans'
    exact spans'.ne_nil rfl
  have whole : Extent.join ((node.children ++ [child]).map changed) =
      ⟨(extents id).ahead, (extents id).within ++ (symbol.extent extents).tokens⟩ := by
    rw [List.map_append, mapped, List.map_singleton, Extent.join_append some, ← joined, same]
  -- Both stand next to each other on the stack, so their tokens are in order.
  have order : Token.Increasing ((extents id).tokens ++ (symbol.extent extents).tokens) := by
    refine increasing.sublist ?_
    simp only [List.reverse_cons, List.flatMap_append, List.flatMap_singleton, List.append_assoc]
    exact List.sublist_append_right _ _
  -- The list's extent grows by the symbol's tokens, which come behind its own.
  have settled := hangs.covered.settle above (whole ▸ .list (show node.type ∈ _ from type ▸ typed))
    (spans'.through spans order)
  have pushed := @allots_push (parser.set grown (.node id :: rest)) _ _ _ _ _ rfl
    (inner.of_suffix (List.suffix_cons _ _)) carries _ settled (List.nodup_cons.mp inner.once).1
  refine ⟨_, pushed.covered, pushed.tokens.trans ?_⟩
  simp [Symbol.tokens, Symbol.extent, Extent.tokens]

/-- A symbol begins a list of its own with its tokens. -/
theorem allots_anew
    (attached : (tree.alloc list span).attach tree.nextId symbol = .ok grown) :
    ∃ changed, (parser.set grown (.node tree.nextId :: below)).Allots changed
      ((symbol :: below).reverse.flatMap (Symbol.tokens extents)) := by
  have inner := loose.of_suffix (List.suffix_cons _ _)
  obtain ⟨changed, hangs⟩ := (covered.begin list span).attach attached
  obtain ⟨hung, above, became⟩ := hangs.grown (Tree.get?_alloc_nextId tree list span)
  obtain ⟨child, rfl, same⟩ := became.single stands
  have carries := (Tree.Carries.alloc tree extents list span).trans hangs.carries
  rw [loose.extent carries (List.mem_cons_self ..)] at same
  -- The list has one element, so its span is that of the element.
  have whole : Extent.join (([] ++ [child]).map changed) = symbol.extent extents := by
    simp [Extent.join, same]
  have settled := hangs.covered.settle above (whole ▸ .list typed) spans
  have pushed := @allots_push (parser.set grown (.node tree.nextId :: below)) _ _ _ _ _ rfl inner
    carries _ settled inner.nextId
  refine ⟨_, pushed.covered, pushed.tokens.trans ?_⟩
  simp [Symbol.tokens]

/-- A symbol that is collected brings its tokens. -/
theorem allots_collect
    (increasing : Token.Increasing ((symbol :: below).reverse.flatMap (Symbol.tokens extents)))
    (done : parser.collect tree list below symbol span = .ok next) :
    ∃ changed, next.Allots changed
      ((symbol :: below).reverse.flatMap (Symbol.tokens extents)) := by
  unfold collect at done
  split at done
  · next id named =>
    obtain ⟨grown, attached, done⟩ := ok_of_bind done
    cases done
    -- The list is the symbol in front.
    cases below with
    | nil => cases named
    | cons first rest =>
      obtain rfl := Tree.eq_of_node? named
      have typed' : tree.isOfType (.only list.type) id = true := by
        by_contra other
        simp [Symbol.node?, other] at named
      exact allots_onto covered loose stands spans typed increasing rfl typed' attached
  · obtain ⟨grown, attached, done⟩ := ok_of_bind done
    cases done
    exact allots_anew covered loose stands spans typed attached

end Collect

/-- A suppression takes its modifier and its word. -/
theorem allots_suppress {modifier word : Token} {kind : WarningClass}
    (covered : tree.Covered extents none) (loose : Loose tree below)
    (suppress : modifier.isSuppress = true)
    (identifier : word.kind = .identifier) (known : WarningClass.ofName? word.text = some kind)
    (increasing : Token.Increasing ((.token word :: .token modifier :: below).reverse.flatMap
      (Symbol.tokens extents))) :
    ∃ changed, (parser.set (tree.alloc (.suppress kind) (modifier.span.through word.span))
      (.node tree.nextId :: below)).Allots changed
        ((.token word :: .token modifier :: below).reverse.flatMap (Symbol.tokens extents)) := by
  have parts : (Symbol.token word :: .token modifier :: below).reverse.flatMap
      (Symbol.tokens extents) =
        below.reverse.flatMap (Symbol.tokens extents) ++ Extent.tokens ⟨[], [modifier, word]⟩ := by
    simp [Extent.tokens]
  rw [parts] at increasing ⊢
  -- The node is made of the two tokens on top, so nothing is left out.
  have pair : Tree.Covers (tree.alloc (.suppress kind) (modifier.span.through word.span)) extents
      ⟨.suppress kind, modifier.span.through word.span, none, []⟩ ⟨[], [modifier, word]⟩ :=
    .suppression rfl (.pair suppress identifier known) rfl
  have spans := @Extent.spans_through [] _ modifier word
    (increasing.sublist (List.sublist_append_right _ _)) rfl rfl
  -- It spans both of them, and lies where they lay.
  have settled := (covered.begin (.suppress kind) (modifier.span.through word.span)).settle
    (Tree.get?_alloc_nextId ..) pair spans
  have pushed := @allots_push (parser.set (tree.alloc (.suppress kind)
    (modifier.span.through word.span)) (.node tree.nextId :: below)) _ _ _ _ _ rfl loose
    (Tree.Carries.alloc ..) _ settled loose.nextId
  exact ⟨_, pushed⟩

/-- Symbols that are suppressions are nodes. -/
theorem exists_marks {symbols : List Symbol}
    (marks : ∀ symbol ∈ symbols, (Symbol.node? tree .suppress symbol).isSome = true) :
    ∃ ids : List NodeId, symbols = ids.map .node ∧
      ∀ id ∈ ids, tree.isOfType (.only .suppress) id = true := by
  -- By induction on the symbols, of which each is a node.
  induction symbols with
  | nil => exact ⟨[], rfl, nofun⟩
  | cons symbol symbols ih =>
    obtain ⟨ids, rfl, typed⟩ := ih fun other member => marks other (.tail _ member)
    obtain ⟨id, named⟩ := Option.isSome_iff_exists.mp (marks symbol (List.mem_cons_self ..))
    obtain rfl := Tree.eq_of_node? named
    refine ⟨id :: ids, rfl, List.forall_mem_cons.mpr ⟨?_, typed⟩⟩
    by_contra other
    simp [Symbol.node?, other] at named

/-- A property that is made takes the suppressions in front of its keyword, the keyword and its values. -/
theorem makeProperty_links {keyword semicolon : Token} {values : NodeId}
    (made : parser.makeProperty keyword values semicolon below = .ok next) :
    ∃ (marks : List NodeId) (rest : List Symbol), below = (marks.map .node).reverse ++ rest ∧
      (∀ mark ∈ marks, parser.tree.isOfType (.only .suppress) mark = true) ∧
      next.stack.symbols = .node parser.tree.nextId :: rest ∧
      (parser.tree.alloc .config (keyword.span.through semicolon.span)).attachAll parser.tree.nextId
        (marks.map .node ++ [.token keyword, .node values]) = .ok next.tree := by
  obtain ⟨-, symbols, attached⟩ := makeProperty_ok made
  generalize found : (fun symbol => (Symbol.node? parser.tree .suppress symbol).isSome) = suppresses
    at symbols attached
  -- The symbols that were taken are nodes, since only those can be suppressions.
  obtain ⟨marks, same, typed⟩ := @exists_marks parser.tree (below.takeWhile suppresses).reverse
    fun symbol member => by
      have mark := List.mem_takeWhile_imp (List.mem_reverse.mp member)
      rwa [← found] at mark
  rw [same] at attached
  refine ⟨marks, below.dropWhile suppresses, ?_, typed, symbols, attached⟩
  rw [← same, List.reverse_reverse, List.takeWhile_append_dropWhile]

/-- Suppressions, a keyword and values become as many children, of which the keyword is a name. -/
theorem children_of_property {marks ids : List NodeId} {keyword : Token} {values : NodeId}
    (hung : tree.Hung extents (marks.map .node ++ [.token keyword, .node values]) ids)
    (named : keyword.isKeyword = true) :
    ∃ name, ids = marks ++ [name, values] ∧ extents name = .single keyword ∧
      tree.isOfType (.only .identifier) name = true := by
  obtain ⟨others, rfl, behind⟩ := hung.of_nodes
  have kinds : keyword.kind = .identifier ∨ keyword.kind = .property := by
    simpa [Token.isKeyword] using named
  obtain ⟨kind, leaf, type⟩ : ∃ kind, keyword.leaf? = some kind ∧ kind.type = .identifier := by
    unfold Token.leaf?
    rcases kinds with same | same <;> rw [same] <;> exact ⟨_, rfl, rfl⟩
  -- The keyword has a leaf, so it becomes a child, and the values are the other one.
  cases behind with
  | blank none => cases leaf.symm.trans none
  | leaf found stands single rest =>
    cases leaf.symm.trans stands
    -- The values are a node and hang as such.
    cases rest with
    | node rest =>
      cases rest
      refine ⟨_, rfl, single, ?_⟩
      rw [Tree.isOfType_of_get? found, decide_eq_true_eq, NodeTypes.mem_only]
      exact type

/-- A property takes the suppressions in front of its keyword, its values and its semicolon. -/
theorem allots_property {keyword semicolon : Token} {values : NodeId}
    (covered : parser.tree.Covered extents none)
    (loose : Loose parser.tree (.node values :: .token keyword :: below))
    (named : keyword.isKeyword = true) (typed : parser.tree.isOfType (.only .values) values = true)
    (closing : semicolon.kind = .semicolon)
    (increasing : Token.Increasing ((.token semicolon :: .node values :: .token keyword ::
      below).reverse.flatMap (Symbol.tokens extents)))
    (made : parser.makeProperty keyword values semicolon below = .ok next) :
    ∃ changed, next.Allots changed ((.token semicolon :: .node values :: .token keyword ::
      below).reverse.flatMap (Symbol.tokens extents)) := by
  obtain ⟨marks, rest, rfl, types, symbols, attached⟩ := makeProperty_links made
  obtain ⟨changed, hangs⟩ := (covered.begin .config _).attachAll attached
  obtain ⟨hung, above, became⟩ := hangs.grown (Tree.get?_alloc_nextId ..)
  obtain ⟨name, rfl, single, identifier⟩ := children_of_property became named
  have carries := (Tree.Carries.alloc parser.tree extents .config
    (keyword.span.through semicolon.span)).trans hangs.carries
  -- The suppressions and the values are what they were.
  obtain ⟨list, found, -⟩ := loose.get? (List.mem_cons_self ..)
  have same : changed values = extents values := carries.extent found
  have same' : ∀ mark ∈ marks, changed mark = extents mark ∧
      next.tree.isOfType (.only .suppress) mark = true := fun mark among => by
    have listed : .node mark ∈ (marks.map Symbol.node).reverse :=
      List.mem_reverse.mpr (List.mem_map_of_mem among)
    obtain ⟨given, found, -⟩ := loose.get? (.tail _ (.tail _ (List.mem_append_left rest listed)))
    exact ⟨carries.extent found, (carries.isOfType found _).trans (types mark among)⟩
  -- So the property is covered by its parts, with the semicolon behind them.
  have covers : next.tree.Covers changed ⟨.config, keyword.span.through semicolon.span, none,
      marks ++ [name, values]⟩ ⟨marks.flatMap fun mark => (extents mark).tokens,
        keyword :: (extents values).tokens ++ [semicolon]⟩ := by
    rw [← same, ← List.flatMap_congr fun mark among => congrArg Extent.tokens (same' mark among).1]
    exact .property rfl rfl (fun mark among => (same' mark among).2) identifier single named
      ((carries.isOfType found _).trans typed) closing
  -- The tokens of the stack end with those of the property.
  have parts : (Symbol.token semicolon :: .node values :: .token keyword ::
      ((marks.map .node).reverse ++ rest)).reverse.flatMap (Symbol.tokens extents) =
        rest.reverse.flatMap (Symbol.tokens extents) ++
        Extent.tokens ⟨marks.flatMap fun mark => (extents mark).tokens,
          keyword :: (extents values).tokens ++ [semicolon]⟩ := by
    simp [List.flatMap_map, Extent.tokens]
  rw [parts] at increasing ⊢
  -- It spans from its keyword to its semicolon.
  have spans := @Extent.spans_through (marks.flatMap fun mark => (extents mark).tokens) _ keyword
    semicolon (increasing.sublist ((Extent.within_sublist _).trans (List.sublist_append_right _ _)))
    rfl List.getLast?_concat
  have inner : Loose parser.tree rest :=
    loose.of_suffix ((List.suffix_append _ rest).trans ⟨[_, _], rfl⟩)
  exact ⟨_, allots_push symbols inner carries (hangs.covered.settle above covers spans) inner.nextId⟩

/-- The tokens of a list of types spell the types. -/
theorem derives_types (covered : tree.Covered extents none) {names : List String}
    (stands : tree.Stands id (typesOutline names)) :
    Phrase.Derives (.types names) (extents id).tokens := by
  obtain ⟨node, found, kind, detached, -⟩ := stands.get?
  obtain ⟨covers, spans⟩ := covered.covers found nofun
  have joined := covers.eq_join (by simp [Node.type, kind, NodeKind.type]) detached
  have each : ∀ child name, tree.Draws child (⟨name, .type⟩ : Label).outline →
      Grammar.TypeName name (extents child).tokens := by
    rintro child name ⟨given, live, same, -⟩
    obtain ⟨token, single, leaf⟩ := (covered.covers live nofun).1.exists_token same
    have type : token.kind = .type ∧ token.text = name := by
      unfold Token.leaf? at leaf
      split at leaf <;> try split at leaf
      all_goals simp_all
    rw [single, ← type.2]
    exact .token type.1
  -- Each child is one of the names.
  have drawn := Tree.Draws.children stands.draws
  rw [Tree.children_of_get? found] at drawn
  have listed := (List.forall₂_map_right_iff.mp drawn).imp each
  rw [joined, Extent.tokens_join, List.flatMap_map]
  -- The list has a span, so it has an element.
  refine .types ?_ (Grammar.Sequence.of_forall₂ listed)
  rintro rfl
  rw [joined, List.forall₂_nil_right_iff.mp listed] at spans
  exact spans.ne_nil rfl

/-- Symbols of a header spell its phrases. -/
theorem spells_of_shows (covered : tree.Covered extents none) {phrases : List Phrase}
    (shown : List.Forall₂ tree.Shows below (phrases.map Phrase.piece))
    (held : ∀ phrase ∈ phrases, (∃ token, phrase = .token token) ∨ ∃ names, phrase = .types names) :
    Phrase.Spells phrases (below.reverse.flatMap (Symbol.tokens extents)) := by
  rw [List.forall₂_map_right_iff] at shown
  induction shown with
  | nil => exact .nothing
  | @cons symbol phrase _ _ head _ ih =>
    obtain ⟨first, rest⟩ := List.forall_mem_cons.mp held
    rw [List.reverse_cons, List.flatMap_append, List.flatMap_singleton]
    refine (ih rest).more ?_
    -- A token spells itself, and a list of types its types.
    rcases first with ⟨token, rfl⟩ | ⟨names, rfl⟩
    · cases symbol with
      | token => cases head; exact .token
      | node => cases head
    · cases symbol with
      | token => cases head
      | node => exact derives_types covered head

/-- The symbols on top of a stack that are a header spell it, and the first of them is a token. -/
theorem exists_header (covered : tree.Covered extents none) {phrases : List Phrase} {header : Header}
    (stacked : Stacked tree below phrases)
    (found : Header.ofParts? (phrases.map Phrase.part) = some header) :
    ∃ heading front rest, below = front ++ rest ∧ header.length = front.length ∧
      header.kind = heading.form.kind ∧
      Grammar.Header heading (front.reverse.flatMap (Symbol.tokens extents)) ∧
      ∃ first, front.reverse.head? = some (.token first) ∧
        (front.reverse.flatMap (Symbol.tokens extents)).head? = some first := by
  obtain ⟨heading, used, others, rfl, length, kind, headed⟩ := Phrase.headed_of_parts found
  have size : (below.take used.length).length = used.length := by
    have same := stacked.shown.length_eq
    simp only [List.length_map, List.length_append] at same
    rw [List.length_take]
    omega
  rw [← List.take_append_drop used.length below] at stacked
  obtain ⟨shown, -⟩ := stacked.split size
  -- The phrases on top are those of a heading, and the symbols that show them are cut off.
  refine ⟨heading, _, _, (List.take_append_drop used.length below).symm, length.trans size.symm,
    kind, ?_⟩
  generalize below.take used.length = front at shown
  -- The phrases of the header are spelled by themselves.
  have spelled := spells_of_shows covered shown headed.token_or_types
  rw [← List.append_nil used] at spelled
  obtain ⟨before, last, same, none, written⟩ := Phrase.Spells.header headed spelled
  cases none
  rw [List.nil_append] at same
  refine ⟨same ▸ written, ?_⟩
  -- The lowest of them is a token, and so is the symbol that shows it.
  obtain ⟨first, others, begins⟩ := headed.begins
  have reversed := List.forall₂_reverse_iff.mpr (List.forall₂_map_right_iff.mp shown)
  rw [begins] at reversed
  generalize front.reverse = symbols at reversed
  cases reversed with
  | @cons symbol _ _ _ head =>
    cases symbol with
    | token => cases head; exact ⟨first, rfl, rfl⟩
    | node => cases head

/-- The properties of a body are hung below its definition, or an empty list for the brackets is. -/
theorem hangs_body {named : Tree} {body : Option NodeId} {opening closing : Token}
    {definition : NodeId} (covered : named.Covered extents (some definition))
    (found : named.get? definition = some node)
    (opens : opening.kind = .openCurly) (closes : closing.kind = .closeCurly)
    (increasing : Token.Increasing [opening, closing])
    (linked : body.elim ((named.alloc .configs (opening.span.through closing.span)).addChild
      definition named.nextId) (named.addChild definition) = .ok grown) :
    ∃ changed configs, grown.Covered changed (some definition) ∧
      named.Carries extents grown changed ∧
      grown.get? definition = some { node with children := node.children ++ [configs] } ∧
      ((changed configs).tokens = (body.toList.map .node).flatMap (Symbol.tokens extents) ∨
        body = none ∧ (changed configs).tokens = [opening, closing]) := by
  cases body with
  -- The list of properties is what it was.
  | some configs =>
    have hangs := covered.link linked
    obtain ⟨hung, above, became⟩ := hangs.grown found
    cases became with
    | node none =>
      cases none
      exact ⟨extents, configs, hangs.covered, hangs.carries, above, .inl (List.append_nil _).symm⟩
  | none =>
    obtain ⟨covered', carries, grown⟩ := covered.hang linked
      (fun _ _ => .braces rfl rfl (Option.some_ne_none _) opens closes)
      (Extent.spans_through increasing rfl rfl)
    exact ⟨_, _, covered', carries, (grown found).1, .inr ⟨rfl, by rw [Function.update_self]; rfl⟩⟩

/-- A definition that is made takes the symbols of its header and then its properties. -/
theorem makeDefinition_links {header : Header} {opening closing : Token} {body : Option NodeId}
    (made : parser.makeDefinition header opening body closing below = .ok next) :
    next.stack.symbols = .node parser.tree.nextId :: below.drop header.length ∧ ∃ named,
      (parser.tree.alloc header.kind ((((below.take header.length).reverse.head?.bind
        (Symbol.span? parser.tree)).getD opening.span).through closing.span)).attachAll
        parser.tree.nextId (if header.kind.type = .metadata then [] else
          (below.take header.length).reverse) = .ok named ∧
      body.elim ((named.alloc .configs (opening.span.through closing.span)).addChild
        parser.tree.nextId named.nextId) (named.addChild parser.tree.nextId) = .ok next.tree := by
  obtain ⟨named, attached, made⟩ := ok_of_bind made
  -- With a body its node is hung below the definition, and otherwise an empty one.
  cases body <;>
  · obtain ⟨grown, linked, made⟩ := ok_of_bind made
    cases made
    exact ⟨rfl, named, attached, linked⟩

/-- A definition takes its header, its brackets and its properties. -/
theorem allots_definition {opening closing : Token} {body : Option NodeId} {header : Header}
    {phrases : List Phrase} (covered : parser.tree.Covered extents none)
    (stacked : Stacked parser.tree rest phrases)
    (loose : Loose parser.tree (body.toList.map .node ++ .token opening :: rest))
    (found : Header.ofParts? (phrases.map Phrase.part) = some header)
    (opens : opening.kind = .openCurly) (closes : closing.kind = .closeCurly)
    (increasing : Token.Increasing ((.token closing :: (body.toList.map .node ++
      .token opening :: rest)).reverse.flatMap (Symbol.tokens extents)))
    (made : parser.makeDefinition header opening body closing rest = .ok next) :
    ∃ changed, next.Allots changed ((.token closing :: (body.toList.map .node ++
      .token opening :: rest)).reverse.flatMap (Symbol.tokens extents)) := by
  -- The header is read off the stack as the phrases that it shows.
  obtain ⟨heading, front, last, rfl, length, kind, written, first, head, begins⟩ :=
    exists_header covered stacked found
  obtain ⟨symbols, named, attached, linked⟩ := makeDefinition_links made
  rw [length, List.drop_left] at symbols
  rw [length, List.take_left, kind, head] at attached
  -- The tokens of the stack end with those of the definition.
  generalize spelled : front.reverse.flatMap (Symbol.tokens extents) = tokens at written begins
  generalize inside : (body.toList.map .node).flatMap (Symbol.tokens extents) = inner
  have parts : (Symbol.token closing :: (body.toList.map .node ++
      .token opening :: (front ++ last))).reverse.flatMap (Symbol.tokens extents) =
        last.reverse.flatMap (Symbol.tokens extents) ++
          Extent.tokens ⟨[], tokens ++ opening :: inner ++ [closing]⟩ := by
    rw [← spelled, ← inside]
    cases body <;> simp [Extent.tokens]
  rw [parts] at increasing ⊢
  have order : Token.Increasing (tokens ++ opening :: inner ++ [closing]) :=
    increasing.sublist (List.sublist_append_right _ _)
  -- It spans from the first token of its header to the closing bracket.
  have spans := @Extent.spans_through [] _ first closing order
    (by rw [List.append_assoc, List.head?_append, begins]; rfl) List.getLast?_concat
  have pair : Token.Increasing [opening, closing] := order.sublist (by simp)
  -- The header is hung below the definition, and the body behind it.
  obtain ⟨middle, hangs⟩ := (covered.begin heading.form.kind _).attachAll attached
  obtain ⟨names, above, became⟩ := hangs.grown (Tree.get?_alloc_nextId ..)
  obtain ⟨changed, configs, covered', carries, above', body'⟩ :=
    hangs_body hangs.covered above opens closes pair linked
  have start := (Tree.Carries.alloc parser.tree extents heading.form.kind
    (first.span.through closing.span)).trans hangs.carries
  have carried := start.trans carries
  -- The names hold tokens of the header only; the schema's word is in none of them.
  have held : (names.flatMap fun name => (changed name).tokens).Sublist tokens := by
    refine (became.later carries).sublist.trans ?_
    split
    · exact List.nil_sublist _
    · rw [loose.flatMap_of_subset carried (by intro symbol member; simp_all), spelled]
  rw [loose.flatMap_of_subset start (List.subset_append_left _ _), inside] at body'
  -- A definition is its header, the brackets and what is between them.
  have covers : next.tree.Covers changed ⟨heading.form.kind, first.span.through closing.span, none,
      names ++ [configs]⟩ ⟨[], tokens ++ opening :: inner ++ [closing]⟩ :=
    .definition rfl written rfl held opens closes
      (body'.imp_right (And.imp_left fun empty => by rw [← inside, empty]; rfl))
  have under : Loose parser.tree last :=
    loose.of_suffix ((List.suffix_append front _).trans
      ((List.suffix_cons _ _).trans (List.suffix_append _ _)))
  exact ⟨_, allots_push symbols under carried (covered'.settle above' covers spans) under.nextId⟩

end Parser

end ArgSchema
