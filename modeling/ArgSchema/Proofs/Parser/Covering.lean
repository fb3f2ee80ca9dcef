import ArgSchema.Proofs.Parser.Marks
import ArgSchema.Proofs.Tree.Extents
import Mathlib.Logic.Function.Basic

/-! Covering: while one node of a tree grows, all others stay made of the tokens that they are made of. -/

namespace ArgSchema

/-- What a symbol is made of. -/
def Symbol.extent (extents : NodeId → Extent) : Symbol → Extent
  | .token given => .single given
  | .node id => extents id

/-- The tokens that a symbol is made of. -/
def Symbol.tokens (extents : NodeId → Extent) (symbol : Symbol) : List Token :=
  (symbol.extent extents).tokens

/-- A token is made of itself. -/
@[simp] theorem Symbol.tokens_token (extents : NodeId → Extent) (token : Token) :
    (Symbol.token token).tokens extents = [token] := rfl

/-- A node is made of its tokens. -/
@[simp] theorem Symbol.tokens_node (extents : NodeId → Extent) (id : NodeId) :
    (Symbol.node id).tokens extents = (extents id).tokens := rfl

namespace Tree

/-- All nodes of a well-formed tree are made of their tokens, but for one that still grows. -/
structure Covered (tree : Tree) (extents : NodeId → Extent) (growing : Option NodeId) : Prop where
  /-- The tree is well formed. -/
  forest : tree.Forest
  /-- Every other node is made of its tokens, and its span is for them. -/
  covers : ∀ {id node}, tree.get? id = some node → growing ≠ some id →
    tree.Covers extents node (extents id) ∧ (extents id).Spans node.span
  /-- The node that grows hangs nowhere. -/
  detached : ∀ {id}, growing = some id → ∃ node, tree.get? id = some node ∧ node.parent? = none

/-- A later tree has the nodes of an earlier one, made of the same tokens. -/
structure Carries (tree : Tree) (extents : NodeId → Extent) (after : Tree)
    (changed : NodeId → Extent) : Prop where
  /-- Nodes stay live and keep their contents. -/
  kind : ∀ {id node}, tree.get? id = some node →
    ∃ later, after.get? id = some later ∧ later.kind = node.kind
  /-- Nodes stay made of the same tokens. -/
  extent : ∀ {id node}, tree.get? id = some node → changed id = extents id

/-- The children that symbols become: nodes stay what they are, and tokens become leaves or nothing. -/
inductive Hung (tree : Tree) (extents : NodeId → Extent) : List Symbol → List NodeId → Prop
  /-- No symbols become no children. -/
  | nothing : Hung tree extents [] []
  /-- A node becomes a child. -/
  | node {id : NodeId} {symbols : List Symbol} {ids : List NodeId} :
      Hung tree extents symbols ids → Hung tree extents (.node id :: symbols) (id :: ids)
  /-- The leaf of a token becomes a child. -/
  | leaf {token : Token} {id : NodeId} {node : Node} {symbols : List Symbol} {ids : List NodeId} :
      tree.get? id = some node → token.leaf? = some node.kind → extents id = .single token →
      Hung tree extents symbols ids → Hung tree extents (.token token :: symbols) (id :: ids)
  /-- A token without a leaf becomes nothing. -/
  | blank {token : Token} {symbols : List Symbol} {ids : List NodeId} : token.leaf? = none →
      Hung tree extents symbols ids → Hung tree extents (.token token :: symbols) ids

/-- Symbols were hung below a node that grows. -/
structure Hangs (tree : Tree) (extents : NodeId → Extent) (after : Tree)
    (changed : NodeId → Extent) (parent : NodeId) (symbols : List Symbol) : Prop where
  /-- All nodes but the one that grows are made of their tokens. -/
  covered : after.Covered changed (some parent)
  /-- Nothing is made of other tokens than before. -/
  carries : tree.Carries extents after changed
  /-- The node that grows got the children that the symbols became. -/
  grown : ∀ {above}, tree.get? parent = some above → ∃ hung,
    after.get? parent = some { above with children := above.children ++ hung } ∧
      Hung after changed symbols hung

variable {tree middle after : Tree} {extents first changed : NodeId → Extent}
  {parent child id : NodeId} {symbols more : List Symbol} {ids : List NodeId}
  {growing : Option NodeId} {node other : Node}

/-- What is carried on twice is carried on. -/
theorem Carries.trans (carries : tree.Carries extents middle first)
    (carries' : middle.Carries first after changed) : tree.Carries extents after changed := by
  -- What is live stays live, so the two steps follow each other.
  refine ⟨fun found => ?_, fun found => ?_⟩ <;> obtain ⟨later, found', kind⟩ := carries.kind found
  · obtain ⟨last, found'', kind'⟩ := carries'.kind found'
    exact ⟨last, found'', kind'.trans kind⟩
  · exact (carries'.extent found').trans (carries.extent found)

/-- Nodes that are carried on keep their types. -/
theorem Carries.isOfType (carries : tree.Carries extents after changed)
    (found : tree.get? id = some node) (types : NodeTypes) :
    after.isOfType types id = tree.isOfType types id := by
  obtain ⟨later, found', kind⟩ := carries.kind found
  rw [isOfType_of_get? found, isOfType_of_get? found', Node.type, Node.type, kind]

/-- A node whose contents and children stay is made of the same tokens later. -/
theorem Covered.later (covered : tree.Covered extents growing)
    (carries : tree.Carries extents after changed) (found : tree.get? id = some node)
    (apart : growing ≠ some id) (kind : other.kind = node.kind) (span : other.span = node.span)
    (children : other.children = node.children) (parent : node.parent? ≠ none → other.parent? ≠ none) :
    after.Covers changed other (changed id) ∧ (changed id).Spans other.span := by
  obtain ⟨covers, spans⟩ := covered.covers found apart
  rw [carries.extent found, span]
  -- The children are live, so their extents and types were carried on.
  refine ⟨covers.congr kind children parent fun child member => ?_, spans⟩
  obtain ⟨given, lower, -⟩ := covered.forest.child found child member
  exact ⟨carries.extent lower, carries.isOfType lower⟩

/-- Children stay what symbols became. -/
theorem Hung.later (hung : Hung tree extents symbols ids)
    (carries : tree.Carries extents after changed) : Hung after changed symbols ids := by
  -- Only a leaf is looked up in the tree, and it is carried on.
  induction hung with
  | nothing => exact .nothing
  | node _ ih => exact .node ih
  | leaf found leaf same _ ih =>
    obtain ⟨later, found', kind⟩ := carries.kind found
    exact .leaf found' (leaf.trans (congrArg some kind.symm)) ((carries.extent found).trans same) ih
  | blank none _ ih => exact .blank none ih

/-- Symbols behind others become the children behind theirs. -/
theorem Hung.append {others : List NodeId} (hung : Hung tree extents symbols ids)
    (rest : Hung tree extents more others) : Hung tree extents (symbols ++ more) (ids ++ others) := by
  -- By induction on the first part.
  induction hung with
  | nothing => exact rest
  | node _ ih => exact .node ih
  | leaf found leaf same _ ih => exact .leaf found leaf same ih
  | blank none _ ih => exact .blank none ih

/-- The children are made of tokens of the symbols, in their order. -/
theorem Hung.sublist (hung : Hung tree extents symbols ids) :
    (ids.flatMap fun id => (extents id).tokens).Sublist
      (symbols.flatMap (Symbol.tokens extents)) := by
  -- A blank symbol has a token that no child is made of.
  induction hung with
  | nothing => exact .refl _
  | node _ ih => exact ih.append_left _
  | leaf _ _ same _ ih =>
    rw [List.flatMap_cons, same]
    exact ih.append_left _
  | blank _ _ ih => exact .cons _ ih

/-- Nodes in front of other symbols become children in front of what those become. -/
theorem Hung.of_nodes {nodes : List NodeId} (hung : Hung tree extents (nodes.map .node ++ symbols) ids) :
    ∃ rest, ids = nodes ++ rest ∧ Hung tree extents symbols rest := by
  -- A node is hung as it is, so the handles stand in front.
  induction nodes generalizing ids with
  | nil => exact ⟨ids, rfl, hung⟩
  | cons first nodes ih =>
    cases hung with
    | node hung =>
      obtain ⟨rest, rfl, given⟩ := ih hung
      exact ⟨rest, rfl, given⟩

/-- A symbol that stands for something becomes one child, which is made of the same tokens. -/
theorem Hung.single {symbol : Symbol} (hung : Hung tree extents [symbol] ids)
    (stands : ∀ token, symbol = .token token → token.leaf? ≠ none) :
    ∃ child, ids = [child] ∧ extents child = symbol.extent extents := by
  -- Only a token without a leaf gives no child.
  cases hung with
  | node rest =>
    cases rest
    exact ⟨_, rfl, rfl⟩
  | leaf _ _ same rest =>
    cases rest
    exact ⟨_, rfl, same⟩
  | blank none => exact absurd none (stands _ rfl)

/-- What was hung below a node stays there when more is hung below it. -/
theorem Hangs.trans (hangs : tree.Hangs extents middle first parent symbols)
    (hangs' : middle.Hangs first after changed parent more) :
    tree.Hangs extents after changed parent (symbols ++ more) := by
  -- The second step appends to the list that the first one left.
  refine ⟨hangs'.covered, hangs.carries.trans hangs'.carries, fun found => ?_⟩
  obtain ⟨front, found', hung⟩ := hangs.grown found
  obtain ⟨back, found'', hung'⟩ := hangs'.grown found'
  refine ⟨front ++ back, ?_, (hung.later hangs'.carries).append hung'⟩
  rw [found'', List.append_assoc]

/-- A node can be hung below the one that grows. -/
theorem Covered.link (covered : tree.Covered extents (some parent))
    (done : tree.addChild parent child = .ok after) :
    tree.Hangs extents after extents parent [.node child] := by
  obtain ⟨above, given, upper, lower, detached, accepted, room, rfl⟩ := addChild_ok done
  have apart := Forest.ne_of_accepted upper lower accepted
  have linked : ∀ {above}, tree.get? parent = some above → (tree.link parent child).get? parent =
      some { above with children := above.children ++ [child] } := fun found => by
    rw [get?_link apart, if_neg apart, if_pos rfl, found]
    rfl
  have carries : tree.Carries extents (tree.link parent child) extents := by
    refine ⟨fun found => ?_, fun _ => rfl⟩
    rw [get?_link apart, found]
    split
    · exact ⟨_, rfl, rfl⟩
    · split <;> exact ⟨_, rfl, rfl⟩
  refine ⟨⟨covered.forest.link upper lower detached accepted room, fun found other => ?_, ?_⟩, carries,
    fun found => ⟨[child], linked found, .node .nothing⟩⟩
  · rw [get?_link apart] at found
    -- Only the child is changed besides the parent, and only in its own parent.
    split at found
    · obtain ⟨old, live, rfl⟩ := Option.map_eq_some_iff.mp found
      exact covered.later carries live other rfl rfl rfl fun _ => Option.some_ne_none _
    · rw [if_neg (by rintro rfl; exact other rfl)] at found
      exact covered.later carries found other rfl rfl rfl fun linked => linked
  · rintro _ ⟨⟩
    obtain ⟨above', upper', alone⟩ := covered.detached rfl
    exact ⟨_, linked upper', alone⟩

/-- Making a node changes no other. -/
theorem Carries.alloc (tree : Tree) (extents : NodeId → Extent) (kind : NodeKind) (span : Span) :
    tree.Carries extents (tree.alloc kind span) extents :=
  ⟨fun found => ⟨_, get?_alloc_of_get? kind span found, rfl⟩, fun _ => rfl⟩

/-- A node that is stretched keeps everything but its span. -/
theorem get?_widen (found : tree.get? id = some node) (span : Span) :
    (tree.widen id span).get? id = some { node with span := node.span.through span } := by
  rw [Tree.widen, get?_modify, if_pos rfl, found]
  rfl

/-- Stretching a node keeps what it is and what all nodes are made of. -/
theorem Carries.widen (tree : Tree) (extents : NodeId → Extent) (id : NodeId) (span : Span) :
    tree.Carries extents (tree.widen id span) extents := by
  -- Only the span of one node changes.
  refine ⟨fun found => ?_, fun _ => rfl⟩
  rw [Tree.widen, get?_modify, found]
  split <;> exact ⟨_, rfl, rfl⟩

/-- A new node without children can be hung below the one that grows. -/
theorem Covered.hang (covered : tree.Covered extents (some parent)) {kind : NodeKind} {span : Span}
    {extent : Extent} (done : (tree.alloc kind span).addChild parent tree.nextId = .ok after)
    (covers : ∀ tree extents, Covers tree extents ⟨kind, span, some parent, []⟩ extent)
    (spans : extent.Spans span) :
    after.Covered (Function.update extents tree.nextId extent) (some parent) ∧
      tree.Carries extents after (Function.update extents tree.nextId extent) ∧
      ∀ {above}, tree.get? parent = some above →
        after.get? parent = some { above with children := above.children ++ [tree.nextId] } ∧
          after.get? tree.nextId = some ⟨kind, span, some parent, []⟩ := by
  -- The new node is the last child, and it has no children of its own.
  obtain ⟨above, given, upper, lower, detached, accepted, room, rfl⟩ := addChild_ok done
  have apart := Forest.ne_of_accepted upper lower accepted
  -- Two nodes differ: the new one, and its parent by one child.
  have linked : ∀ id, ((tree.alloc kind span).link parent tree.nextId).get? id =
      if id = tree.nextId then some ⟨kind, span, some parent, []⟩
      else if id = parent then
        (tree.get? id).map fun node => { node with children := node.children ++ [tree.nextId] }
      else tree.get? id := by
    intro id
    rw [get?_link apart, get?_alloc]
    split <;> rfl
  -- All nodes that were there keep their kinds and their tokens.
  have carries : tree.Carries extents ((tree.alloc kind span).link parent tree.nextId)
      (Function.update extents tree.nextId extent) := by
    refine ⟨fun found => ?_, fun found => Function.update_of_ne (ne_nextId found) _ _⟩
    rw [linked, if_neg (ne_nextId found), found]
    split <;> exact ⟨_, rfl, rfl⟩
  have above' : ∀ {above}, tree.get? parent = some above →
      ((tree.alloc kind span).link parent tree.nextId).get? parent =
        some { above with children := above.children ++ [tree.nextId] } := fun found => by
    rw [linked, if_neg apart, if_pos rfl, found]
    rfl
  refine ⟨⟨(covered.forest.alloc kind span).link upper lower detached accepted room,
    fun {id} _ found other => ?_, ?_⟩, carries, fun found => ⟨above' found, ?_⟩⟩
  · rw [linked] at found
    -- The new node is made of its own tokens, and all others of what they were made of.
    split at found
    · next new =>
      subst new
      cases found
      rw [Function.update_self]
      exact ⟨covers _ _, spans⟩
    · rw [if_neg (by rintro rfl; exact other rfl)] at found
      exact covered.later carries found other rfl rfl rfl fun linked => linked
  · rintro _ ⟨⟩
    obtain ⟨top, live, alone⟩ := covered.detached rfl
    exact ⟨_, above' live, alone⟩
  · rw [linked, if_pos rfl]

/-- A symbol can be hung below the node that grows. -/
theorem Covered.attach (covered : tree.Covered extents (some parent)) {symbol : Symbol}
    (done : tree.attach parent symbol = .ok after) :
    ∃ changed, tree.Hangs extents after changed parent [symbol] := by
  -- A node is linked, and a token becomes a leaf if it carries something.
  unfold Tree.attach at done
  split at done
  · exact ⟨extents, covered.link done⟩
  · next token =>
    split at done
    · -- A token that carries nothing is not made a node.
      next none =>
      cases done
      refine ⟨extents, covered, ⟨fun found => ⟨_, found, rfl⟩, fun _ => rfl⟩, fun found => ?_⟩
      exact ⟨[], by rw [List.append_nil]; exact found, .blank none .nothing⟩
    · next kind leaf =>
      obtain ⟨covered', carries, grown⟩ := covered.hang done (fun _ _ => .leaf leaf rfl)
        (Extent.spans_single token)
      refine ⟨_, covered', carries, fun found => ?_⟩
      obtain ⟨above, lower⟩ := grown found
      exact ⟨_, above, .leaf lower leaf (Function.update_self ..) .nothing⟩

/-- Symbols can be hung below the node that grows. -/
theorem Covered.attachAll (covered : tree.Covered extents (some parent))
    (done : tree.attachAll parent symbols = .ok after) :
    ∃ changed, tree.Hangs extents after changed parent symbols := by
  induction symbols generalizing tree extents with
  | nil =>
    cases done
    refine ⟨extents, covered, ⟨fun found => ⟨_, found, rfl⟩, fun _ => rfl⟩, fun found => ?_⟩
    exact ⟨[], by rw [List.append_nil]; exact found, .nothing⟩
  | cons symbol symbols ih =>
    -- What the first symbol left is the tree that the others are hung in.
    obtain ⟨middle, attached, rest⟩ := attachAll_cons done
    obtain ⟨first, hangs⟩ := covered.attach attached
    obtain ⟨changed, hangs'⟩ := ih hangs.covered rest
    exact ⟨changed, hangs.trans hangs'⟩

/-- A new node can begin to grow. -/
theorem Covered.begin (covered : tree.Covered extents none) (kind : NodeKind) (span : Span) :
    (tree.alloc kind span).Covered extents (some tree.nextId) := by
  -- The new node has nothing below it yet, so only it is left out of what is covered.
  refine ⟨covered.forest.alloc kind span, fun {id _} found other => ?_, ?_⟩
  · rw [get?_alloc, if_neg (by rintro rfl; exact other rfl)] at found
    exact covered.later (.alloc tree extents kind span) found (Option.some_ne_none _).symm rfl rfl rfl
      fun linked => linked
  · rintro _ ⟨⟩
    exact ⟨_, get?_alloc_nextId tree kind span, rfl⟩

/-- A node that hangs nowhere can go on growing when it is stretched. -/
theorem Covered.widen (covered : tree.Covered extents none) (found : tree.get? id = some node)
    (detached : node.parent? = none) (span : Span) :
    (tree.widen id span).Covered extents (some id) := by
  -- Only the node that grows has changed, and its span is not looked at.
  refine ⟨covered.forest.congr (.modify tree id fun _ => rfl), fun {other _} live apart => ?_, ?_⟩
  · rw [Tree.widen, get?_modify, if_neg (by rintro rfl; exact apart rfl)] at live
    exact covered.later (.widen tree extents id span) live (Option.some_ne_none _).symm rfl rfl rfl
      fun linked => linked
  · rintro _ ⟨⟩
    exact ⟨_, get?_widen found span, detached⟩

/-- A node stops growing when it is made of tokens that its span is for. -/
theorem Covered.settle (covered : tree.Covered extents (some id)) (found : tree.get? id = some node)
    {extent : Extent} (covers : tree.Covers extents node extent) (spans : extent.Spans node.span) :
    tree.Covered (Function.update extents id extent) none := by
  have outside : ∀ {other given}, tree.get? other = some given → id ∉ given.children :=
    covered.forest.not_mem_of_detached fun given live => by
      obtain ⟨alone, live', detached⟩ := covered.detached rfl
      cases live.symm.trans live'
      exact detached
  -- The node is nobody's child, so nothing depends on what it is made of.
  have same : ∀ {other given}, tree.get? other = some given → ∀ child ∈ given.children,
      Function.update extents id extent child = extents child ∧
        ∀ types, tree.isOfType types child = tree.isOfType types child := fun live child member =>
    ⟨Function.update_of_ne (by rintro rfl; exact outside live member) _ _, fun _ => rfl⟩
  refine ⟨covered.forest, fun {other given} live _ => ?_, nofun⟩
  by_cases here : other = id
  · subst here
    cases live.symm.trans found
    rw [Function.update_self]
    exact ⟨covers.congr rfl rfl (fun linked => linked) (same found), spans⟩
  · rw [Function.update_of_ne here]
    obtain ⟨covers', spans'⟩ := covered.covers live fun grows => here (Option.some.inj grows).symm
    exact ⟨covers'.congr rfl rfl (fun linked => linked) (same live), spans'⟩

end Tree

end ArgSchema
