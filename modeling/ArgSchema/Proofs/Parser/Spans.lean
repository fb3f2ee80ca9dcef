import ArgSchema.Proofs.Lexer.Order
import ArgSchema.Proofs.Parser.Single

/-! Spans: those of tokens and nodes never end in front of their start, so that merging two of them
swaps them at most once. -/

namespace ArgSchema

namespace Span

/-- A span does not end in front of its start. -/
def Ordered (span : Span) : Prop := span.stop.reaches span.start

/-- Merging the span from the start of one to the end of another, with the number of times that they
are swapped because the second ends in front of the first; it never ends if they go on to be. -/
inductive Merges : Span → Span → Nat → Span → Prop
  /-- The second ends no earlier than the first starts. -/
  | forward {first last : Span} : last.stop.reaches first.start →
      Merges first last 0 { first with stop := last.stop }
  /-- The second ends in front of the first. -/
  | swapped {first last merged : Span} {swaps : Nat} : last.stop.before first.start →
      Merges last first swaps merged → Merges first last (swaps + 1) merged

variable {first last merged : Span} {swaps : Nat}

/-- Ordered spans are merged, whichever files they are in, with no more than one swap. -/
theorem merges_through (ordered : first.Ordered) (ordered' : last.Ordered) :
    ∃ swaps, swaps ≤ 1 ∧ Merges first last swaps (first.through last) := by
  unfold through
  by_cases reversed : last.stop.before first.start
  · -- The spans stand in the wrong order, so they are swapped once.
    rw [if_pos reversed]
    refine ⟨1, Nat.le_refl 1, .swapped reversed (.forward ?_)⟩
    -- The first ends behind its own start, and this is behind the whole of the second.
    unfold Ordered Position.reaches Position.before at *
    omega
  · rw [if_neg reversed]
    exact ⟨0, Nat.zero_le 1, .forward reversed⟩

/-- There is one way to merge two spans. -/
theorem Merges.unique {other : Span} {count : Nat} (merges : Merges first last swaps merged)
    (others : Merges first last count other) : swaps = count ∧ merged = other := by
  -- Whether to swap is decided by the two spans alone.
  induction merges generalizing count other with
  | forward reaches =>
    cases others with
    | forward => exact ⟨rfl, rfl⟩
    | swapped reversed => exact absurd reversed reaches
  | swapped reversed _ ih =>
    cases others with
    | forward reaches => exact absurd reversed reaches
    | swapped _ rest =>
      obtain ⟨rfl, rfl⟩ := ih rest
      exact ⟨rfl, rfl⟩

/-- What ordered spans are merged to is ordered. -/
theorem Ordered.through (ordered : first.Ordered) (ordered' : last.Ordered) :
    (first.through last).Ordered := by
  unfold Span.through Ordered at *
  split
  · next reversed =>
    -- Swapped, the merged span goes from the start of the second to the end of the first.
    dsimp only
    unfold Position.reaches Position.before at *
    omega
  · assumption

end Span

/-- The tokens of a text have ordered spans. -/
theorem Cursor.brings_ordered : Cursor.Brings fun token => token.span.Ordered :=
  fun _ _ _ taken => (nextToken_ordered taken).stop

/-- Every node of a tree has an ordered span. -/
def Tree.SpansOrdered (tree : Tree) : Prop :=
  ∀ id kind span, tree.mark? id = some (kind, span) → span.Ordered

/-- Every token among symbols has an ordered span. -/
def Symbol.SpansOrdered (symbols : List Symbol) : Prop :=
  ∀ token, Symbol.token token ∈ symbols → token.span.Ordered

namespace Tree

variable {tree after : Tree} {parent id : NodeId} {kind : NodeKind} {span : Span}

/-- A new node with an ordered span keeps the others. -/
theorem SpansOrdered.alloc (spans : tree.SpansOrdered) (kind : NodeKind) (ordered : span.Ordered) :
    (tree.alloc kind span).SpansOrdered := by
  -- The new node has the given span, and no other node is changed.
  intro id kind' span' marked
  rcases mark?_of_alloc marked with same | old
  · cases same
    exact ordered
  · exact spans id kind' span' old

/-- Hanging a node below another keeps all spans. -/
theorem SpansOrdered.addChild {child : NodeId} (spans : tree.SpansOrdered)
    (done : tree.addChild parent child = .ok after) : after.SpansOrdered :=
  fun id kind span marked => spans id kind span ((mark?_addChild done id).symm.trans marked)

/-- Hanging a symbol below a node keeps spans ordered if the symbol's own is. -/
theorem SpansOrdered.attach {symbol : Symbol} (spans : tree.SpansOrdered)
    (ordered : ∀ token, symbol = .token token → token.span.Ordered)
    (done : tree.attach parent symbol = .ok after) : after.SpansOrdered := by
  -- A leaf has the span of its token.
  intro id kind span marked
  rcases mark?_of_attach done marked with old | ⟨token, same, rfl⟩
  · exact spans id kind span old
  · exact ordered token same

/-- Hanging symbols below a node keeps spans ordered if those of the symbols are. -/
theorem SpansOrdered.attachAll {symbols : List Symbol} (spans : tree.SpansOrdered)
    (ordered : Symbol.SpansOrdered symbols) (done : tree.attachAll parent symbols = .ok after) :
    after.SpansOrdered := by
  -- Each node was there before, or it is the leaf of one of the tokens.
  intro id kind span marked
  rcases mark?_of_attachAll done marked with old | ⟨token, member, rfl⟩
  · exact spans id kind span old
  · exact ordered token member

/-- Stretching a node to the end of an ordered span keeps its own ordered. -/
theorem SpansOrdered.widen (spans : tree.SpansOrdered) (id : NodeId) (ordered : span.Ordered) :
    (tree.widen id span).SpansOrdered := by
  intro other kind stretched marked
  obtain ⟨node, found, same⟩ := Option.map_eq_some_iff.mp marked
  rw [Tree.widen, get?_modify_eq_map] at found
  -- The node was there before, and it was stretched if it is the one.
  obtain ⟨given, live, rfl⟩ := Option.map_eq_some_iff.mp found
  have old : given.span.Ordered := spans other given.kind given.span (by rw [mark?, live]; rfl)
  split at same <;> cases same
  · exact old.through ordered
  · exact old

end Tree

namespace Parser

/-- The tokens on the stack and the nodes of the tree have ordered spans. -/
structure SpansOrdered (parser : Parser) : Prop where
  /-- Tokens on the stack. -/
  stack : Symbol.SpansOrdered parser.stack.symbols
  /-- Nodes of the tree. -/
  tree : parser.tree.SpansOrdered

variable {parser next : Parser} {tree : Tree} {list : NodeKind} {below : List Symbol}
  {symbol : Symbol} {span : Span} {token : Token}

/-- A symbol among others with ordered spans stands for text with an ordered span. -/
theorem ordered_of_span? {symbols : List Symbol} (stack : Symbol.SpansOrdered symbols)
    (spans : tree.SpansOrdered) (member : symbol ∈ symbols)
    (place : symbol.span? tree = some span) : span.Ordered := by
  cases symbol with
  | token token =>
    cases place
    exact stack token member
  | node id =>
    -- A node stands for the text of its own span.
    obtain ⟨node, live, same⟩ := Option.map_eq_some_iff.mp place
    exact spans id node.kind span (by rw [Tree.mark?, live, ← same]; rfl)

/-- A parser that has read nothing has no spans. -/
theorem spansOrdered_start : start.SpansOrdered := by
  refine ⟨nofun, fun id kind span marked => ?_⟩
  simp [Tree.mark?, start] at marked

/-- A token with an ordered span can be put on the stack. -/
theorem SpansOrdered.shift (spans : parser.SpansOrdered) (ordered : token.span.Ordered) :
    (parser.shift token).SpansOrdered := by
  -- The token is the only new symbol.
  refine ⟨fun other member => ?_, spans.tree⟩
  rcases List.mem_cons.mp member with same | member
  · cases same
    exact ordered
  · exact spans.stack other member

/-- Collecting a symbol keeps spans ordered. -/
theorem spansOrdered_collect (stack : Symbol.SpansOrdered (symbol :: below))
    (spans : tree.SpansOrdered) (ordered : span.Ordered)
    (done : parser.collect tree list below symbol span = .ok next) : next.SpansOrdered := by
  have alone : ∀ token, symbol = .token token → token.span.Ordered :=
    fun token same => stack token (same ▸ .head _)
  unfold collect at done
  split at done
  · next id _ =>
    -- The list is stretched to the symbol, and the symbol hangs below it.
    obtain ⟨grown, attached, done⟩ := ok_of_bind done
    cases done
    exact ⟨fun token member => stack token (.tail _ member),
      (spans.widen id ordered).attach alone attached⟩
  · -- The new list has the span of the symbol.
    obtain ⟨grown, attached, done⟩ := ok_of_bind done
    cases done
    refine ⟨fun token member => ?_, (spans.alloc list ordered).attach alone attached⟩
    rcases List.mem_cons.mp member with same | member
    · cases same
    · exact stack token (.tail _ member)

/-- Making a property keeps spans ordered: it goes from its keyword to its semicolon. -/
theorem spansOrdered_makeProperty {keyword semicolon : Token} {values : NodeId}
    {outer : List Symbol}
    (stack : Symbol.SpansOrdered (.token semicolon :: .node values :: .token keyword :: outer))
    (spans : parser.tree.SpansOrdered)
    (made : parser.makeProperty keyword values semicolon outer = .ok next) :
    next.SpansOrdered := by
  -- Both ends were on the stack, the semicolon above the keyword.
  obtain ⟨-, left, attached⟩ := makeProperty_ok made
  have merged := (stack keyword (.tail _ (.tail _ (.head _)))).through (stack semicolon (.head _))
  refine ⟨fun token member => ?_, (spans.alloc .config merged).attachAll ?_ attached⟩
  · rw [left] at member
    rcases List.mem_cons.mp member with same | member
    · cases same
    · exact stack token (.tail _ (.tail _ (.tail _ (List.dropWhile_subset _ member))))
  · -- What hangs below the property was on the stack.
    intro token member
    rcases List.mem_append.mp member with member | member
    · have inside := List.takeWhile_subset _ (List.mem_reverse.mp member)
      exact stack token (.tail _ (.tail _ (.tail _ inside)))
    · rcases List.mem_cons.mp member with same | member
      · cases same
        exact stack keyword (.tail _ (.tail _ (.head _)))
      · cases List.mem_singleton.mp member

/-- Making a definition keeps spans ordered: it goes from its header, or from its opening bracket, to
the closing one. -/
theorem spansOrdered_makeDefinition {header : Header} {opening closing : Token}
    {body : Option NodeId} {rest : List Symbol} (inner : Symbol.SpansOrdered rest)
    (start : opening.span.Ordered) (stop : closing.span.Ordered)
    (spans : parser.tree.SpansOrdered)
    (made : parser.makeDefinition header opening body closing rest = .ok next) :
    next.SpansOrdered := by
  obtain ⟨-, left, named, names, inside, attached, linked⟩ := makeDefinition_ok made
  -- A header that has a place stands for text in front of the bracket.
  have front : ((((rest.take header.length).reverse.head?.bind
      (Symbol.span? parser.tree)).getD opening.span)).Ordered := by
    cases place : (rest.take header.length).reverse.head?.bind (Symbol.span? parser.tree) with
    | none => exact start
    | some span =>
      obtain ⟨symbol, first, given⟩ := Option.bind_eq_some_iff.mp place
      have member := List.mem_of_mem_take (List.mem_reverse.mp (List.mem_of_mem_head? first))
      exact ordered_of_span? inner spans member given
  -- So the definition has a span in order, and its names were on the stack.
  have grown : named.SpansOrdered := (spans.alloc header.kind (front.through stop)).attachAll
    (fun token member => inner token (inside member)) attached
  refine ⟨fun token member => ?_, ?_⟩
  · rw [left] at member
    rcases List.mem_cons.mp member with same | member
    · cases same
    · exact inner token (List.mem_of_mem_drop member)
  · -- A definition without properties has a new list of them, which goes from bracket to bracket.
    rcases linked with ⟨configs, linked⟩ | linked
    · exact grown.addChild linked
    · exact (grown.alloc .configs (start.through stop)).addChild linked

/-- Every single reduction keeps spans ordered. -/
theorem Reduces.spansOrdered (reduces : parser.Reduces next) (spans : parser.SpansOrdered) :
    next.SpansOrdered := by
  have stack := spans.stack
  cases reduces.rule with
  | collect top place _ _ done =>
    rw [top] at stack
    exact spansOrdered_collect stack spans.tree
      (ordered_of_span? stack spans.tree (.head _) place) done
  | drop top behind same =>
    subst same
    rw [top] at stack
    exact ⟨fun token member => stack token (.tail _ (behind.subset member)), spans.tree⟩
  | suppress top same =>
    subst same
    rw [top] at stack
    -- The suppression goes from its modifier to its word.
    have merged := (stack _ (.tail _ (.head _))).through (stack _ (.head _))
    refine ⟨fun token member => ?_, spans.tree.alloc _ merged⟩
    rcases List.mem_cons.mp member with same | member
    · cases same
    · exact stack token (.tail _ (.tail _ member))
  | property top made =>
    rw [top] at stack
    exact spansOrdered_makeProperty stack spans.tree made
  | @definition front closing opening rest _ _ top made =>
    rw [top] at stack
    -- The symbols in front of the brackets, and the brackets themselves, are on the stack.
    have inner : Symbol.SpansOrdered rest := fun token member =>
      stack token (.tail _ (List.mem_append_right _ (.tail _ member)))
    exact spansOrdered_makeDefinition inner
      (stack opening (.tail _ (List.mem_append_right _ (.head _)))) (stack closing (.head _))
      spans.tree made

end Parser

end ArgSchema
