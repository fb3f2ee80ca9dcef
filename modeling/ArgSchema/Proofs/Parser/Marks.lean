import ArgSchema.Parser.Reduction
import ArgSchema.Proofs.Parser.Warnings
import ArgSchema.Proofs.Tree.Moves

/-! Marks: what a node is and where it stands, which hanging it elsewhere does not change. -/

namespace ArgSchema

namespace Tree

variable {tree after : Tree} {parent id : NodeId} {kind : NodeKind} {span : Span}

/-- What a node is and where it stands. -/
def mark? (tree : Tree) (id : NodeId) : Option (NodeKind × Span) :=
  (tree.get? id).map fun node => (node.kind, node.span)

/-- The type of a node is that of its mark. -/
theorem isOfType_of_mark? (marked : tree.mark? id = some (kind, span)) (types : NodeTypes) :
    tree.isOfType types id = decide (kind.type ∈ types) := by
  -- A mark is the kind and the span of a live node, and the type is read off the kind.
  obtain ⟨node, found, same⟩ := Option.map_eq_some_iff.mp marked
  cases same
  exact isOfType_of_get? found

/-- A node that has a mark is live. -/
theorem node_of_mark? (marked : tree.mark? id = some (kind, span)) :
    ∃ node, tree.node id = .ok node ∧ node.span = span := by
  obtain ⟨node, found, same⟩ := Option.map_eq_some_iff.mp marked
  cases same
  exact ⟨node, by rw [Tree.node, found], rfl⟩

/-- A new node has its mark. -/
@[simp] theorem mark?_alloc_nextId (tree : Tree) (kind : NodeKind) (span : Span) :
    (tree.alloc kind span).mark? tree.nextId = some (kind, span) := by
  simp [mark?]

/-- Every mark is kept when another node is made. -/
theorem mark?_alloc_of_mark? {mark : NodeKind × Span} (kind : NodeKind) (span : Span)
    (marked : tree.mark? id = some mark) : (tree.alloc kind span).mark? id = some mark := by
  -- A node that is live stays as it is when another one is made.
  obtain ⟨node, found, rfl⟩ := Option.map_eq_some_iff.mp marked
  rw [mark?, get?_alloc_of_get? kind span found]
  rfl

/-- A mark in a tree with a new node is the new one's or an old one. -/
theorem mark?_of_alloc {mark : NodeKind × Span}
    (marked : (tree.alloc kind span).mark? id = some mark) :
    mark = (kind, span) ∨ tree.mark? id = some mark := by
  -- The mark is that of the new node, or it was there.
  rw [mark?, get?_alloc] at marked
  split at marked
  · exact .inl (Option.some.inj marked).symm
  · exact .inr marked

/-- Hanging a node below another keeps every mark. -/
theorem mark?_addChild {child : NodeId} (done : tree.addChild parent child = .ok after)
    (id : NodeId) : after.mark? id = tree.mark? id := by
  obtain ⟨_, _, _, _, _, _, _, rfl⟩ := addChild_ok done
  -- Only the links of the two nodes change.
  simp only [mark?, link, get?_modify_eq_map, Option.map_map]
  congr 1
  funext node
  simp only [Function.comp_apply]
  split <;> split <;> rfl

/-- Hanging a symbol below a node keeps the marks of the nodes before it. -/
theorem mark?_attach {symbol : Symbol} {mark : NodeKind × Span}
    (done : tree.attach parent symbol = .ok after) (marked : tree.mark? id = some mark) :
    after.mark? id = some mark := by
  -- Neither linking a node nor making one changes a mark that is there.
  unfold attach at done
  split at done
  · rw [mark?_addChild done, marked]
  · -- A token that carries nothing is not made a node.
    split at done
    · cases done
      exact marked
    · rw [mark?_addChild done, mark?_alloc_of_mark? _ _ marked]

/-- Hanging a symbol below a node makes no mark but one with the symbol's own span. -/
theorem mark?_of_attach {symbol : Symbol} (done : tree.attach parent symbol = .ok after)
    (marked : after.mark? id = some (kind, span)) :
    tree.mark? id = some (kind, span) ∨ ∃ token, symbol = .token token ∧ span = token.span := by
  -- A node that is linked had its mark before.
  unfold attach at done
  split at done
  · exact .inl ((mark?_addChild done id).symm.trans marked)
  · next token =>
    split at done
    · cases done
      exact .inl marked
    · -- The node that is made of a token has the token's span.
      rcases mark?_of_alloc ((mark?_addChild done id).symm.trans marked) with same | old
      · cases same
        exact .inr ⟨token, rfl, rfl⟩
      · exact .inl old

/-- Hanging symbols below a node hangs the first one and then the others. -/
theorem attachAll_cons {symbol : Symbol} {symbols : List Symbol}
    (done : tree.attachAll parent (symbol :: symbols) = .ok after) :
    ∃ middle, tree.attach parent symbol = .ok middle ∧
      middle.attachAll parent symbols = .ok after := by
  rw [attachAll, List.foldlM_cons] at done
  exact ok_of_bind done

/-- Hanging symbols below a node keeps the marks of the nodes before them. -/
theorem mark?_attachAll {symbols : List Symbol} {mark : NodeKind × Span} :
    ∀ {tree : Tree}, tree.attachAll parent symbols = .ok after → tree.mark? id = some mark →
      after.mark? id = some mark := by
  -- By induction on the symbols.
  induction symbols with
  | nil =>
    intro tree done marked
    cases done
    exact marked
  | cons symbol symbols ih =>
    intro tree done marked
    obtain ⟨middle, first, rest⟩ := attachAll_cons done
    exact ih rest (mark?_attach first marked)

/-- Hanging symbols below a node makes no marks but those with spans of their own. -/
theorem mark?_of_attachAll {symbols : List Symbol} :
    ∀ {tree : Tree}, tree.attachAll parent symbols = .ok after →
      after.mark? id = some (kind, span) →
      tree.mark? id = some (kind, span) ∨ ∃ token, .token token ∈ symbols ∧ span = token.span := by
  induction symbols with
  | nil =>
    intro tree done marked
    cases done
    exact .inl marked
  | cons symbol symbols ih =>
    intro tree done marked
    obtain ⟨middle, first, rest⟩ := attachAll_cons done
    -- The mark was made by one of the later symbols, by the first one, or before.
    rcases ih rest marked with old | ⟨token, member, same⟩
    · rcases mark?_of_attach first old with old | ⟨token, rfl, same⟩
      · exact .inl old
      · exact .inr ⟨token, .head _, same⟩
    · exact .inr ⟨token, .tail _ member, same⟩

end Tree

end ArgSchema
