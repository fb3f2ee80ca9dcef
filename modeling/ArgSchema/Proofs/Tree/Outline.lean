import ArgSchema.Proofs.Tree.Forest

/-! Outlines: what a tree holds below a node, without handles and places. -/

namespace ArgSchema

/-- The contents of a node and the outlines of its children, in order. -/
inductive Outline where
  /-- A node over others. -/
  | node (kind : NodeKind) (below : List Outline)

namespace Outline

/-- A node without children. -/
def leaf (kind : NodeKind) : Outline := .node kind []

/-- The contents of the top node. -/
def kind : Outline → NodeKind
  | .node kind _ => kind

/-- What hangs below the top node. -/
def children : Outline → List Outline
  | .node _ children => children

/-- What was put below a node hangs below it. -/
@[simp] theorem children_node (kind : NodeKind) (below : List Outline) :
    (node kind below).children = below := rfl

/-- The type of the top node. -/
def type (outline : Outline) : NodeType := outline.kind.type

end Outline

/-- What a node holds, apart from its place and its parent. -/
def Node.contents (node : Node) : NodeKind × List NodeId := (node.kind, node.children)

namespace Tree

mutual

/-- A live node has the contents of an outline, and so have the nodes below it. -/
def Draws (tree : Tree) (id : NodeId) : Outline → Prop
  | .node kind below =>
    ∃ node, tree.get? id = some node ∧ node.kind = kind ∧ DrawsAll tree node.children below

/-- Live nodes have the contents of outlines, one by one. -/
def DrawsAll (tree : Tree) : List NodeId → List Outline → Prop
  | [], [] => True
  | id :: ids, outline :: outlines => Draws tree id outline ∧ DrawsAll tree ids outlines
  | _, _ => False

end

variable {tree other : Tree}

/-- What is drawn is live. -/
theorem Draws.get? {id : NodeId} {kind : NodeKind} {below : List Outline}
    (drawn : tree.Draws id (.node kind below)) :
    ∃ node, tree.get? id = some node ∧ node.kind = kind ∧ tree.DrawsAll node.children below := by
  simpa only [Draws] using drawn

/-- Lists are drawn piece by piece. -/
theorem drawsAll_append {ids more : List NodeId} {outlines others : List Outline}
    (first : tree.DrawsAll ids outlines) (second : tree.DrawsAll more others) :
    tree.DrawsAll (ids ++ more) (outlines ++ others) := by
  -- By induction on the handles in front, with an outline for each.
  induction ids generalizing outlines with
  | nil => cases outlines <;> simp_all [DrawsAll]
  | cons id ids ih =>
    cases outlines with
    | nil => simp [DrawsAll] at first
    | cons outline outlines =>
      simp only [DrawsAll, List.cons_append] at first ⊢
      exact ⟨first.1, ih first.2⟩

/-- As many nodes are drawn as there are outlines. -/
theorem DrawsAll.length {ids : List NodeId} {outlines : List Outline}
    (drawn : tree.DrawsAll ids outlines) : ids.length = outlines.length := by
  -- By induction on the handles, with an outline for each.
  induction ids generalizing outlines with
  | nil => cases outlines <;> simp_all [DrawsAll]
  | cons id ids ih =>
    cases outlines with
    | nil => simp [DrawsAll] at drawn
    | cons outline outlines =>
      simp only [DrawsAll, List.length_cons] at drawn ⊢
      rw [ih drawn.2]

mutual

/-- A drawing stays if its top and all nodes that have a parent keep what they hold. -/
theorem Draws.congr (forest : Forest tree)
    (kept : ∀ {id node}, tree.get? id = some node → node.parent? ≠ none →
      (other.get? id).map Node.contents = some node.contents)
    {id : NodeId} {node : Node} (found : tree.get? id = some node)
    (same : (other.get? id).map Node.contents = some node.contents) :
    ∀ outline, tree.Draws id outline → other.Draws id outline
  | .node kind below, drawn => by
    -- The children have a parent, which is the node itself.
    simp only [Draws] at drawn ⊢
    obtain ⟨drawnNode, live, shown, children⟩ := drawn
    rw [found] at live
    cases live
    cases now : other.get? id with
    | none => simp [now] at same
    | some node' =>
      simp only [now, Option.map_some, Option.some.injEq, Node.contents, Prod.mk.injEq] at same
      refine ⟨node', rfl, same.1.trans shown, ?_⟩
      rw [same.2]
      refine DrawsAll.congr forest kept _ (fun child member => ?_) below children
      obtain ⟨given, lower, parent, _⟩ := forest.child found child member
      exact ⟨given, lower, by simp [parent]⟩

/-- Drawings of nodes that have a parent stay if all such nodes keep what they hold. -/
theorem DrawsAll.congr (forest : Forest tree)
    (kept : ∀ {id node}, tree.get? id = some node → node.parent? ≠ none →
      (other.get? id).map Node.contents = some node.contents) :
    ∀ (ids : List NodeId), (∀ id ∈ ids, ∃ node, tree.get? id = some node ∧ node.parent? ≠ none) →
      ∀ outlines, tree.DrawsAll ids outlines → other.DrawsAll ids outlines
  | [], _, [], drawn => by simp [DrawsAll]
  | [], _, _ :: _, drawn => by simp [DrawsAll] at drawn
  | _ :: _, _, [], drawn => by simp [DrawsAll] at drawn
  | id :: ids, linked, outline :: outlines, drawn => by
    simp only [DrawsAll] at drawn ⊢
    obtain ⟨node, found, parent⟩ := linked id (by simp)
    exact ⟨Draws.congr forest kept found (kept found parent) outline drawn.1,
      DrawsAll.congr forest kept ids (fun id member => linked id (by simp [member])) outlines
        drawn.2⟩

end

/-- A new node is drawn alone. -/
theorem draws_alloc (tree : Tree) (kind : NodeKind) (span : Span) :
    (tree.alloc kind span).Draws tree.nextId (.node kind []) := by
  simp [Draws, DrawsAll]

/-- Drawings stay when a node is added. -/
theorem Draws.alloc (forest : Forest tree) {id : NodeId} {outline : Outline}
    (drawn : tree.Draws id outline) (kind : NodeKind) (span : Span) :
    (tree.alloc kind span).Draws id outline := by
  obtain ⟨shown, below⟩ := outline
  obtain ⟨node, found, _⟩ := drawn.get?
  -- The new node has a handle of its own, so the others name what they did.
  have kept : ∀ {id node}, tree.get? id = some node →
      ((tree.alloc kind span).get? id).map Node.contents = some node.contents := by
    intro id node found
    simp [get?_alloc_of_get? kind span found]
  exact Draws.congr forest (fun found _ => kept found) found (kept found) _ drawn

/-- Drawings stay when nodes change in neither contents nor children. -/
theorem Draws.modify (forest : Forest tree) {id : NodeId} {outline : Outline}
    (drawn : tree.Draws id outline) (changed : NodeId) {f : Node → Node}
    (same : ∀ node, (f node).contents = node.contents) :
    (tree.modify changed f).Draws id outline := by
  obtain ⟨shown, below⟩ := outline
  obtain ⟨node, found, _⟩ := drawn.get?
  -- Contents are all of a node that a drawing shows.
  have kept : ∀ {id node}, tree.get? id = some node →
      ((tree.modify changed f).get? id).map Node.contents = some node.contents := by
    intro id node found
    rw [get?_modify]
    split <;> simp [found, same]
  exact Draws.congr forest (fun found _ => kept found) found (kept found) _ drawn

section Link

variable {parent child : NodeId} {above : Node}

/-- A link between detached nodes leaves what hangs below other nodes. -/
theorem contents_link (apart : parent ≠ child) {id : NodeId} {node : Node}
    (found : tree.get? id = some node) (other : id ≠ parent) :
    ((tree.link parent child).get? id).map Node.contents = some node.contents := by
  rw [get?_link apart, found, if_neg other]
  split <;> rfl

/-- Drawings of other nodes stay when a detached node is linked below a detached node. -/
theorem Draws.link_other (forest : Forest tree) (upper : tree.get? parent = some above)
    (top : above.parent? = none) (apart : parent ≠ child)
    {id : NodeId} {outline : Outline} (other : id ≠ parent) (drawn : tree.Draws id outline) :
    (tree.link parent child).Draws id outline := by
  obtain ⟨shown, below⟩ := outline
  obtain ⟨node, found, _⟩ := drawn.get?
  refine Draws.congr forest (fun {id node} live named => ?_) found
    (contents_link apart found other) _ drawn
  -- The new parent has no parent itself.
  refine contents_link apart live ?_
  rintro rfl
  rw [upper] at live
  cases live
  exact named top

/-- The new parent draws the linked node behind its other children. -/
theorem Draws.link (forest : Forest tree) (upper : tree.get? parent = some above)
    (top : above.parent? = none) (apart : parent ≠ child)
    {kind : NodeKind} {below : List Outline} {outline : Outline}
    (drawn : tree.Draws parent (.node kind below)) (added : tree.Draws child outline) :
    (tree.link parent child).Draws parent (.node kind (below ++ [outline])) := by
  -- The parent has no parent itself, so no other node lists it.
  obtain ⟨node, found, shown, children⟩ := drawn.get?
  rw [upper] at found
  cases found
  have linked : (tree.link parent child).get? parent =
      some { above with children := above.children ++ [child] } := by
    rw [get?_link apart, if_neg apart, if_pos rfl, upper]
    rfl
  have kept : ∀ {id node}, tree.get? id = some node → node.parent? ≠ none →
      ((tree.link parent child).get? id).map Node.contents = some node.contents := by
    intro id node live named
    refine contents_link apart live ?_
    rintro rfl
    rw [upper] at live
    cases live
    exact named top
  simp only [Draws]
  refine ⟨_, linked, shown, drawsAll_append ?_ ?_⟩
  · -- The children that were there before have a parent.
    refine DrawsAll.congr forest kept _ (fun id member => ?_) below children
    obtain ⟨given, found, parent, _⟩ := forest.child upper id member
    exact ⟨given, found, by simp [parent]⟩
  · simp only [DrawsAll, and_true]
    exact added.link_other forest upper top apart apart.symm

end Link

end Tree

end ArgSchema
