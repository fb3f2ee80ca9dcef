import ArgSchema.Proofs.Tree.Described

/-! Twins: nodes of two trees that look the same below, whatever their handles and places. -/

namespace ArgSchema

namespace Tree

variable {a b : Tree}

/-- A node of one tree and a node of another have the same outline. -/
def Twins (a b : Tree) (id id' : NodeId) : Prop := ∃ outline, a.Draws id outline ∧ b.Draws id' outline

/-- Lists whose members go together with the same members go together themselves. -/
theorem forall₂_twins {ids ids' : List NodeId} {outlines : List Outline}
    (first : List.Forall₂ a.Draws ids outlines) (second : List.Forall₂ b.Draws ids' outlines) :
    List.Forall₂ (a.Twins b) ids ids' := by
  -- Both lists draw the same outlines, so they have one length.
  induction first generalizing ids' with
  | nil =>
    cases second
    exact .nil
  | cons drawn _ ih =>
    cases second with
    | cons drawn' rest => exact .cons ⟨_, drawn, drawn'⟩ (ih rest)

namespace Twins

variable {id id' : NodeId}

section Pair

variable (twins : a.Twins b id id')

include twins

/-- Twins are live and have the same contents. -/
theorem live : ∃ node node', a.get? id = some node ∧ b.get? id' = some node' ∧
    node.kind = node'.kind := by
  obtain ⟨outline, drawn, drawn'⟩ := twins
  -- Both nodes have the contents of the one outline.
  obtain ⟨node, found, kind⟩ := drawn.live
  obtain ⟨node', found', kind'⟩ := drawn'.live
  exact ⟨node, node', found, found', kind.trans kind'.symm⟩

/-- The children of twins are twins in order. -/
theorem children : List.Forall₂ (a.Twins b) (a.children id) (b.children id') := by
  obtain ⟨outline, drawn, drawn'⟩ := twins
  exact forall₂_twins drawn.children drawn'.children

/-- Twins have the same type. -/
theorem isOfType (types : NodeTypes) : a.isOfType types id = b.isOfType types id' := by
  obtain ⟨outline, drawn, drawn'⟩ := twins
  rw [drawn.isOfType, drawn'.isOfType]

/-- The children of some types are twins in order. -/
theorem childrenOfType (types : NodeTypes) :
    List.Forall₂ (a.Twins b) (a.childrenOfType id types) (b.childrenOfType id' types) := by
  obtain ⟨outline, drawn, drawn'⟩ := twins
  exact forall₂_twins (drawn.childrenOfType types) (drawn'.childrenOfType types)

/-- The names below twins are written alike. -/
theorem identifiers : List.Forall₂ (fun x y => x.1 = y.1 ∧ x.2.1 = y.2.1) (a.identifiers id)
    (b.identifiers id') := by
  -- Both nodes draw one outline, and their identifiers are its labels.
  obtain ⟨outline, drawn, drawn'⟩ := twins
  have labels := drawn.identifiers.trans drawn'.identifiers.symm
  have same := List.forall₂_map_left_iff.mp (List.forall₂_map_right_iff.mp
    (List.forall₂_eq_eq_eq ▸ labels))
  exact same.imp fun x y equal => ⟨congrArg Label.name equal, congrArg Label.category equal⟩

end Pair

end Twins

/-- What is below one of two twins has a twin below the other. -/
theorem Under.twin {top top' id' : NodeId} (twins : a.Twins b top top') (reached : b.Under top' id') :
    ∃ id, a.Under top id ∧ a.Twins b id id' := by
  induction reached with
  | top => exact ⟨top, .top, twins⟩
  | @child id' below node' _ found' listed ih =>
    obtain ⟨id, reached, twins⟩ := ih
    obtain ⟨node, _, found, _⟩ := twins.live
    -- Children are twins in order, so the twin of a child is the one at its place.
    have children := twins.children
    rw [children_of_get? found, children_of_get? found'] at children
    obtain ⟨place, long, rfl⟩ := List.getElem_of_mem listed
    have short : place < node.children.length := children.length_eq.symm ▸ long
    exact ⟨node.children[place], .child reached found (List.getElem_mem short),
      children.get short long⟩

end Tree

end ArgSchema
