import ArgSchema.Proofs.Walk.Tops

/-! Outermost nodes: the tops of a growth are the nodes of the types with no other such node above them. -/

namespace ArgSchema

namespace Tree

/-- Of nodes in document order, some are those of some types that have no other such node above them. -/
structure Outermost (tree : Tree) (types : NodeTypes) (order visited : List NodeId) : Prop where
  /-- They come in the same order. -/
  ordered : visited.Sublist order
  /-- A node is one of them if it is of the types, and none above it is that is among the nodes. -/
  mem_iff : ∀ id, id ∈ visited ↔ id ∈ order ∧ tree.isOfType types id = true ∧
    ∀ above ∈ order, tree.Under above id → tree.isOfType types above = true → above = id

variable {tree : Tree} {types : NodeTypes}

/-- A node that is not of the types adds nothing. -/
theorem Outermost.cons {order visited : List NodeId} {top : NodeId}
    (outermost : tree.Outermost types order visited) (pass : tree.isOfType types top = false) :
    tree.Outermost types (top :: order) visited := by
  refine ⟨outermost.ordered.cons top, fun id => (outermost.mem_iff id).trans ?_⟩
  -- The node above all others is none of the types, so it neither is visited nor hides one.
  constructor
  · rintro ⟨member, type, alone⟩
    refine ⟨List.mem_cons_of_mem top member, type, fun above listed reached type' => ?_⟩
    -- The added node is not of the types, and the others were there before.
    rcases List.mem_cons.mp listed with rfl | listed
    · cases pass.symm.trans type'
    · exact alone above listed reached type'
  · rintro ⟨member, type, alone⟩
    refine ⟨(List.mem_cons.mp member).resolve_left ?_, type, fun above listed => ?_⟩
    · rintro rfl
      cases pass.symm.trans type
    · exact alone above (List.mem_cons_of_mem top listed)

/-- Nodes with nothing of each other below them add what they have. -/
theorem Outermost.append {first second some more : List NodeId}
    (front : tree.Outermost types first some) (back : tree.Outermost types second more)
    (apart : ∀ a ∈ first, ∀ b ∈ second, ¬tree.Under a b ∧ ¬tree.Under b a) :
    tree.Outermost types (first ++ second) (some ++ more) := by
  refine ⟨front.ordered.append back.ordered, fun id => ?_⟩
  rw [List.mem_append, List.mem_append, front.mem_iff, back.mem_iff]
  -- What is above a node is on the same side as the node.
  constructor
  · rintro (⟨member, type, alone⟩ | ⟨member, type, alone⟩)
    · refine ⟨.inl member, type, fun above listed reached type' => ?_⟩
      rcases List.mem_append.mp listed with listed | listed
      · exact alone above listed reached type'
      · exact absurd reached (apart id member above listed).2
    · refine ⟨.inr member, type, fun above listed reached type' => ?_⟩
      rcases List.mem_append.mp listed with listed | listed
      · exact absurd reached (apart above listed id member).1
      · exact alone above listed reached type'
  · rintro ⟨member | member, type, alone⟩
    · exact .inl ⟨member, type, fun above listed => alone above (List.mem_append_left _ listed)⟩
    · exact .inr ⟨member, type, fun above listed => alone above (List.mem_append_right _ listed)⟩

mutual

/-- The tops of a growth are the outermost of its nodes. -/
theorem Grows.outermost (forest : tree.Forest) : ∀ growth : Growth, tree.Grows growth →
    tree.Outermost types growth.ids ((growth.tops (tree.isOfType types)).map Growth.id)
  | .node top children, grows => by
    have siblings := grows.siblings forest
    have under : ∀ id, id ∈ (Growth.node top children).ids → tree.Under top id :=
      fun id => grows.mem_ids_iff.mp
    simp only [Grows] at grows
    obtain ⟨node, found, -, all⟩ := grows
    cases stop : tree.isOfType types top with
    | true =>
      rw [Growth.tops_of_stops stop]
      refine ⟨List.singleton_sublist.mpr (Growth.id_mem_ids _), fun id => ?_⟩
      rw [List.map_singleton, List.mem_singleton]
      -- Nothing of the types is above the top among these nodes, and so it hides them all.
      constructor
      · rintro rfl
        refine ⟨Growth.id_mem_ids _, stop, fun above listed back _ => ?_⟩
        exact Under.antisymm forest (under above listed) back
      · -- The top is above everything, and of the types.
        rintro ⟨member, -, alone⟩
        exact (alone top (Growth.id_mem_ids _) (under id member) stop).symm
    -- The top is passed over, and its children are siblings.
    | false =>
      rw [Growth.tops_of_not_stops stop]
      exact (GrowsAll.outermost forest children all siblings).cons stop

/-- The tops of siblings are the outermost of their nodes. -/
theorem GrowsAll.outermost (forest : tree.Forest) : ∀ growths : List Growth,
    tree.GrowsAll growths → tree.Siblings growths → tree.Outermost types (Growth.idsAll growths)
      ((Growth.topsAll (tree.isOfType types) growths).map Growth.id)
  | [], _, _ => ⟨.refl _, by simp [Growth.topsAll, Growth.idsAll]⟩
  | growth :: rest, grows, siblings => by
    simp only [GrowsAll] at grows
    obtain ⟨once, parent, named⟩ := siblings
    rw [List.map_cons, List.nodup_cons] at once
    -- The first sibling and the others have nothing below both.
    have others := GrowsAll.outermost forest rest grows.2
      ⟨once.2, parent, fun other member => named other (by simp [member])⟩
    rw [Growth.topsAll, List.map_append, Growth.idsAll]
    refine (Grows.outermost forest growth grows.1).append others fun a here b there => ?_
    obtain ⟨other, member, below⟩ := Growth.mem_idsAll.mp there
    obtain ⟨x, left, leftParent⟩ := named growth (by simp)
    obtain ⟨y, right, rightParent⟩ := named other (by simp [member])
    have reached := grows.1.mem_ids_iff.mp here
    have reached' := (growsAll_iff.mp grows.2 other member).mem_ids_iff.mp below
    -- What is below both would make them the same sibling.
    have apart : ∀ id, tree.Under growth.id id → ¬tree.Under other.id id := fun id first second =>
      once.1 (List.mem_map.mpr ⟨other, member,
        (Under.unique forest left right leftParent rightParent first second).symm⟩)
    exact ⟨fun down => apart b (reached.trans down) reached',
      fun up => apart a reached (reached'.trans up)⟩

end

end Tree

end ArgSchema
