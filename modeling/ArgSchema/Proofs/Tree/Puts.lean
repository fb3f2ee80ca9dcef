import ArgSchema.Proofs.Tree.Definitions
import ArgSchema.Proofs.Tree.Develops

/-! Putting a node in the place of another: when this is refused, and what it leaves as it was. -/

namespace ArgSchema

namespace Tree

variable {tree after : Tree} {id new parent : NodeId}

/-- Releasing nodes leaves all others that cannot be reached from them. -/
theorem get?_releaseAll {nodes : Array (Option Node)} {pending : List NodeId}
    (apart : ∀ top ∈ pending, ¬Under { tree with nodes := nodes } top id) :
    get? { tree with nodes := releaseAll nodes pending } id = get? { tree with nodes := nodes } id := by
  -- The nodes whose links are followed are those that wait, so the waiting ones carry the claim.
  fun_induction releaseAll nodes pending with
  | case1 nodes => rfl
  | case2 nodes top rest node found ih =>
    have live : get? { tree with nodes := nodes } top = some node := by
      rw [get?, found]
      rfl
    have other : id ≠ top := fun same => apart top (by simp) (same ▸ .top)
    refine (ih fun below member reached => ?_).trans
      ((get?_without { tree with nodes := nodes } top id).trans (if_neg other))
    -- What can be reached without the node could be reached before, and so it could from the node.
    have before : Under { tree with nodes := nodes } below id := by
      refine reached.of_subset fun above _ child listed => ?_
      obtain ⟨upper, there, inside⟩ := get?_of_mem_children listed
      have there : (Tree.without { tree with nodes := nodes } top).get? above = some upper := there
      obtain ⟨-, kept⟩ := get?_without_eq_some.mp there
      simpa [children, kept] using inside
    rcases List.mem_append.mp member with child | later
    · exact apart top (by simp) (before.of_child (by simpa [children, live] using child))
    · exact apart below (by simp [later]) before
  | case3 nodes top rest none ih => exact ih fun below member => apart below (by simp [member])

/-- Releasing a node leaves all others that cannot be reached from it. -/
theorem get?_release {top : NodeId} (apart : ¬tree.Under top id) :
    (tree.release top).get? id = tree.get? id :=
  @get?_releaseAll tree id tree.nodes [top] (by simpa using apart)

/-- A node that can be reached is one, or can be reached without one, perhaps from its children. -/
theorem Under.without {top : NodeId} (reached : tree.Under top id) (middle : NodeId) :
    id = middle ∨ (∃ child ∈ tree.children middle, (tree.without middle).Under child id) ∨
      (tree.without middle).Under top id := by
  -- By induction on the way down, which either meets the node or avoids it.
  induction reached with
  | top => exact .inr (.inr .top)
  | @child above below node _ found listed ih =>
    by_cases here : above = middle
    · subst here
      exact .inr (.inl ⟨below, by simpa [children, found] using listed, .top⟩)
    · -- Any other node is still there, with the children that it had.
      have left := get?_without_eq_some.mpr ⟨here, found⟩
      rcases ih with same | ⟨child, first, way⟩ | way
      · exact absurd same here
      · exact .inr (.inl ⟨child, first, way.child left listed⟩)
      · exact .inr (.inr (way.child left listed))

/-- From a handle that names nothing only it can be reached. -/
theorem Under.eq_of_gone {top : NodeId} (gone : tree.get? top = none) (reached : tree.Under top id) :
    id = top := by
  -- Nothing hangs below a handle that names nothing.
  by_contra other
  obtain ⟨child, member, -⟩ := reached.exists_child other
  obtain ⟨node, found, -⟩ := get?_of_mem_children member
  simp [gone] at found

/-- Releasing nodes leaves nothing of what can be reached from them. -/
theorem get?_releaseAll_of_under {nodes : Array (Option Node)} {pending : List NodeId}
    (below : ∃ top ∈ pending, Under { tree with nodes := nodes } top id) :
    get? { tree with nodes := releaseAll nodes pending } id = none := by
  -- By induction on the releases, with the way down from one of the pending handles.
  fun_induction releaseAll nodes pending with
  | case1 nodes => simp at below
  | case2 nodes top rest node found ih =>
    have live : get? { tree with nodes := nodes } top = some node := by
      rw [get?, found]
      rfl
    have gone := (get?_without { tree with nodes := nodes } top top).trans (if_pos rfl)
    have stays : id = top → get? { tree with
        nodes := releaseAll (nodes.setIfInBounds top.index none) (node.children ++ rest) } id =
          none := by
      rintro rfl
      exact (Fades.releaseAll tree _ _).gone id gone
    obtain ⟨first, member, reached⟩ := below
    -- The first node is gone at once, and the way to any other leads past it, or from its children.
    rcases reached.without top with here | ⟨child, listed, way⟩ | way
    · exact stays here
    · refine ih ⟨child, List.mem_append_left _ ?_, way⟩
      simpa [children, live] using listed
    · rcases List.mem_cons.mp member with rfl | later
      · exact stays (way.eq_of_gone gone)
      · exact ih ⟨first, List.mem_append_right _ later, way⟩
  | case3 nodes top rest none ih =>
    have gone : get? { tree with nodes := nodes } top = .none := get?_of_empty_slot none
    obtain ⟨first, member, reached⟩ := below
    rcases List.mem_cons.mp member with rfl | later
    · -- A handle that names nothing still does when all others are released.
      rw [reached.eq_of_gone gone]
      exact (Fades.releaseAll tree nodes rest).gone first gone
    · exact ih ⟨first, later, reached⟩

/-- Releasing a node leaves nothing of what can be reached from it. -/
theorem get?_release_of_under {top : NodeId} (reached : tree.Under top id) :
    (tree.release top).get? id = none :=
  @get?_releaseAll_of_under tree id tree.nodes [top] ⟨top, by simp, reached⟩

/-- The tree with a node in the place of another, which is that of a child or that of the root. -/
def put (tree : Tree) (id new : NodeId) : Except TreeError Tree :=
  if new = id then .ok tree
  else match tree.parent? id with
    | some parent => tree.replaceChild parent ((tree.children parent).idxOf id) new
    | none => tree.setRoot new

/-- Why a node cannot stand in the place of another. -/
inductive Refused (tree : Tree) (id new : NodeId) : TreeError → Prop
  /-- It is not live. -/
  | unknown : tree.get? new = none → Refused tree id new (.unknownNode new)
  /-- The parent of the other does not accept it. -/
  | child {parent : NodeId} {above given : Node} : tree.parent? id = some parent →
      tree.get? parent = some above → tree.get? new = some given →
      given.type ∉ above.type.whitelist →
      Refused tree id new (.illegalChild (.only above.type) (.only given.type) above.type.whitelist)
  /-- The other has no parent, and it is no file. -/
  | root {given : Node} : tree.parent? id = none → tree.get? new = some given →
      given.type ≠ .file → Refused tree id new (.illegalRoot (.only given.type))

/-- Every node can stand in its own place. -/
theorem put_self (tree : Tree) (id : NodeId) : tree.put id id = .ok tree := if_pos rfl

/-- A file has no parent. -/
theorem Forest.parent?_of_file (forest : tree.Forest) {node : Node} (found : tree.get? id = some node)
    (file : node.type = .file) : node.parent? = none := by
  cases named : node.parent? with
  | none => rfl
  | some parent =>
    obtain ⟨above, upper, member⟩ := forest.listed found named
    obtain ⟨given, live, -, accepted⟩ := forest.child upper id member
    rw [found] at live
    cases live
    -- A parent is farther above the leaves than its children, and a file is above all.
    have below := NodeType.rank_lt accepted
    rw [file] at below
    exact absurd (Nat.lt_of_lt_of_le below above.type.rank_le_file) (Nat.lt_irrefl _)

/-- The parent of a child is the one that lists it. -/
theorem Forest.parent?_of_mem (forest : tree.Forest) (member : id ∈ tree.children parent) :
    tree.parent? id = some parent := by
  obtain ⟨above, given, -, live, named, -⟩ := forest.of_mem_children member
  rw [parent?, live]
  exact named

/-- A node is refused in the place of another only for one of these reasons. -/
theorem Forest.put_refused (forest : tree.Forest) {error : TreeError}
    (failed : tree.put id new = .error error) : tree.Refused id new error := by
  unfold put at failed
  split at failed
  · cases failed
  · next apart =>
    -- With a parent the child is replaced there, without one the root is.
    split at failed
    · next parent named =>
      obtain ⟨node, found, known⟩ := Option.bind_eq_some_iff.mp named
      obtain ⟨above, upper, member⟩ := forest.listed found known
      -- The position that is asked for is that of the child, so replacing it can fail for two
      -- reasons.
      have place : above.children[above.children.idxOf id]? = some id :=
        List.getElem?_idxOf member
      simp only [Tree.replaceChild, upper, children, Option.map_some, Option.getD_some, place,
        if_neg (Ne.symm apart)] at failed
      cases lower : tree.get? new with
      | none =>
        simp only [lower] at failed
        cases failed
        exact .unknown lower
      | some given =>
        simp only [lower] at failed
        split at failed
        · cases failed
        · next rejected =>
          cases failed
          exact .child named upper lower rejected
    · next alone =>
      unfold Tree.setRoot at failed
      cases lower : tree.get? new with
      | none =>
        simp only [lower] at failed
        cases failed
        exact .unknown lower
      | some given =>
        simp only [lower] at failed
        split at failed
        · next other =>
          cases failed
          exact .root alone lower other
        · next file =>
          -- A file is attached nowhere.
          have detached := forest.parent?_of_file lower (Decidable.byContradiction file)
          rw [if_neg (by simp [detached])] at failed
          cases failed

/-- A live node that is accepted in the place of another. -/
structure Fits (tree : Tree) (id new : NodeId) : Prop where
  /-- It is live, the parent of the other accepts it, and it is a file if there is none. -/
  live : ∃ given, tree.get? new = some given ∧
    (∀ parent above, tree.parent? id = some parent → tree.get? parent = some above →
      given.type ∈ above.type.whitelist) ∧
    (tree.parent? id = none → given.type = .file)

/-- A node that fits is not refused. -/
theorem Fits.not_refused (fits : tree.Fits id new) {error : TreeError} :
    ¬tree.Refused id new error := by
  obtain ⟨given, lower, accepted, file⟩ := fits.live
  intro refused
  -- Each reason contradicts what it means to fit.
  cases refused with
  | unknown gone => cases gone.symm.trans lower
  | child named upper lower' rejected =>
    rw [lower] at lower'
    cases lower'
    exact rejected (accepted _ _ named upper)
  | root alone lower' other =>
    rw [lower] at lower'
    cases lower'
    exact other (file alone)

/-- A node that fits is put in place. -/
theorem Forest.exists_put (forest : tree.Forest) (fits : tree.Fits id new) :
    ∃ after, tree.put id new = .ok after := by
  -- Otherwise it would be refused, and what fits is not.
  cases done : tree.put id new with
  | ok after => exact ⟨after, rfl⟩
  | error error => exact absurd (forest.put_refused done) fits.not_refused

/-- Putting a node in the place of another develops a tree. -/
theorem Develops.put (done : tree.put id new = .ok after) : tree.Develops after := by
  -- A node is put in its own place, in that of a child, or in that of the root.
  unfold Tree.put at done
  split at done
  · cases done
    exact .refl tree
  · split at done
    · exact .replaceChild done
    · exact .setRoot done

/-- An element is replaced where it stands first. -/
theorem replaceFirst_append_cons {front back : List NodeId} (outside : id ∉ front) :
    replaceFirst (· = id) (fun _ => new) (front ++ id :: back) = front ++ new :: back := by
  induction front with
  | nil => exact if_pos (decide_eq_true rfl)
  | cons first rest ih =>
    -- The first of the front is another element, so it is passed over.
    obtain ⟨apart, outside⟩ := not_or.mp (mt List.mem_cons.mpr outside)
    rw [List.cons_append, replaceFirst, if_neg (by simpa using Ne.symm apart), ih outside]
    rfl

/-- When a node leaves its place for that of a child, it gets the parent and stands in its list alone. -/
theorem Forest.get?_exchange (forest : tree.Forest) (old : NodeId) (level : parent ≠ new)
    (other : NodeId) : ((tree.detach new).exchange parent old new).get? other =
      (tree.get? other).map fun node =>
        { node with
          parent? := if other = new then some parent else node.parent?
          children :=
            if other = parent then replaceFirst (· = old) (fun _ => new) (node.children.filter (· ≠ new))
            else node.children.filter (· ≠ new) } := by
  rw [exchange, get?_modify_eq_map, get?_modify_eq_map, forest.get?_detach, Option.map_map,
    Option.map_map]
  refine congrArg (Option.map · (tree.get? other)) (funext fun node => ?_)
  -- The parent is written, the node that moves gets another parent, and all others only lose it.
  by_cases high : other = parent
  · subst high
    simp [level]
  · by_cases same : other = new
    · simp [same, Ne.symm level]
    · simp [same, high]

section Put

variable (forest : tree.Forest) (member : id ∈ tree.children parent)

include forest member

/-- The node that takes the place of a child is accepted there. -/
theorem Forest.accepted_of_put (apart : new ≠ id) (done : tree.put id new = .ok after) :
    ∃ above given, tree.get? parent = some above ∧ tree.get? new = some given ∧
      given.type ∈ above.type.whitelist ∧
      after = ((tree.detach new).exchange parent id new).release id := by
  obtain ⟨above, -, upper, -⟩ := forest.of_mem_children member
  -- Nothing but the replacement of a listed child succeeds here.
  have inside : id ∈ above.children := by simpa [children, upper] using member
  have place : above.children[above.children.idxOf id]? = some id := List.getElem?_idxOf inside
  unfold put at done
  simp only [if_neg apart, forest.parent?_of_mem member, children, upper, Option.map_some,
    Option.getD_some] at done
  simp only [Tree.replaceChild, upper, place, if_neg (Ne.symm apart)] at done
  cases lower : tree.get? new with
  | none => simp [lower] at done
  | some given =>
    simp only [lower] at done
    split at done
    · next accepted =>
      cases done
      exact ⟨above, given, upper, rfl, accepted, rfl⟩
    · cases done

/-- When a node takes the place of a child, all nodes that were not below the child stay, but that it
stands there, and nowhere else. -/
theorem Forest.get?_put (apart : new ≠ id) (done : tree.put id new = .ok after) {other : NodeId}
    (outside : ¬tree.Under id other) :
    after.get? other = (tree.get? other).map fun node =>
      { node with
        parent? := if other = new then some parent else node.parent?
        children :=
          if other = parent then replaceFirst (· = id) (fun _ => new) (node.children.filter (· ≠ new))
          else node.children.filter (· ≠ new) } := by
  obtain ⟨above, given, upper, lower, accepted, rfl⟩ := forest.accepted_of_put member apart done
  have level : parent ≠ new := ne_of_accepted upper lower accepted
  have exchanged := fun other => forest.get?_exchange id level other
  refine (get?_release fun reached => outside ?_).trans (exchanged other)
  -- Below the child, lists have become shorter only.
  refine reached.of_subset fun upper' reached' child listed => ?_
  have other : upper' ≠ parent := fun same =>
    forest.not_under_of_mem_children member (same ▸ reached')
  obtain ⟨node, found, inside⟩ := get?_of_mem_children listed
  rw [exchanged, Option.map_eq_some_iff] at found
  obtain ⟨was, found, rfl⟩ := found
  simp only [if_neg other] at inside
  simpa [children, found] using (List.mem_filter.mp inside).1

end Put

/-- When a node takes the place of a child, it stands between what is left of the children around it. -/
theorem Forest.children_put (forest : tree.Forest) {front rest : List NodeId}
    (placed : tree.children parent = front ++ id :: rest) (done : tree.put id new = .ok after) :
    after.children parent = front.filter (· ≠ new) ++ new :: rest.filter (· ≠ new) := by
  have member : id ∈ tree.children parent := by simp [placed]
  have once := forest.nodup_children parent
  rw [placed, List.nodup_append, List.nodup_cons] at once
  have ahead : id ∉ front := fun inside => once.2.2 id inside id (by simp) rfl
  -- A node in its own place is filtered out of nothing, as no child is listed twice.
  by_cases same : new = id
  · subst same
    rw [put_self] at done
    cases done
    rw [placed, filter_of_not_mem ahead, filter_of_not_mem once.2.1.1]
  · obtain ⟨above, given, upper, live, named, -⟩ := forest.of_mem_children member
    -- The parent is not below the child, so it is not released with it.
    have kept := forest.get?_put member same done (Under.not_parent forest live named)
    have shape : above.children = front ++ id :: rest := by simpa [children, upper] using placed
    rw [children, kept, upper, Option.map_some, Option.map_some, Option.getD_some, if_pos rfl, shape,
      List.filter_append, List.filter_cons_of_pos (by simpa using Ne.symm same)]
    exact replaceFirst_append_cons fun inside => ahead (List.mem_filter.mp inside).1

end Tree

end ArgSchema
