import ArgSchema.Proofs.Tree.Edits
import ArgSchema.Proofs.Tree.Puts

/-! Superseded children: what is released when a node takes the place of a child, and what is kept. -/

namespace ArgSchema

/-- In a list without repetitions only one element is replaced. -/
theorem replaceFirst_eq_map {list : List NodeId} {old new : NodeId} (once : list.Nodup) :
    replaceFirst (· = old) (fun _ => new) list = list.map fun id => if id = old then new else id := by
  -- By induction on the list, which has the old element at most once.
  induction list with
  | nil => rfl
  | cons first rest ih =>
    obtain ⟨outside, once⟩ := List.nodup_cons.mp once
    rw [replaceFirst, List.map_cons]
    by_cases here : first = old
    · -- The element does not come again, so the rest stays as it is.
      subst here
      have kept : rest.map (fun id => if id = first then new else id) = rest := by
        refine (List.map_congr_left fun id member => if_neg ?_).trans (List.map_id' rest)
        rintro rfl
        exact outside member
      rw [if_pos (decide_eq_true rfl), if_pos rfl, kept]
    · rw [if_neg (by simpa using here), if_neg here, ih once]

namespace Tree

/-- What is left of a tree when a node takes the place of a child and the child is released. -/
structure Supersedes (before after : Tree) (parent old new : NodeId) : Prop where
  /-- All stays live but what is below the old child and not below the new one. -/
  live : ∀ id, after.contains id = true ↔
    before.contains id = true ∧ ¬(before.Under old id ∧ ¬before.Under new id)
  /-- The same nodes are below the new child. -/
  under : ∀ id, after.Under new id ↔ before.Under new id
  /-- They are as they were, but that the new child hangs below the parent. -/
  below : ∀ id, before.Under new id → after.get? id = (before.get? id).map fun node =>
    { node with parent? := if id = new then some parent else node.parent? }
  /-- In the parent's list the new child stands in place of the old one, and nowhere else. -/
  list : after.get? parent = (before.get? parent).map fun node =>
    { node with
      children := (node.children.filter (· ≠ new)).map fun id => if id = old then new else id }
  /-- Another node that the new child hung below loses it, and nothing else. -/
  former : ∀ id, before.parent? new = some id → id ≠ parent → after.contains id = true →
    after.get? id = (before.get? id).map fun node =>
      { node with children := node.children.filter (· ≠ new) }
  /-- Every other node that stays live is as it was. -/
  others : ∀ id, ¬before.Under new id → id ≠ parent → before.parent? new ≠ some id →
    after.contains id = true → after.get? id = before.get? id
  /-- The root is the same. -/
  root : after.root? = before.root?
  /-- The table of top-level names is the same. -/
  table : after.table = before.table

/-- The way to a node leads through its parent. -/
theorem Under.through {tree : Tree} (forest : tree.Forest) {top id parent : NodeId}
    (reached : tree.Under top id) (other : id ≠ top) (member : id ∈ tree.children parent) :
    tree.Under top parent := by
  cases reached with
  | top => exact absurd rfl other
  | child way found listed =>
    obtain ⟨given, live, named, -⟩ := forest.child found id listed
    obtain ⟨-, given', -, live', named', -⟩ := forest.of_mem_children member
    -- A node has one parent only.
    rw [live] at live'
    cases live'
    rw [named] at named'
    cases named'
    exact way

/-- A list that is not that of a node's parent does not change when the node is taken out. -/
theorem Forest.filter_children {tree : Tree} (forest : tree.Forest) {id child : NodeId} {node : Node}
    (found : tree.get? id = some node) (other : tree.parent? child ≠ some id) :
    node.children.filter (· ≠ child) = node.children := by
  refine filter_of_not_mem fun inside => other ?_
  exact forest.parent?_of_mem (by rwa [children_of_get? found])

section Exchange

variable {tree : Tree} {parent old new : NodeId} {above given : Node} (forest : tree.Forest)
  (upper : tree.get? parent = some above) (lower : tree.get? new = some given)
  (accepted : given.type ∈ above.type.whitelist)

include forest upper lower accepted

/-- A node that takes the place of a child is not above the parent. -/
theorem Forest.not_under_parent : ¬tree.Under new parent := by
  -- Ranks fall on the way down, and the new node is of a lower rank than its parent.
  intro reached
  obtain ⟨above', upper', less⟩ := reached.rank_le forest lower
  rw [upper] at upper'
  cases upper'
  exact Nat.lt_irrefl _ (Nat.lt_of_lt_of_le (NodeType.rank_lt accepted) less)

variable (member : old ∈ tree.children parent) (apart : old ≠ new)

include member apart

/-- A node below a child stays below it exactly if it is not below the node that takes the place. -/
theorem Forest.under_exchange (id : NodeId) :
    ((tree.detach new).exchange parent old new).Under old id ↔
      tree.Under old id ∧ ¬tree.Under new id := by
  have level : parent ≠ new := ne_of_accepted upper lower accepted
  -- Below the child, lists lose the node that moves, and nothing else.
  have lists : ∀ id, id ≠ parent → ((tree.detach new).exchange parent old new).children id =
      (tree.children id).filter (· ≠ new) := by
    intro id other
    unfold children
    rw [forest.get?_exchange old level]
    cases tree.get? id <;> simp [other]
  have outside : ∀ {id}, tree.Under old id → id ≠ parent := fun reached same =>
    forest.not_under_of_mem_children member (same ▸ reached)
  constructor
  · intro reached
    have before : ∀ {id}, ((tree.detach new).exchange parent old new).Under old id →
        tree.Under old id := fun reached => reached.of_subset fun id way => by
      rw [lists id (outside way)]
      exact fun child inside => (List.mem_filter.mp inside).1
    refine ⟨before reached, ?_⟩
    -- The way from the child never enters what is below the node that moves.
    induction reached with
    | top =>
      exact fun inside => forest.not_under_parent upper lower accepted
        (inside.through forest apart member)
    | @child above below node way found listed ih =>
      intro inside
      have kept : below ∈ (tree.children above).filter (· ≠ new) := by
        rw [← lists above (outside (before way))]
        simpa [children, found] using listed
      obtain ⟨listed, other⟩ := List.mem_filter.mp kept
      exact ih (inside.through forest (by simpa using other) listed)
  · rintro ⟨reached, free⟩
    induction reached with
    | top => exact .top
    | @child above below node way found listed ih =>
      have around : ¬tree.Under new above := fun inside => free (inside.child found listed)
      refine (ih around).listed ?_
      rw [lists above (outside way)]
      refine List.mem_filter.mpr ⟨by simpa [children, found] using listed, ?_⟩
      -- The node that moves is below itself.
      have other : below ≠ new := by
        rintro rfl
        exact free .top
      simpa using other

/-- What is below the child, but not below the node in its place, is released. -/
theorem Forest.get?_superseded {id : NodeId} (gone : tree.Under old id) (free : ¬tree.Under new id) :
    (((tree.detach new).exchange parent old new).release old).get? id = none :=
  get?_release_of_under
    ((forest.under_exchange upper lower accepted member apart id).mpr ⟨gone, free⟩)

/-- All else is kept, with its parent and its children as the exchange leaves them. -/
theorem Forest.get?_kept {id : NodeId} (kept : ¬(tree.Under old id ∧ ¬tree.Under new id)) :
    (((tree.detach new).exchange parent old new).release old).get? id =
      (tree.get? id).map fun node =>
        { node with
          parent? := if id = new then some parent else node.parent?
          children :=
            if id = parent then replaceFirst (· = old) (fun _ => new) (node.children.filter (· ≠ new))
            else node.children.filter (· ≠ new) } :=
  (get?_release fun reached =>
    kept ((forest.under_exchange upper lower accepted member apart id).mp reached)).trans
      (forest.get?_exchange old (ne_of_accepted upper lower accepted) id)

/-- What is live after the exchange was not below the child, or it is below the node that moved. -/
theorem Forest.not_superseded {id : NodeId}
    (live : contains (((tree.detach new).exchange parent old new).release old) id = true) :
    ¬(tree.Under old id ∧ ¬tree.Under new id) := by
  -- What was below the child and not below the node that moved is released with it.
  rintro ⟨reached, free⟩
  have gone := forest.get?_superseded upper lower accepted member apart reached free
  simp [contains, gone] at live

/-- Below the node that moves everything is kept, and that node alone has another parent. -/
theorem Forest.get?_inside {id : NodeId} (reached : tree.Under new id) :
    (((tree.detach new).exchange parent old new).release old).get? id =
      (tree.get? id).map fun node =>
        { node with parent? := if id = new then some parent else node.parent? } := by
  rw [forest.get?_kept upper lower accepted member apart fun outer => outer.2 reached]
  have other : id ≠ parent := fun same =>
    forest.not_under_parent upper lower accepted (same ▸ reached)
  refine Option.map_congr fun node found => ?_
  -- The node is not below itself, so no list here has it.
  have own : tree.parent? new ≠ some id := by
    intro hung
    rw [parent?, lower] at hung
    exact Under.not_parent forest lower hung reached
  rw [if_neg other, forest.filter_children found own]

/-- Below the node that moves all lists are kept. -/
theorem Forest.children_inside {id : NodeId} (reached : tree.Under new id) :
    (((tree.detach new).exchange parent old new).release old).children id = tree.children id := by
  -- The nodes below the one that moves are kept as they are, and their lists with them.
  unfold children
  rw [forest.get?_inside upper lower accepted member apart reached, Option.map_map]
  rfl

/-- Below the node that moves is what was there before. -/
theorem Forest.under_inside (id : NodeId) :
    (((tree.detach new).exchange parent old new).release old).Under new id ↔
      tree.Under new id := by
  have lists := fun {id} => @Forest.children_inside _ _ _ _ _ _ forest upper lower accepted member
    apart id
  have inside : ∀ {id}, (((tree.detach new).exchange parent old new).release old).Under new id →
      tree.Under new id := fun reached => reached.of_subset fun id way => by
    rw [lists way]
    exact List.Subset.refl _
  -- Both ways lead over lists that stayed as they were.
  refine ⟨inside, fun reached => reached.of_subset fun id way => ?_⟩
  rw [lists (inside way)]
  exact List.Subset.refl _

/-- Releasing the child after the exchange supersedes it. -/
theorem Forest.supersedes :
    tree.Supersedes (((tree.detach new).exchange parent old new).release old) parent old new := by
  -- What is below the old child is gone, and a node that is kept is looked up as before.
  have level : parent ≠ new := ne_of_accepted upper lower accepted
  have kept := @Forest.get?_kept _ _ _ _ _ _ forest upper lower accepted member apart
  have stays := @Forest.not_superseded _ _ _ _ _ _ forest upper lower accepted member apart
  constructor
  case live =>
    intro id
    refine ⟨fun live => ⟨?_, stays live⟩, ?_⟩
    · rwa [contains, kept (stays live), Option.isSome_map] at live
    · rintro ⟨live, spared⟩
      rwa [contains, kept spared, Option.isSome_map]
  case under => exact forest.under_inside upper lower accepted member apart
  case below => exact fun id => forest.get?_inside upper lower accepted member apart
  -- The parent's list has the new child in place of the old one, and nowhere else.
  case list =>
    rw [kept fun outer => forest.not_under_of_mem_children member outer.1]
    refine Option.map_congr fun node found => ?_
    rw [if_neg level, if_pos rfl, replaceFirst_eq_map ((forest.once found).filter _)]
  case former =>
    intro id hung other live
    rw [kept (stays live)]
    -- No node hangs below itself.
    have self : id ≠ new := by
      rintro rfl
      rw [parent?, lower] at hung
      exact Under.not_parent forest lower hung .top
    refine Option.map_congr fun node found => ?_
    rw [if_neg self, if_neg other]
  case others =>
    intro id outer other own live
    rw [kept (stays live)]
    have self : id ≠ new := by
      rintro rfl
      exact outer .top
    cases found : tree.get? id with
    | none => rfl
    | some node =>
      rw [Option.map_some, if_neg self, if_neg other, forest.filter_children found own]
  case root => exact (forest.relinks_detach new).root
  case table =>
    show (tree.detach new).table = tree.table
    unfold Tree.detach
    split <;> rfl

end Exchange

/-- When a node takes the place of a child, exactly what is below the child is released, less the node
and what is below it; the node leaves its own place, and everything else stays as it is. -/
theorem edit_supersedes {tree after : Tree} (wellFormed : tree.WellFormed) {parent old new : NodeId}
    {index : Nat} (slot : (tree.children parent)[index]? = some old) (apart : old ≠ new)
    (done : tree.edit (.replaceChild parent index new) = .ok () after) :
    tree.Supersedes after parent old new := by
  -- The steps settle to the operation, which either changed nothing or exchanged the children.
  have forest := wellFormed.toForest
  rw [Edit.edit_eq_settle forest, settle_eq_ok] at done
  obtain ⟨above, child, upper, place, outcome⟩ := replaceChild_at done
  rw [children_of_get? upper, place] at slot
  obtain rfl := Option.some.inj slot
  obtain ⟨same, -⟩ | ⟨-, given, lower, accepted, rfl⟩ := outcome
  · -- The child is not the node, so the tree was changed.
    exact absurd same apart
  · refine forest.supersedes upper lower accepted ?_ apart
    rw [children_of_get? upper]
    exact List.mem_of_getElem? place

end Tree

/-- A name that takes the place of the list it is in survives the list, and the name beside it does not. -/
theorem Walk.supersedes_list_of_name :
    ∃ tree after : Tree, tree.WellFormed ∧ tree.children ⟨0⟩ = [⟨1⟩, ⟨4⟩] ∧
      tree.children ⟨1⟩ = [⟨2⟩, ⟨3⟩] ∧
      tree.edit (.replaceChild ⟨0⟩ 0 ⟨2⟩) = .ok () after ∧
      tree.Supersedes after ⟨0⟩ ⟨1⟩ ⟨2⟩ ∧ after.children ⟨0⟩ = [⟨2⟩, ⟨4⟩] ∧
      after.contains ⟨2⟩ = true ∧ after.contains ⟨3⟩ = false := by
  -- The argument is built by operations, so its tree is reachable and the law applies to it.
  let fill : Walk Unit Unit := do
    let argument ← alloc (.positional false false .empty) default
    let types ← alloc (.types []) default
    let first ← alloc (.identifier "a" .type) default
    let second ← alloc (.identifier "b" .type) default
    let properties ← alloc .configs default
    change (·.addChild argument types)
    change (·.addChild argument properties)
    change (·.addChild types first)
    change (·.addChild types second)
  let tree : Tree := ⟨#[some ⟨.positional false false .empty, default, none, [⟨1⟩, ⟨4⟩]⟩,
    some ⟨.types [], default, some ⟨0⟩, [⟨2⟩, ⟨3⟩]⟩,
    some ⟨.identifier "a" .type, default, some ⟨1⟩, []⟩,
    some ⟨.identifier "b" .type, default, some ⟨1⟩, []⟩,
    some ⟨.configs, default, some ⟨0⟩, []⟩], none, .empty⟩
  let after : Tree := ⟨#[some ⟨.positional false false .empty, default, none, [⟨2⟩, ⟨4⟩]⟩, none,
    some ⟨.identifier "a" .type, default, some ⟨0⟩, []⟩, none,
    some ⟨.configs, default, some ⟨0⟩, []⟩], none, .empty⟩
  have reachable : tree.Reachable := by
    refine ⟨Unit, Unit, fill, (), ?_, rfl⟩
    exact .bind (.alloc _ _) fun argument => .bind (.alloc _ _) fun types =>
      .bind (.alloc _ _) fun first => .bind (.alloc _ _) fun second =>
      .bind (.alloc _ _) fun properties => .bind (.addChild _ _) fun _ =>
      .bind (.addChild _ _) fun _ => .bind (.addChild _ _) fun _ => .addChild _ _
  -- The name has the place of the list before the list is released with the other name in it.
  let exchanged : Tree := ⟨#[some ⟨.positional false false .empty, default, none, [⟨2⟩, ⟨4⟩]⟩,
    some ⟨.types [], default, some ⟨0⟩, [⟨3⟩]⟩,
    some ⟨.identifier "a" .type, default, some ⟨0⟩, []⟩,
    some ⟨.identifier "b" .type, default, some ⟨1⟩, []⟩,
    some ⟨.configs, default, some ⟨0⟩, []⟩], none, .empty⟩
  have replaced : tree.replaceChild ⟨0⟩ 0 ⟨2⟩ = .ok (exchanged.release ⟨1⟩) := rfl
  have released : exchanged.release ⟨1⟩ = after := by
    simp [Tree.release, Tree.releaseAll, exchanged, after]
  -- The operation is known step by step, so its outcome can be read off.
  have done : tree.edit (.replaceChild ⟨0⟩ 0 ⟨2⟩) = .ok () after := by
    rw [Edit.edit_eq_settle reachable.forest, Tree.settle_eq_ok]
    exact replaced.trans (congrArg _ released)
  have slot : (tree.children ⟨0⟩)[0]? = some ⟨1⟩ := rfl
  exact ⟨tree, after, reachable.forest.wellFormed, rfl, rfl, done,
    Tree.edit_supersedes reachable.forest.wellFormed slot (by decide) done, rfl, rfl, rfl⟩

end ArgSchema
