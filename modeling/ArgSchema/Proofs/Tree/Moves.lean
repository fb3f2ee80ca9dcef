import ArgSchema.Proofs.Tree.Release

/-! Moves: taking a node from its place and putting it in another's keeps a tree well formed. -/

namespace ArgSchema

section Lists

variable {list : List NodeId} {old new id : NodeId}

/-- Replacing an element brings another in and takes the element out. -/
theorem mem_replaceFirst (once : list.Nodup) (member : old ∈ list) :
    id ∈ replaceFirst (· = old) (fun _ => new) list ↔ id = new ∨ (id ∈ list ∧ id ≠ old) := by
  induction list with
  | nil => cases member
  | cons first rest ih =>
    obtain ⟨outside, once⟩ := List.nodup_cons.mp once
    rw [replaceFirst]
    -- The element goes at its first place, and it has no second.
    by_cases here : first = old
    · subst here
      have apart : id ∈ rest → id ≠ first := fun inside same => outside (same ▸ inside)
      rw [if_pos (decide_eq_true rfl), List.mem_cons, List.mem_cons]
      exact or_congr_right ⟨fun inside => ⟨.inr inside, apart inside⟩,
        fun inside => inside.1.resolve_left inside.2⟩
    · have later := (List.mem_cons.mp member).resolve_left (Ne.symm here)
      rw [if_neg (by simpa using here), List.mem_cons, ih once later, List.mem_cons]
      grind

/-- An element that is replaced by a new one leaves a list without repetitions. -/
theorem nodup_replaceFirst (once : list.Nodup) (member : old ∈ list) (free : new ∉ list) :
    (replaceFirst (· = old) (fun _ => new) list).Nodup := by
  -- The new element takes the first place of the old one, and the list had it once.
  induction list with
  | nil => exact once
  | cons first rest ih =>
    obtain ⟨outside, once⟩ := List.nodup_cons.mp once
    obtain ⟨apart, free⟩ := not_or.mp (mt List.mem_cons.mpr free)
    rw [replaceFirst]
    by_cases here : first = old
    · rw [if_pos (decide_eq_true here)]
      exact List.nodup_cons.mpr ⟨free, once⟩
    -- Further down, the first element is kept, and it is neither the new one nor the old.
    · have later := (List.mem_cons.mp member).resolve_left (Ne.symm here)
      rw [if_neg (by simpa using here)]
      refine List.nodup_cons.mpr ⟨fun inside => ?_, ih once later free⟩
      exact ((mem_replaceFirst once later).mp inside).elim (Ne.symm apart) fun was => outside was.1

/-- Replacing an element keeps the length. -/
theorem length_replaceFirst : (replaceFirst (· = old) (fun _ => new) list).length = list.length := by
  -- One element is put in place of one other.
  induction list with
  | nil => rfl
  | cons first rest ih =>
    rw [replaceFirst]
    split
    · rfl
    · rw [List.length_cons, ih, List.length_cons]

/-- A list that does not hold a node is not changed when the node is taken out. -/
theorem filter_of_not_mem (outside : id ∉ list) : list.filter (· ≠ id) = list :=
  List.filter_eq_self.mpr fun other inside => by
    simpa using fun same : other = id => outside (same ▸ inside)

end Lists

namespace Tree

variable {tree : Tree}

/-- Changing one node changes it wherever it is looked up. -/
theorem get?_modify_eq_map (tree : Tree) (id : NodeId) (f : Node → Node) (other : NodeId) :
    (tree.modify id f).get? other =
      (tree.get? other).map fun node => if other = id then f node else node := by
  rw [get?_modify]
  by_cases same : other = id <;> simp [same]

/-- The tree in which a node stands in a child list in place of another. -/
def exchange (tree : Tree) (parent old new : NodeId) : Tree :=
  let moved := tree.modify parent fun node =>
    { node with children := replaceFirst (· = old) (fun _ => new) node.children }
  moved.modify new fun node => { node with parent? := some parent }

/-- The child at a position is the new one already, or the new one is accepted and takes its place. -/
theorem replaceChild_at {parent new : NodeId} {index : Nat} {after : Tree}
    (done : tree.replaceChild parent index new = .ok after) :
    ∃ above old, tree.get? parent = some above ∧ above.children[index]? = some old ∧
      (old = new ∧ after = tree ∨ old ≠ new ∧ ∃ given, tree.get? new = some given ∧
        given.type ∈ above.type.whitelist ∧
        after = ((tree.detach new).exchange parent old new).release old) := by
  -- The arms of the operation, one after the other.
  unfold replaceChild at done
  cases upper : tree.get? parent with
  | none => simp [upper] at done
  | some above =>
    simp only [upper] at done
    cases place : above.children[index]? with
    | none => simp [place] at done
    | some old =>
      simp only [place] at done
      refine ⟨above, old, rfl, place, ?_⟩
      -- The same child again changes nothing, and any other is asked whether it fits.
      split at done
      · next same =>
        cases done
        exact .inl ⟨same, rfl⟩
      · next apart =>
        cases lower : tree.get? new with
        | none => simp [lower] at done
        | some given =>
          simp only [lower] at done
          split at done
          · next accepted =>
            cases done
            exact .inr ⟨apart, given, rfl, accepted, rfl⟩
          · cases done

/-- A child that is replaced is the same one, or the new child leaves its place for the old one's. -/
theorem replaceChild_ok {parent new : NodeId} {index : Nat} {after : Tree}
    (done : tree.replaceChild parent index new = .ok after) : after = tree ∨
      ∃ above old given, tree.get? parent = some above ∧ old ∈ above.children ∧ old ≠ new ∧
        tree.get? new = some given ∧ given.type ∈ above.type.whitelist ∧
        after = ((tree.detach new).exchange parent old new).release old := by
  -- What stands at the index is a child.
  obtain ⟨above, old, upper, place, ⟨-, rfl⟩ | ⟨apart, given, lower, accepted, rfl⟩⟩ :=
    replaceChild_at done
  · exact .inl rfl
  · exact .inr ⟨above, old, given, upper, List.mem_of_getElem? place, apart, lower, accepted, rfl⟩

/-- A node is hung below another if it is detached and the other accepts it and has room. -/
theorem addChild_ok {parent child : NodeId} {after : Tree}
    (done : tree.addChild parent child = .ok after) :
    ∃ above given, tree.get? parent = some above ∧ tree.get? child = some given ∧
      given.parent? = none ∧ given.type ∈ above.type.whitelist ∧
      (∀ max, above.type.maxChildren? = some max → above.children.length < max) ∧
      after = tree.link parent child := by
  -- The checks come in this order: both nodes are there, the child is detached, there is room, and
  -- the type is accepted.
  unfold addChild at done
  cases lower : tree.get? child with
  | none => simp [lower] at done
  | some given =>
    simp only [lower] at done
    split at done
    · cases done
    · next alone =>
      have detached : given.parent? = none := by simpa using alone
      cases upper : tree.get? parent with
      | none => simp [upper] at done
      | some above =>
        simp only [upper] at done
        -- Whether there is a limit or not, what is left is to link the nodes.
        have attached : addChild.attach tree parent child above given = .ok after ∧
            ∀ max, above.type.maxChildren? = some max → above.children.length < max := by
          split at done
          · next max limited =>
            split at done
            · cases done
            · next room =>
              refine ⟨done, fun most same => ?_⟩
              rw [limited] at same
              cases same
              exact Nat.lt_of_not_le room
          · next unlimited =>
            refine ⟨done, fun most same => ?_⟩
            rw [unlimited] at same
            cases same
        obtain ⟨done, room⟩ := attached
        unfold addChild.attach at done
        split at done
        · next accepted =>
          cases done
          exact ⟨above, given, rfl, rfl, detached, accepted, room, rfl⟩
        · cases done

/-- A detached file is made the root, and another root before it is released. -/
theorem setRoot_ok {id : NodeId} {after : Tree} (done : tree.setRoot id = .ok after) :
    ∃ node, tree.get? id = some node ∧ node.type = .file ∧ node.parent? = none ∧
      (after = { tree with root? := some id } ∨
        ∃ old, tree.root? = some old ∧ old ≠ id ∧
          after = Tree.release { tree with root? := some id } old) := by
  unfold setRoot at done
  cases found : tree.get? id with
  | none => simp [found] at done
  | some node =>
    simp only [found] at done
    -- A node that is no file, or is attached, is refused.
    split at done
    · cases done
    · next file =>
      split at done
      · cases done
      · next alone =>
        refine ⟨node, rfl, Decidable.byContradiction file, by simpa using alone, ?_⟩
        cases done
        -- With a root before, that one is released, unless it is set again.
        split
        · next old named =>
          split
          · exact .inl rfl
          · next other => exact .inr ⟨old, named, other, rfl⟩
        · exact .inl rfl

namespace Forest

variable {id parent : NodeId} {node : Node}

/-- A child is in the list of its parent only. -/
theorem eq_of_mem (forest : Forest tree) {other : NodeId} {given : Node}
    (live : tree.get? id = some given) (named : given.parent? = some parent)
    (found : tree.get? other = some node) (member : id ∈ node.children) : other = parent := by
  -- The node has one parent, and every node that lists it is named by it.
  obtain ⟨given', live', named', -⟩ := forest.child found id member
  rw [live] at live'
  cases live'
  rw [named] at named'
  exact (Option.some.inj named').symm

/-- A node that is taken from its place has no parent and is in no child list. -/
theorem get?_detach (forest : Forest tree) (id other : NodeId) :
    (tree.detach id).get? other = (tree.get? other).map fun node =>
      { node with
        parent? := if other = id then none else node.parent?
        children := node.children.filter (· ≠ id) } := by
  cases found : tree.get? other with
  | none =>
    unfold detach
    split <;> simp [get?_modify_eq_map, found]
  -- Only the parent that the node names is changed, so the cases are whether it names one.
  | some node =>
    unfold detach Tree.parent?
    cases live : tree.get? id with
    | none =>
      -- Without the node, no list has its handle.
      have alone : ∀ given, tree.get? id = some given → given.parent? = none := by simp [live]
      have outside := forest.not_mem_of_detached alone found
      have apart : other ≠ id := by
        rintro rfl
        rw [live] at found
        cases found
      simp only [Option.bind_none, found, Option.map_some, if_neg apart, filter_of_not_mem outside]
    | some given =>
      cases named : given.parent? with
      | none =>
        have alone : ∀ given, tree.get? id = some given → given.parent? = none := by
          simp [live, named]
        have outside := forest.not_mem_of_detached alone found
        simp only [Option.bind_some, named, Option.map_some, filter_of_not_mem outside, found]
        by_cases same : other = id
        · subst same
          rw [live] at found
          cases found
          rw [if_pos rfl, ← named]
        · rw [if_neg same]
      | some parent =>
        simp only [Option.bind_some, named, get?_modify_eq_map, found, Option.map_some]
        -- Only the parent has the node in its list.
        by_cases upper : other = parent
        · subst upper
          by_cases same : other = id <;> simp [same]
        · have outside := fun member => upper (forest.eq_of_mem live named found member)
          simp only [if_neg upper, filter_of_not_mem outside]
          by_cases same : other = id
          · rw [if_pos same, if_pos same]
          · rw [if_neg same, if_neg same]

/-- Taking a node from its place takes its parent from it and the node from all lists. -/
theorem relinks_detach (forest : Forest tree) (id : NodeId) : Relinks tree (tree.detach id)
    (fun other above? => if other = id then none else above?)
    (fun _ below => below.filter (· ≠ id)) where
  root := by
    -- What is found afterwards is told by the lookup law.
    unfold Tree.detach
    split <;> rfl
  links other := by
    rw [forest.get?_detach, Option.map_map]
    rfl

/-- Taking a node from its place keeps a tree well formed. -/
theorem detach (forest : Forest tree) (id : NodeId) : Forest (tree.detach id) := by
  -- Every fact is asked of the node as it was before, where the forest has it.
  have step := forest.relinks_detach id
  constructor
  case child =>
    intro other node found below member
    obtain ⟨old, live, type, -, children⟩ := step.before found
    rw [children] at member
    obtain ⟨member, apart⟩ := List.mem_filter.mp member
    obtain ⟨given, lower, named, fits⟩ := forest.child live below member
    obtain ⟨given', lower', type', parent', -⟩ := step.after lower
    exact ⟨given', lower', by simp_all, by rwa [type', type]⟩
  -- Leaving a list keeps its nodes apart.
  case once =>
    intro other node found
    obtain ⟨old, live, -, -, children⟩ := step.before found
    exact children ▸ (forest.once live).filter _
  case listed =>
    intro other node parent found named
    obtain ⟨old, live, -, parent', -⟩ := step.before found
    rw [parent'] at named
    -- Only the node itself has lost its parent.
    split at named
    · cases named
    · next apart =>
      obtain ⟨above, upper, member⟩ := forest.listed live named
      obtain ⟨above', upper', -, -, children⟩ := step.after upper
      exact ⟨above', upper', children ▸ List.mem_filter.mpr ⟨member, by simpa using apart⟩⟩
  -- No list grows, and nothing but the node loses its parent.
  case bounded =>
    intro other node max found limited
    obtain ⟨old, live, type, -, children⟩ := step.before found
    rw [children]
    exact Nat.le_trans (List.length_filter_le ..) (forest.bounded live (type ▸ limited))
  case rooted =>
    intro other named
    obtain ⟨old, live, file, alone⟩ := forest.rooted (step.root ▸ named)
    obtain ⟨node, now, type, parent', -⟩ := step.after live
    exact ⟨node, now, type.trans file, by simp [parent', alone]⟩

/-- Putting a node in place of a child gives it the parent, and the parent the new child. -/
theorem relinks_exchange (tree : Tree) (old : NodeId) {new : NodeId} (level : parent ≠ new) :
    Relinks tree (tree.exchange parent old new)
    (fun id above? => if id = new then some parent else above?)
    (fun id below => if id = parent then replaceFirst (· = old) (fun _ => new) below else below) := by
  -- The two changed nodes are different, so each is changed in one way only.
  refine ⟨rfl, fun id => ?_⟩
  rw [exchange, get?_modify_eq_map, get?_modify_eq_map, Option.map_map, Option.map_map]
  congr 1
  funext node
  by_cases low : id = new
  · simp [low, level.symm, Node.links, Node.type]
  · by_cases high : id = parent
    · simp [high, level, Node.links, Node.type]
    · simp [low, high, Node.links, Node.type]

/-- Putting a detached node in place of a child, which is to be released, keeps the rest in order. -/
theorem shedding_exchange (forest : Forest tree) {above given : Node} {old new : NodeId}
    (upper : tree.get? parent = some above) (member : old ∈ above.children) (apart : old ≠ new)
    (lower : tree.get? new = some given) (alone : given.parent? = none)
    (accepted : given.type ∈ above.type.whitelist) :
    Shedding (tree.exchange parent old new) [old] := by
  -- The exchange lets the parent adopt the new child in the old one's place.
  have listed := fun id => @mem_replaceFirst _ old new id (forest.once upper) member
  have adopts : Adopts tree (tree.exchange parent old new) parent new above given
      (replaceFirst (· = old) fun _ => new) := {
    upper, lower, accepted
    detached := alone
    relinks := relinks_exchange tree old (ne_of_accepted upper lower accepted)
    gains := (listed new).mpr (.inl rfl)
    known := fun id inside => ((listed id).mp inside).symm.imp_left And.left
    once := nodup_replaceFirst (forest.once upper) member <|
      forest.not_mem_of_detached (fun node live => by
        rw [lower] at live
        cases live
        exact alone) upper
    room := fun max limited => by
      rw [length_replaceFirst]
      exact forest.bounded upper limited }
  -- The old child still names the parent, which is all that keeps this from being a forest.
  obtain ⟨given', lower', named', -⟩ := forest.child upper old member
  constructor
  case child => exact adopts.child forest
  case once => exact adopts.nodup forest
  case listed =>
    intro other node parent' found named
    refine (adopts.listed forest found named).imp_left fun left => List.mem_singleton.mpr ?_
    -- Every child but the old one is still in the list.
    by_cases replaced : other = old
    · exact replaced
    · exact absurd ((listed other).mpr (.inr ⟨left.1, replaced⟩)) left.2
  case unlisted =>
    intro other node found below member' inside
    obtain rfl := List.mem_singleton.mp inside
    obtain ⟨was, live, -, -, ⟨-, -, changed⟩ | ⟨low, kept⟩⟩ := adopts.before found
    · exact ((listed below).mp (changed ▸ member')).elim apart fun still => still.2 rfl
    · exact low (forest.eq_of_mem lower' named' live (kept ▸ member'))
  case bounded => exact fun found limited => adopts.bounded forest found limited
  case rooted =>
    intro other named
    refine ⟨fun inside => ?_, adopts.rooted forest named⟩
    -- The old child has a parent, but the root has none.
    obtain ⟨node, found, -, detached⟩ := forest.rooted named
    rw [List.mem_singleton.mp inside, lower'] at found
    cases found
    cases detached.symm.trans named'

/-- Replacing a child keeps a tree well formed. -/
theorem replaceChild (forest : Forest tree) {index : Nat} {new : NodeId} {after : Tree}
    (done : tree.replaceChild parent index new = .ok after) : Forest after := by
  -- Either nothing happens, or three operations follow each other.
  rcases replaceChild_ok done with rfl | ⟨above, old, given, upper, member, apart, lower, accepted, rfl⟩
  · exact forest
  · -- The new child leaves its place first, and the old one stays in the list.
    have upper' := forest.get?_detach new parent
    have lower' := forest.get?_detach new new
    rw [upper, Option.map_some] at upper'
    rw [lower, Option.map_some] at lower'
    have member' : old ∈ above.children.filter (· ≠ new) :=
      List.mem_filter.mpr ⟨member, by simpa using apart⟩
    exact ((forest.detach new).shedding_exchange upper' member' apart lower' (if_pos rfl)
      accepted).release

/-- Hanging a node below another keeps a tree well formed. -/
theorem addChild (forest : Forest tree) {child : NodeId} {after : Tree}
    (done : tree.addChild parent child = .ok after) : Forest after := by
  obtain ⟨above, given, upper, lower, detached, accepted, room, rfl⟩ := addChild_ok done
  exact forest.link upper lower detached accepted room

/-- Making a file the root keeps a tree well formed. -/
theorem setRoot (forest : Forest tree) {after : Tree} (done : tree.setRoot id = .ok after) :
    Forest after := by
  -- A root that was there before is released.
  obtain ⟨node, found, file, alone, rfl | ⟨old, named, other, rfl⟩⟩ := setRoot_ok done
  · exact forest.root found file alone
  · -- The root before is detached, and it is not the new one.
    obtain ⟨given, live, -, detached⟩ := forest.rooted named
    have parentless : ∀ node, tree.get? old = some node → node.parent? = none := by
      intro node found
      rw [live] at found
      cases found
      exact detached
    exact ((forest.root found file alone).shedding parentless fun same =>
      other (Option.some.inj same).symm).release

end Forest

end Tree

end ArgSchema
