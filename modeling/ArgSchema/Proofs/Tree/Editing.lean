import ArgSchema.Proofs.Tree.Moves
import ArgSchema.Proofs.Tree.Tables
import ArgSchema.Tree.Edit

/-! The steps of an edit: on a well-formed tree each edit is done as a whole, or does not begin. -/

namespace ArgSchema

section Lists

variable {list : List NodeId} {old new : NodeId} {place : Nat}

/-- Writing to the first place of an element replaces its first occurrence. -/
theorem set_eq_replaceFirst (found : list.idxOf? old = some place) :
    list.set place new = replaceFirst (· = old) (fun _ => new) list := by
  induction list generalizing place with
  | nil => cases found
  | cons first rest ih =>
    rw [List.idxOf?_cons] at found
    rw [replaceFirst]
    -- The element stands first, or it is looked for in the rest.
    by_cases here : first = old
    · rw [if_pos (by simpa using here)] at found
      cases found
      rw [if_pos (by simpa using here), List.set_cons_zero]
    · rw [if_neg (by simpa using here)] at found
      obtain ⟨later, behind, rfl⟩ := Option.map_eq_some_iff.mp found
      rw [if_neg (by simpa using here), List.set_cons_succ, ih behind]

end Lists

namespace Tree

variable {tree : Tree} {id : NodeId}

/-- Changing a node does what is done to the node that it is. -/
theorem modify_congr {node : Node} {f g : Node → Node} (found : tree.get? id = some node)
    (same : f node = g node) : tree.modify id f = tree.modify id g := by
  have slot : tree.nodes[id.index]? = some (some node) := by
    simpa [get?, Option.join_eq_some_iff] using found
  unfold modify
  congr 1
  -- Only the node's own slot differs, and it holds the node.
  refine Array.ext_getElem? fun index => ?_
  rw [Array.getElem?_modify, Array.getElem?_modify]
  split
  · next here => simp [← here, slot, same]
  · rfl

/-- What an edit says and leaves if it either succeeds or leaves the tree as it was. -/
def settle (tree : Tree) : Except TreeError Tree → EStateM.Result TreeError Tree Unit
  | .ok after => .ok () after
  | .error error => .error error tree

/-- An edit succeeds exactly if what it does as a whole does. -/
theorem settle_eq_ok {after : Tree} {outcome : Except TreeError Tree} :
    tree.settle outcome = .ok () after ↔ outcome = .ok after := by
  cases outcome <;> simp [settle]

end Tree

namespace Editing

variable {tree : Tree} {id : NodeId} {α β : Type}

/-- What is done behind a step that succeeds. -/
theorem run_bind_ok {first : Editing α} {rest : α → Editing β} {answer : α} {next : Tree}
    (done : first.run tree = .ok answer next) : (first >>= rest).run tree = (rest answer).run next := by
  rw [EStateM.run_bind, done]

/-- Nothing is done behind a step that fails. -/
theorem run_bind_error {first : Editing α} {rest : α → Editing β} {error : TreeError} {left : Tree}
    (failed : first.run tree = .error error left) :
    (first >>= rest).run tree = .error error left := by
  rw [EStateM.run_bind, failed]

/-- Looking for a live node finds it. -/
theorem run_node {node : Node} (found : tree.get? id = some node) :
    (Editing.node id).run tree = .ok node tree := by
  simp [Editing.node, Tree.node, found, MonadExcept.ofExcept]

/-- Looking for a node that is not live fails. -/
theorem run_node_none (gone : tree.get? id = none) :
    (Editing.node id).run tree = .error (.unknownNode id) tree := by
  simp [Editing.node, Tree.node, gone, MonadExcept.ofExcept]
  rfl

/-- A live node is changed. -/
theorem run_change {node : Node} (f : Node → Node) (found : tree.get? id = some node) :
    (Editing.change id f).run tree = .ok () (tree.modify id f) :=
  run_bind_ok (run_node found)

/-- A node that is accepted passes. -/
theorem run_accept {above given : Node} (accepted : given.type ∈ above.type.whitelist) :
    (accept above given).run tree = .ok () tree := by
  rw [accept, if_pos accepted]
  rfl

/-- A node that is not accepted is refused. -/
theorem run_accept_error {above given : Node} (rejected : given.type ∉ above.type.whitelist) :
    (accept above given).run tree =
      .error (.illegalChild (.only above.type) (.only given.type) above.type.whitelist) tree := by
  rw [accept, if_neg rejected]
  rfl

/-- A node without a parent passes. -/
theorem run_detached {given : Node} (alone : given.parent? = none) :
    (detached id given).run tree = .ok () tree := by
  rw [detached, alone]
  rfl

/-- A node with a parent is refused. -/
theorem run_detached_error {given : Node} (attached : given.parent?.isSome = true) :
    (detached id given).run tree = .error (.alreadyAttached id) tree := by
  rw [detached, if_pos attached]
  rfl

/-- A node that has fewer children than it accepts passes. -/
theorem run_room {above : Node}
    (free : ∀ max, above.type.maxChildren? = some max → above.children.length < max) :
    (room above).run tree = .ok () tree := by
  -- Without a limit there is always room.
  unfold room
  cases limit : above.type.maxChildren? with
  | none => rfl
  | some max =>
    simp only [if_neg (Nat.not_le.mpr (free max limit))]
    rfl

/-- A node that has as many children as it accepts is refused more. -/
theorem run_room_error {above : Node} {max : Nat} (limit : above.type.maxChildren? = some max)
    (full : max ≤ above.children.length) :
    (room above).run tree = .error (.maximumChildren (.only above.type) max) tree := by
  unfold room
  simp only [limit, if_pos full]
  rfl

/-- Hanging a node below another succeeds or changes nothing. -/
theorem run_addChild (tree : Tree) (parent child : NodeId) :
    (Editing.addChild parent child).run tree = tree.settle (tree.addChild parent child) := by
  -- The steps look up and check in the order of the operation, and stop where it fails.
  unfold Editing.addChild Tree.addChild
  cases lower : tree.get? child with
  | none => exact run_bind_error (run_node_none lower)
  | some given =>
    rw [run_bind_ok (run_node lower)]
    simp only
    split
    · next attached => exact run_bind_error (run_detached_error attached)
    · next alone =>
      rw [run_bind_ok (run_detached (by simpa using alone))]
      cases upper : tree.get? parent with
      | none => exact run_bind_error (run_node_none upper)
      | some above =>
        rw [run_bind_ok (run_node upper)]
        -- With room for one more, whether it is accepted decides.
        have attach : (do
            accept above given
            change parent fun node => { node with children := node.children ++ [child] }
            change child fun node => { node with parent? := some parent } : Editing Unit).run tree =
              tree.settle (Tree.addChild.attach tree parent child above given) := by
          unfold Tree.addChild.attach
          split
          · next accepted =>
            rw [run_bind_ok (run_accept accepted), run_bind_ok (run_change _ upper)]
            -- The child is not the parent, so the first change leaves it live.
            have apart := Tree.Forest.ne_of_accepted upper lower accepted
            have still := Tree.get?_modify tree parent
              (fun node => { node with children := node.children ++ [child] }) child
            rw [if_neg apart.symm, lower] at still
            exact run_change _ still
          · next rejected => exact run_bind_error (run_accept_error rejected)
        cases limit : above.type.maxChildren? with
        | none =>
          simp only [limit]
          rw [run_bind_ok (run_room (by simp [limit])), attach]
        | some max =>
          simp only [limit]
          split
          · next full => exact run_bind_error (run_room_error limit full)
          · next free =>
            rw [run_bind_ok (run_room (by simpa [limit] using free)), attach]

/-- Making a node the root succeeds or changes nothing. -/
theorem run_setRoot (tree : Tree) (id : NodeId) :
    (Editing.setRoot id).run tree = tree.settle (tree.setRoot id) := by
  unfold Editing.setRoot Tree.setRoot
  cases found : tree.get? id with
  | none => exact run_bind_error (run_node_none found)
  | some given =>
    rw [run_bind_ok (run_node found)]
    simp only
    split
    · rfl
    · split
      · next attached => exact run_bind_error (run_detached_error attached)
      · next alone =>
        rw [run_bind_ok (run_detached (by simpa using alone))]
        -- What is left releases the root before, if there was another.
        cases before : tree.root? with
        | none => simp [EStateM.run_bind, before, Tree.settle]
        | some old =>
          by_cases same : old = id
          · simp [EStateM.run_bind, before, same, Tree.settle]
          · simp [EStateM.run_bind, before, same, release, Tree.settle, Tree.release]

section Replace

variable (forest : tree.Forest)

include forest

/-- A live node is taken from its place. -/
theorem run_detach {given : Node} (found : tree.get? id = some given) :
    (Editing.detach id).run tree = .ok () (tree.detach id) := by
  unfold Editing.detach Tree.detach
  rw [run_bind_ok (run_node found), run_bind_ok (run_change _ found), Tree.parent?, found]
  cases named : given.parent? with
  | none =>
    -- Without a parent there is nothing to take away.
    rw [Tree.modify_eq_self (by rw [found, Option.map_some, ← named])]
    simp only [Option.bind_some, named]
    rfl
  | some parent =>
    -- The parent is live, and so it is after the first change.
    obtain ⟨above, upper, -⟩ := forest.listed found named
    have still := Tree.get?_modify_eq_map tree id (fun node => { node with parent? := none }) parent
    rw [upper, Option.map_some] at still
    simp only [Option.bind_some, named]
    exact run_change _ still

/-- In a well-formed tree putting a node in the place of a child succeeds or changes nothing. -/
theorem run_replaceChild (parent : NodeId) (index : Nat) (new : NodeId) :
    (Editing.replaceChild parent index new).run tree =
      tree.settle (tree.replaceChild parent index new) := by
  unfold Editing.replaceChild Tree.replaceChild
  cases upper : tree.get? parent with
  | none => exact run_bind_error (run_node_none upper)
  | some above =>
    rw [run_bind_ok (run_node upper)]
    cases slot : above.children[index]? with
    | none =>
      simp only [slot]
      rfl
    | some old =>
      simp only [slot]
      by_cases same : old = new
      · simp only [if_pos same]
        rfl
      · simp only [if_neg same]
        cases lower : tree.get? new with
        | none => exact run_bind_error (run_node_none lower)
        | some given =>
          rw [run_bind_ok (run_node lower)]
          simp only
          split
          · next accepted =>
            rw [run_bind_ok (run_accept accepted), run_bind_ok (run_detach forest lower)]
            -- The parent is still there, and the old child is still in its list.
            have level := Tree.Forest.ne_of_accepted upper lower accepted
            have upper' := forest.get?_detach new parent
            rw [upper, Option.map_some] at upper'
            rw [run_bind_ok (run_node upper')]
            have listed : old ∈ above.children.filter (· ≠ new) :=
              List.mem_filter.mpr ⟨List.mem_of_getElem? slot, by simpa using same⟩
            obtain ⟨place, found⟩ : ∃ place, (above.children.filter (· ≠ new)).idxOf? old = some place :=
              Option.ne_none_iff_exists'.mp fun none => List.idxOf?_eq_none_iff.mp none listed
            simp only [found]
            -- Writing to the old child's place is what exchanges the two.
            rw [run_bind_ok (run_change _ upper'),
              Tree.modify_congr upper' (g := fun node =>
                { node with children := replaceFirst (· = old) (fun _ => new) node.children })
                (by simp only [set_eq_replaceFirst found])]
            -- The new child is not the parent either, so it is live to the end.
            have lower' := forest.get?_detach new new
            rw [lower, Option.map_some] at lower'
            have still := Tree.get?_modify (tree.detach new) parent (fun node =>
              { node with children := replaceFirst (· = old) (fun _ => new) node.children }) new
            rw [if_neg level.symm, lower'] at still
            rw [run_bind_ok (run_change _ still)]
            rfl
          · next rejected => exact run_bind_error (run_accept_error rejected)

end Replace

end Editing

end ArgSchema
