import ArgSchema.Proofs.Tree.Editing
import ArgSchema.Proofs.Walk.Operations

/-! Edits that are refused: there is a reason for each of them, and they change nothing. -/

namespace ArgSchema

namespace Edit

variable {tree after : Tree} {edit : Edit} {error : TreeError}

/-- What an edit makes of a tree as a whole. -/
def outcome (tree : Tree) : Edit → Except TreeError Tree
  | .addChild parent child => tree.addChild parent child
  | .replaceChild parent index new => tree.replaceChild parent index new
  | .setRoot id => tree.setRoot id

/-- On a well-formed tree the steps of an edit do what it does as a whole, or nothing. -/
theorem edit_eq_settle (forest : tree.Forest) (edit : Edit) :
    tree.edit edit = tree.settle (edit.outcome tree) := by
  -- One equation for each operation, and only replacing a child needs the forest.
  cases edit with
  | addChild parent child => exact Editing.run_addChild tree parent child
  | replaceChild parent index new => exact Editing.run_replaceChild forest parent index new
  | setRoot id => exact Editing.run_setRoot tree id

/-- Why an edit cannot be made, and the error that says so. -/
inductive Refused (tree : Tree) : Edit → TreeError → Prop
  /-- There is no node to hang. -/
  | childless {parent child : NodeId} : tree.get? child = none →
      Refused tree (.addChild parent child) (.unknownNode child)
  /-- There is no node to hang it below. -/
  | parentless {parent child : NodeId} : tree.get? parent = none →
      Refused tree (.addChild parent child) (.unknownNode parent)
  /-- The node hangs below another already. -/
  | hanging {parent child : NodeId} {given : Node} : tree.get? child = some given →
      given.parent?.isSome = true → Refused tree (.addChild parent child) (.alreadyAttached child)
  /-- The parent has as many children as it accepts. -/
  | full {parent child : NodeId} {above : Node} {max : Nat} : tree.get? parent = some above →
      above.type.maxChildren? = some max → max ≤ above.children.length →
      Refused tree (.addChild parent child) (.maximumChildren (.only above.type) max)
  /-- The parent does not accept nodes of this type. -/
  | unfit {parent child : NodeId} {above given : Node} : tree.get? parent = some above →
      tree.get? child = some given → given.type ∉ above.type.whitelist →
      Refused tree (.addChild parent child)
        (.illegalChild (.only above.type) (.only given.type) above.type.whitelist)
  /-- There is no node that has children to replace. -/
  | baseless {parent new : NodeId} {index : Nat} : tree.get? parent = none →
      Refused tree (.replaceChild parent index new) (.unknownNode parent)
  /-- It has no child at the position. -/
  | vacant {parent new : NodeId} {index : Nat} {above : Node} : tree.get? parent = some above →
      above.children[index]? = none → Refused tree (.replaceChild parent index new) (.unknownNode new)
  /-- There is no node to put there. -/
  | newless {parent new : NodeId} {index : Nat} : tree.get? new = none →
      Refused tree (.replaceChild parent index new) (.unknownNode new)
  /-- Another child is there, and the parent does not accept nodes of the new one's type. -/
  | misfit {parent new old : NodeId} {index : Nat} {above given : Node} :
      tree.get? parent = some above → above.children[index]? = some old → old ≠ new →
      tree.get? new = some given → given.type ∉ above.type.whitelist →
      Refused tree (.replaceChild parent index new)
        (.illegalChild (.only above.type) (.only given.type) above.type.whitelist)
  /-- There is no node to make the root. -/
  | rootless {id : NodeId} : tree.get? id = none → Refused tree (.setRoot id) (.unknownNode id)
  /-- The node is no file. -/
  | fileless {id : NodeId} {given : Node} : tree.get? id = some given → given.type ≠ .file →
      Refused tree (.setRoot id) (.illegalRoot (.only given.type))
  /-- The file hangs below another node. -/
  | nested {id : NodeId} {given : Node} : tree.get? id = some given →
      given.parent?.isSome = true → Refused tree (.setRoot id) (.alreadyAttached id)

/-- A node that cannot be hung below another is refused for the reason that the error says. -/
theorem refused_of_addChild {parent child : NodeId} (failed : tree.addChild parent child = .error error) :
    (Edit.addChild parent child).Refused tree error := by
  -- Each check of the operation, in its order, is a reason to refuse it.
  unfold Tree.addChild at failed
  cases lower : tree.get? child with
  | none =>
    simp only [lower] at failed
    cases failed
    exact .childless lower
  | some given =>
    simp only [lower] at failed
    -- A node that hangs somewhere is not taken from there.
    split at failed
    · next attached =>
      cases failed
      exact .hanging lower attached
    · cases upper : tree.get? parent with
      | none =>
        simp only [upper] at failed
        cases failed
        exact .parentless upper
      | some above =>
        simp only [upper] at failed
        -- With room for one more, only the type can be wrong.
        have unfit : Tree.addChild.attach tree parent child above given = .error error →
            (Edit.addChild parent child).Refused tree error := by
          intro failed
          unfold Tree.addChild.attach at failed
          split at failed
          · cases failed
          · next rejected =>
            cases failed
            exact .unfit upper lower rejected
        -- Not every type has a limit on its children.
        cases limit : above.type.maxChildren? with
        | none =>
          simp only [limit] at failed
          exact unfit failed
        | some max =>
          simp only [limit] at failed
          split at failed
          · next full =>
            cases failed
            exact .full upper limit full
          · exact unfit failed

/-- A node that cannot take the place of a child is refused for the reason that the error says. -/
theorem refused_of_replaceChild {parent new : NodeId} {index : Nat}
    (failed : tree.replaceChild parent index new = .error error) :
    (Edit.replaceChild parent index new).Refused tree error := by
  -- As for a new child; the same child in its place is no reason to refuse.
  unfold Tree.replaceChild at failed
  cases upper : tree.get? parent with
  | none =>
    simp only [upper] at failed
    cases failed
    exact .baseless upper
  | some above =>
    simp only [upper] at failed
    -- The index may lie behind the last child.
    cases slot : above.children[index]? with
    | none =>
      simp only [slot] at failed
      cases failed
      exact .vacant upper slot
    | some old =>
      simp only [slot] at failed
      split at failed
      · cases failed
      · next apart =>
        -- The new child is looked up only when it is not the old one.
        cases lower : tree.get? new with
        | none =>
          simp only [lower] at failed
          cases failed
          exact .newless lower
        | some given =>
          simp only [lower] at failed
          split at failed
          · cases failed
          · next rejected =>
            cases failed
            exact .misfit upper slot apart lower rejected

/-- A node that cannot be made the root is refused for the reason that the error says. -/
theorem refused_of_setRoot {id : NodeId} (failed : tree.setRoot id = .error error) :
    (Edit.setRoot id).Refused tree error := by
  -- The node has to be there, to be a file, and to hang below nothing.
  unfold Tree.setRoot at failed
  cases found : tree.get? id with
  | none =>
    simp only [found] at failed
    cases failed
    exact .rootless found
  | some given =>
    simp only [found] at failed
    split at failed
    · next other =>
      cases failed
      exact .fileless found other
    · split at failed
      · next attached =>
        cases failed
        exact .nested found attached
      · cases failed

/-- An edit that fails is refused for the reason that its error says. -/
theorem refused_of_error (failed : edit.outcome tree = .error error) : edit.Refused tree error := by
  -- Each operation has its own reasons.
  cases edit with
  | addChild parent child => exact refused_of_addChild failed
  | replaceChild parent index new => exact refused_of_replaceChild failed
  | setRoot id => exact refused_of_setRoot failed

/-- An edit of a well-formed tree that succeeds is refused for no reason. -/
theorem not_refused_of_ok (forest : tree.Forest) (done : edit.outcome tree = .ok after) :
    ¬edit.Refused tree error := by
  -- What an operation found when it succeeded contradicts each of its reasons to refuse.
  intro refused
  cases edit with
  | addChild parent child =>
    obtain ⟨above, given, upper, lower, alone, accepted, room, -⟩ := Tree.addChild_ok done
    cases refused with
    | childless gone => simp [lower] at gone
    | parentless gone => simp [upper] at gone
    -- Both lookups are of one node, and so are all the pairs below.
    | hanging found attached =>
      obtain rfl := Option.some.inj (lower.symm.trans found)
      simp [alone] at attached
    | full found limit full =>
      obtain rfl := Option.some.inj (upper.symm.trans found)
      exact Nat.not_lt.mpr full (room _ limit)
    | unfit found found' rejected =>
      obtain rfl := Option.some.inj (upper.symm.trans found)
      obtain rfl := Option.some.inj (lower.symm.trans found')
      exact rejected accepted
  | replaceChild parent index new =>
    obtain ⟨above, old, upper, slot, outcome⟩ := Tree.replaceChild_at done
    cases refused with
    | baseless gone => simp [upper] at gone
    | vacant found empty =>
      obtain rfl := Option.some.inj (upper.symm.trans found)
      simp [slot] at empty
    | newless gone =>
      -- A child that stays in its place is live, as is one that is put there.
      rcases outcome with ⟨rfl, -⟩ | ⟨-, given, lower, -⟩
      · obtain ⟨given, lower, -⟩ := forest.child upper old (List.mem_of_getElem? slot)
        simp [lower] at gone
      · simp [lower] at gone
    -- A child in its own place was not checked, but it is not apart from itself.
    | misfit found place apart lower rejected =>
      obtain rfl := Option.some.inj (upper.symm.trans found)
      obtain rfl := Option.some.inj (slot.symm.trans place)
      rcases outcome with ⟨same, -⟩ | ⟨-, given, lower', accepted, -⟩
      · exact apart same
      · obtain rfl := Option.some.inj (lower.symm.trans lower')
        exact rejected accepted
  | setRoot id =>
    obtain ⟨given, found, file, alone, -⟩ := Tree.setRoot_ok done
    cases refused with
    | rootless gone => simp [found] at gone
    | fileless found' other =>
      obtain rfl := Option.some.inj (found.symm.trans found')
      exact other file
    | nested found' attached =>
      obtain rfl := Option.some.inj (found.symm.trans found')
      simp [alone] at attached

end Edit

/-- An edit of a reachable tree that is refused leaves the tree exactly as it was, and one is refused
exactly if there is a reason to. -/
theorem Tree.edit_refused {tree : Tree} (reachable : tree.Reachable) (edit : Edit) :
    (∀ error left, tree.edit edit = .error error left → left = tree ∧ edit.Refused tree error) ∧
      ∀ error, edit.Refused tree error → ∃ said, tree.edit edit = .error said tree := by
  -- The steps of an edit settle to the outcome of the operation, which leaves the tree alone if it
  -- fails.
  have forest := reachable.forest
  rw [Edit.edit_eq_settle forest edit]
  cases made : edit.outcome tree with
  | error why =>
    refine ⟨fun error left failed => ?_, fun error _ => ⟨why, rfl⟩⟩
    cases failed
    exact ⟨rfl, Edit.refused_of_error made⟩
  | ok after =>
    refine ⟨fun error left failed => ?_, fun error refused => ?_⟩
    · cases failed
    · exact absurd refused (Edit.not_refused_of_ok forest made)

/-- The root cannot be put in the place of a node that is below it, and trying to changes nothing. -/
theorem Walk.edit_refused_root :
    ∃ tree : Tree, tree.Reachable ∧ tree.root? = some ⟨0⟩ ∧ tree.children ⟨1⟩ = [⟨2⟩] ∧
      ∃ error, tree.edit (.replaceChild ⟨1⟩ 0 ⟨0⟩) = .error error tree ∧
        (Edit.replaceChild ⟨1⟩ 0 ⟨0⟩).Refused tree error := by
  let fill : Walk Unit Unit := do
    let file ← alloc .file default
    let block ← alloc (.metadata .empty) default
    let properties ← alloc .configs default
    change (·.setRoot file)
    change (·.addChild file block)
    change (·.addChild block properties)
  let file : Node := ⟨.file, default, none, [⟨1⟩]⟩
  let block : Node := ⟨.metadata .empty, default, some ⟨0⟩, [⟨2⟩]⟩
  let tree : Tree := ⟨#[some file, some block, some ⟨.configs, default, some ⟨1⟩, []⟩],
    some ⟨0⟩, .empty⟩
  have reachable : tree.Reachable := by
    refine ⟨Unit, Unit, fill, (), ?_, rfl⟩
    exact .bind (.alloc _ _) fun file => .bind (.alloc _ _) fun block =>
      .bind (.alloc _ _) fun properties => .bind (.setRoot _) fun _ =>
      .bind (.addChild _ _) fun _ => .addChild _ _
  obtain ⟨unchanged, fails⟩ := Tree.edit_refused reachable (.replaceChild ⟨1⟩ 0 ⟨0⟩)
  -- A block accepts properties only, and no file.
  have misfit : (Edit.replaceChild ⟨1⟩ 0 ⟨0⟩).Refused tree
      (.illegalChild (.only block.type) (.only file.type) block.type.whitelist) :=
    .misfit (rfl : tree.get? ⟨1⟩ = some block) rfl (by decide) (rfl : tree.get? ⟨0⟩ = some file)
      (by decide)
  obtain ⟨error, failed⟩ := fails _ misfit
  exact ⟨tree, reachable, rfl, rfl, error, failed, (unchanged error tree failed).2⟩

end ArgSchema
