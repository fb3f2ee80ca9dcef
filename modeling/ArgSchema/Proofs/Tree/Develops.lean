import ArgSchema.Proofs.Tree.Moves
import ArgSchema.Proofs.Tree.SameSyntax

/-! Development: each operation keeps a tree well formed and never brings back what was released. -/

namespace ArgSchema

namespace Tree

/-- A tree has the slots of another, and what names nothing there names nothing here. -/
structure Fades (before after : Tree) : Prop where
  /-- Both trees made the same number of nodes. -/
  size : after.nodes.size = before.nodes.size
  /-- Handles that name nothing go on to name nothing. -/
  gone : ∀ id, before.get? id = none → after.get? id = none

namespace Fades

variable {a b c : Tree}

/-- A tree that stays as it is brings nothing back. -/
theorem refl (tree : Tree) : Fades tree tree := ⟨rfl, fun _ gone => gone⟩

/-- What brings nothing back twice brings nothing back. -/
theorem trans (first : Fades a b) (second : Fades b c) : Fades a c :=
  ⟨second.size.trans first.size, fun id gone => second.gone id (first.gone id gone)⟩

/-- Changing a node brings nothing back. -/
theorem modify (tree : Tree) (id : NodeId) (f : Node → Node) : Fades tree (tree.modify id f) := by
  refine ⟨Array.size_modify, fun other gone => ?_⟩
  rw [get?_modify_eq_map, gone, Option.map_none]

/-- Taking a node from its place brings nothing back. -/
theorem detach (tree : Tree) (id : NodeId) : Fades tree (tree.detach id) := by
  -- Without a parent nothing changes, and otherwise two nodes do.
  unfold Tree.detach
  split
  · exact .refl tree
  · exact (modify tree id _).trans (modify _ _ _)

/-- Releasing nodes brings nothing back. -/
theorem releaseAll (tree : Tree) (nodes : Array (Option Node)) (pending : List NodeId) :
    Fades { tree with nodes := nodes } { tree with nodes := releaseAll nodes pending } := by
  fun_induction Tree.releaseAll nodes pending with
  | case1 nodes => exact .refl _
  | case2 nodes id rest node found ih =>
    -- Emptying one slot brings nothing back, and the rest is by induction on what is pending.
    refine Fades.trans ⟨Array.size_setIfInBounds, fun other gone => ?_⟩ ih
    have emptied := get?_without { tree with nodes := nodes } id other
    rw [gone, ite_self] at emptied
    exact emptied
  | case3 nodes id rest none ih => exact ih

/-- Releasing a node brings nothing back. -/
theorem release (tree : Tree) (id : NodeId) : Fades tree (tree.release id) :=
  releaseAll tree tree.nodes [id]

end Fades

/-- A node that was released names nothing. -/
theorem contains_release (tree : Tree) (id : NodeId) : (tree.release id).contains id = false := by
  cases found : tree.get? id with
  | none => simp [contains, (Fades.release tree id).gone id found]
  | some node =>
    have slot : tree.nodes[id.index]? = some (some node) := by
      simpa [get?, Option.join_eq_some_iff] using found
    have emptied := get?_without tree id id
    rw [if_pos rfl] at emptied
    -- Once the slot is empty, releasing what is below brings nothing back.
    have step : tree.release id = { tree with
        nodes := releaseAll (tree.without id).nodes (node.children ++ []) } := by
      rw [release, releaseAll]
      split
      · next other same =>
        rw [slot] at same
        cases same
        rfl
      · next none => exact absurd slot (none node)
    have gone := (Fades.releaseAll tree (tree.without id).nodes (node.children ++ [])).gone id emptied
    rw [← step] at gone
    simp [contains, gone]

/-- One tree comes from another: it is well formed if that was, and nothing that was released is back. -/
structure Develops (before after : Tree) : Prop where
  /-- What was well formed still is. -/
  forest : before.Forest → after.Forest
  /-- No slot is taken away. -/
  size : before.nodes.size ≤ after.nodes.size
  /-- A handle of a node that was released names nothing again. -/
  gone : ∀ id, id.index < before.nodes.size → before.get? id = none → after.get? id = none

namespace Develops

variable {a b c tree : Tree}

/-- Every tree comes from itself. -/
theorem refl (tree : Tree) : Develops tree tree := ⟨id, Nat.le_refl _, fun _ _ gone => gone⟩

/-- What comes from what comes from a tree comes from that tree. -/
theorem trans (first : Develops a b) (second : Develops b c) : Develops a c where
  forest := second.forest ∘ first.forest
  size := Nat.le_trans first.size second.size
  gone id made gone :=
    second.gone id (Nat.lt_of_lt_of_le made first.size) (first.gone id made gone)

/-- What brings nothing back and keeps a tree well formed develops it. -/
theorem of_fades (fades : Fades a b) (forest : a.Forest → b.Forest) : Develops a b :=
  ⟨forest, Nat.le_of_eq fades.size.symm, fun id _ gone => fades.gone id gone⟩

/-- Making a node develops a tree. -/
theorem alloc (tree : Tree) (kind : NodeKind) (span : Span) : Develops tree (tree.alloc kind span) where
  forest forest := forest.alloc kind span
  size := by simp [Tree.alloc]
  gone id made gone := by
    -- The new node takes a slot that no old handle names.
    have apart : id ≠ tree.nextId := by
      rintro rfl
      exact Nat.lt_irrefl _ made
    rw [get?_alloc, if_neg apart, gone]

/-- Hanging a node below another develops a tree. -/
theorem addChild {parent child : NodeId} (done : tree.addChild parent child = .ok b) :
    Develops tree b := by
  refine .of_fades ?_ fun forest => forest.addChild done
  obtain ⟨_, _, _, _, _, _, _, rfl⟩ := addChild_ok done
  exact (Fades.modify tree parent _).trans (.modify _ child _)

/-- Replacing a child develops a tree. -/
theorem replaceChild {parent new : NodeId} {index : Nat}
    (done : tree.replaceChild parent index new = .ok b) : Develops tree b := by
  -- A child replaced by itself changes nothing; otherwise the new one moves in and the old one is
  -- released.
  refine .of_fades ?_ fun forest => forest.replaceChild done
  rcases replaceChild_ok done with rfl | ⟨_, old, _, _, _, _, _, _, rfl⟩
  · exact .refl b
  · have exchanged : Fades (tree.detach new) ((tree.detach new).exchange parent old new) :=
      (Fades.modify _ parent _).trans (.modify _ new _)
    exact (Fades.detach tree new).trans (exchanged.trans (.release _ old))

/-- Making a file the root develops a tree. -/
theorem setRoot {id : NodeId} (done : tree.setRoot id = .ok b) : Develops tree b := by
  -- The root is set first, and then the former one is released.
  refine .of_fades ?_ fun forest => forest.setRoot done
  have rooted : Fades tree { tree with root? := some id } := ⟨rfl, fun _ gone => gone⟩
  obtain ⟨_, _, _, _, rfl | ⟨old, _, _, rfl⟩⟩ := setRoot_ok done
  · exact rooted
  · exact rooted.trans (.release _ old)

/-- Changing no links and making no node develops a tree. -/
theorem of_links (links : SameLinks a b) (size : b.nodes.size = a.nodes.size) : Develops a b := by
  -- The same nodes are gone on both sides.
  refine .of_fades ⟨size, fun id gone => ?_⟩ fun forest => forest.congr links
  have same := links.links id
  rw [gone, Option.map_none] at same
  exact Option.map_eq_none_iff.mp same.symm

/-- Changing no more than tables and resolved names develops a tree. -/
theorem modifyKind (tree : Tree) (id : NodeId) {f : NodeKind → NodeKind}
    (kept : ∀ kind, (f kind).bare = kind.bare) : Develops tree (tree.modifyKind id f) :=
  of_links (SameSyntax.modifyKind tree id kept).links Array.size_modify

/-- Replacing the table of a definition develops a tree. -/
theorem setTable (tree : Tree) (id : NodeId) (table : SymbolTable) :
    Develops tree (tree.setTable id table) :=
  modifyKind tree id fun kind => kind.bare_withTable table

/-- Replacing the table of top-level names develops a tree. -/
theorem table (tree : Tree) (table : SymbolTable) : Develops tree { tree with table := table } :=
  of_links (SameSyntax.table tree table).links rfl

end Develops

end Tree

end ArgSchema
