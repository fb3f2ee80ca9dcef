import ArgSchema.Proofs.Tree.Puts
import Mathlib.Data.List.Basic

/-! Sparing changes: children are replaced one after the other, and the nodes elsewhere lose children at most. -/

namespace ArgSchema

namespace Tree

/-- The tree with more nodes, which hang nowhere. -/
def allocAll (tree : Tree) (made : List (NodeKind × Span)) : Tree :=
  made.foldl (fun tree item => tree.alloc item.1 item.2) tree

/-- Making nodes develops a tree. -/
theorem develops_allocAll (tree : Tree) (made : List (NodeKind × Span)) :
    tree.Develops (tree.allocAll made) := by
  induction made generalizing tree with
  | nil => exact .refl tree
  | cons item rest ih => exact (Develops.alloc tree item.1 item.2).trans (ih _)

/-- Making nodes leaves those that there are. -/
theorem get?_allocAll (tree : Tree) (made : List (NodeKind × Span)) {id : NodeId}
    (inside : id.index < tree.nodes.size) : (tree.allocAll made).get? id = tree.get? id := by
  induction made generalizing tree with
  | nil => rfl
  | cons item rest ih =>
    -- The first node that is made is none that there was.
    have apart : id ≠ tree.nextId := by
      rintro rfl
      exact Nat.lt_irrefl _ inside
    refine (ih (tree.alloc item.1 item.2) ?_).trans ((get?_alloc tree _ _ id).trans (if_neg apart))
    exact Nat.lt_of_lt_of_le inside (Develops.alloc tree item.1 item.2).size

/-- New nodes have no children, and all others have those that they had. -/
@[simp] theorem children_allocAll (tree : Tree) (made : List (NodeKind × Span)) (id : NodeId) :
    (tree.allocAll made).children id = tree.children id := by
  induction made generalizing tree with
  | nil => rfl
  | cons item rest ih =>
    -- The lists change at the new node alone, which had none and gets an empty one.
    refine (ih (tree.alloc item.1 item.2)).trans ?_
    unfold children
    rw [get?_alloc]
    split
    · next same => simp [same]
    · rfl

/-- Making nodes twice makes all of them. -/
theorem allocAll_append (tree : Tree) (made more : List (NodeKind × Span)) :
    tree.allocAll (made ++ more) = (tree.allocAll made).allocAll more :=
  List.foldl_append

/-- A tree comes of another by changes to some nodes and to what is below them, which take the place of
children of a parent. -/
structure Spares (level : Nat) (parent : NodeId) (ahead : List NodeId) (before after : Tree) :
    Prop where
  /-- The tree comes from the other by operations. -/
  develops : before.Develops after
  /-- A node that is as far above the leaves as the parent stays in its place. -/
  upper : ∀ {id node}, before.get? id = some node → level ≤ node.type.rank →
    ∃ other, after.get? id = some other ∧ other.type = node.type ∧ other.parent? = node.parent?
  /-- A node elsewhere gets no children and keeps their order. -/
  fewer : ∀ {id}, id.index < before.nodes.size → id ≠ parent → (∀ top ∈ ahead, ¬before.Under top id) →
    (after.children id).Sublist (before.children id)

namespace Spares

variable {a b c : Tree} {level : Nat} {parent : NodeId} {ahead : List NodeId}

/-- A tree that stays as it is spares everything. -/
theorem refl (tree : Tree) : Spares level parent ahead tree tree :=
  ⟨.refl tree, fun found _ => ⟨_, found, rfl, rfl⟩, fun _ _ _ => .refl _⟩

/-- Changes one after the other spare what both spare, if the second reaches no more than is given. -/
theorem trans {later all : List NodeId} (first : Spares level parent ahead a b)
    (second : Spares level parent later b c)
    (within : ∀ top ∈ ahead, ∀ id, a.Under top id → ∃ top ∈ all, a.Under top id)
    (within' : ∀ top ∈ later, ∀ id, b.Under top id → ∃ top ∈ all, a.Under top id) :
    Spares level parent all a c where
  develops := first.develops.trans second.develops
  upper found high := by
    -- The node keeps its type, so it is as high for the second change as for the first.
    obtain ⟨other, live, type, named⟩ := first.upper found high
    obtain ⟨last, live', type', named'⟩ := second.upper live (by rwa [type])
    exact ⟨last, live', type'.trans type, named'.trans named⟩
  fewer {id} inside apart outside := by
    -- A node outside of all is outside of what either change reaches.
    have early := first.fewer inside apart fun top member reached => by
      obtain ⟨other, listed, below⟩ := within top member id reached
      exact outside other listed below
    have late := second.fewer (Nat.lt_of_lt_of_le inside first.develops.size) apart
      fun top member reached => by
        obtain ⟨other, listed, below⟩ := within' top member id reached
        exact outside other listed below
    exact late.trans early

/-- Making nodes spares everything. -/
theorem allocAll (tree : Tree) (made : List (NodeKind × Span)) :
    Spares level parent ahead tree (tree.allocAll made) where
  develops := tree.develops_allocAll made
  upper found _ := by
    refine ⟨_, ?_, rfl, rfl⟩
    rw [tree.get?_allocAll made (index_lt_of_get? found), found]
  fewer _ _ _ := by rw [children_allocAll]

/-- Putting a node in the place of a child spares what is not below the child. -/
theorem put (forest : a.Forest) {above : Node} (upper : a.get? parent = some above) {id new : NodeId}
    (member : id ∈ a.children parent) (done : a.put id new = .ok b) :
    Spares above.type.rank parent [id] a b := by
  -- A child in its own place changes nothing.
  by_cases same : new = id
  · subst same
    rw [put_self] at done
    cases done
    exact .refl a
  · obtain ⟨above', given, upper', lower, accepted, left⟩ :=
      forest.accepted_of_put member same done
    rw [upper] at upper'
    cases upper'
    have kept := @Forest.get?_put a b id new parent forest member same done
    refine ⟨.put done, fun {other node} found high => ?_, fun {other} _ apart outside => ?_⟩
    · -- The child, what is below it and the node in its place are nearer to the leaves.
      obtain ⟨above', below, upper', live, -, accepted'⟩ := forest.of_mem_children member
      rw [upper] at upper'
      cases upper'
      -- A node of the parent's rank or above is not below the child.
      have outside : ¬a.Under id other := by
        intro reached
        obtain ⟨node', found', low⟩ := reached.rank_le forest live
        rw [found] at found'
        cases found'
        have falls := NodeType.rank_lt accepted'
        omega
      -- Nor is it the new node, which the parent accepts as its child.
      have apart : other ≠ new := by
        rintro rfl
        rw [lower] at found
        cases found
        have falls := NodeType.rank_lt accepted
        omega
      have left := kept outside
      rw [found, Option.map_some] at left
      exact ⟨_, left, rfl, if_neg apart⟩
    · -- Any other list loses the node that was taken from it, at most.
      have list := kept (outside id (by simp))
      unfold children
      rw [list]
      cases a.get? other with
      | none => exact .refl _
      | some node =>
        simp only [if_neg apart, Option.map_some, Option.getD_some]
        exact List.filter_sublist

/-- What is reached from a node that is spared could be reached from it before. -/
theorem under (spares : Spares level parent ahead a b) (forest : a.Forest) {top id : NodeId}
    {node : Node} (live : a.get? top = some node)
    (apart : ∀ id, a.Under top id → id ≠ parent ∧ ∀ other ∈ ahead, ¬a.Under other id)
    (reached : b.Under top id) : a.Under top id := by
  -- Lists below the node grew no longer, so the way to it was there before.
  refine reached.of_subset fun id below => ?_
  obtain ⟨node', found, -⟩ := below.rank_le forest live
  obtain ⟨other, outside⟩ := apart id below
  exact (spares.fewer (index_lt_of_get? found) other outside).subset

end Spares

section Lists

variable {front front' rest behind : List NodeId} {id : NodeId}

/-- In a list without repetitions there is one part behind an element. -/
theorem behind_eq (once : (front' ++ id :: behind).Nodup)
    (same : front' ++ id :: behind = front ++ id :: rest) : behind = rest := by
  -- The element occurs once, so it is at the same place in both divisions.
  rw [List.nodup_append, List.nodup_cons] at once
  have ahead : id ∉ front' := fun inside => once.2.2 id inside id (by simp) rfl
  exact ((List.append_cons_inj_of_notMem ahead once.2.1.1).mp same).2.2

/-- When a list without repetitions becomes shorter, so does the part behind an element. -/
theorem sublist_behind (once : (front ++ id :: rest).Nodup)
    (shorter : (front' ++ id :: behind).Sublist (front ++ id :: rest)) : behind.Sublist rest := by
  have left := once.sublist shorter
  -- The shorter list is one that is spared of the front, and one that is spared of the rest.
  obtain ⟨first, second, same, early, late⟩ := List.sublist_append_iff.mp shorter
  rw [List.nodup_append, List.nodup_cons] at once
  -- The element is in the second part, and it comes first there.
  have ahead : id ∉ first := fun inside => once.2.2 id (early.subset inside) id (by simp) rfl
  cases late with
  -- The element is dropped: then it would come again, behind itself.
  | cons _ later =>
    have missing : id ∈ first ++ second := same ▸ by simp
    exact absurd (later.subset ((List.mem_append.mp missing).resolve_left ahead)) once.2.1.1
  -- The element stays: what comes behind it is behind it in both.
  | cons_cons _ later => exact behind_eq left same ▸ later

end Lists

/-- What comes behind a child is the same however the list of children is divided there. -/
theorem Forest.behind_eq {tree : Tree} (forest : tree.Forest) {parent child : NodeId}
    {front front' rest behind : List NodeId} (first : tree.children parent = front ++ child :: rest)
    (second : tree.children parent = front' ++ child :: behind) : behind = rest := by
  -- No child is listed twice.
  have once := forest.nodup_children parent
  rw [second] at once
  exact Tree.behind_eq once (second.symm.trans first)

/-- The children of a node are dealt with up to one of them, and what is left of those that come after
it is still to come. -/
structure Advances (level : Nat) (parent child : NodeId) (rest behind : List NodeId)
    (before after : Tree) : Prop where
  /-- What is not below the child is spared. -/
  spares : Spares level parent [child] before after
  /-- No child is still to come that did not come after it. -/
  onward : behind.Sublist rest

section Siblings

variable {a b c : Tree} {level : Nat} {parent child : NodeId} {front rest : List NodeId}
  (forest : a.Forest) (placed : a.children parent = front ++ child :: rest)

include forest placed

/-- What is below a later sibling is neither the parent nor below the child. -/
theorem Forest.apart_of_later {top id : NodeId} (member : top ∈ rest) (reached : a.Under top id) :
    id ≠ parent ∧ ¬a.Under child id := by
  -- Two siblings have nothing below both of them.
  have first : child ∈ a.children parent := by simp [placed]
  have later : top ∈ a.children parent := by simp [placed, member]
  obtain ⟨-, x, -, live, named, -⟩ := forest.of_mem_children first
  obtain ⟨-, y, -, live', named', -⟩ := forest.of_mem_children later
  -- A node above its own parent would be above itself.
  refine ⟨fun same => Under.not_parent forest live' named' (same ▸ reached), fun also => ?_⟩
  have same := Under.unique forest live live' named named' also reached
  -- No child is listed twice.
  have once := forest.nodup_children parent
  rw [placed, List.nodup_append, List.nodup_cons] at once
  exact once.2.1.1 (same ▸ member)

/-- When the children were dealt with up to one of them, nothing is below those to come that was not. -/
theorem Advances.under {behind : List NodeId} (advances : Advances level parent child rest behind a b)
    {top id : NodeId} (member : top ∈ behind) (reached : b.Under top id) : a.Under top id := by
  have later := advances.onward.subset member
  have listed : top ∈ a.children parent := by simp [placed, later]
  obtain ⟨-, node, -, live, -⟩ := forest.of_mem_children listed
  -- Below a later sibling nothing is touched when the child is dealt with.
  refine advances.spares.under forest live (fun id below => ?_) reached
  obtain ⟨other, outside⟩ := forest.apart_of_later placed later below
  exact ⟨other, by simpa using outside⟩

/-- Dealing with a child and then with those to come spares what is below none of them. -/
theorem Advances.trans {behind : List NodeId} (advances : Advances level parent child rest behind a b)
    (second : Spares level parent behind b c) : Spares level parent (child :: rest) a c := by
  -- What the second step may touch is below a node that the first had to leave.
  refine advances.spares.trans second (fun top member id reached => ?_)
    fun top member id reached => ?_
  · exact ⟨top, by simpa using .inl (List.mem_singleton.mp member), reached⟩
  · exact ⟨top, by simp [advances.onward.subset member],
      advances.under forest placed member reached⟩

/-- A child that is replaced, after nodes were made, is dealt with. -/
theorem Advances.put {above : Node} (upper : a.get? parent = some above)
    {made : List (NodeKind × Span)} {new : NodeId} (done : (a.allocAll made).put child new = .ok b)
    {front' behind : List NodeId} (placed' : b.children parent = front' ++ new :: behind) :
    Advances above.type.rank parent child rest behind a b := by
  have made' := a.develops_allocAll made
  have grown := made'.forest forest
  have member : child ∈ (a.allocAll made).children parent := by simp [placed]
  have upper' : (a.allocAll made).get? parent = some above := by
    rw [a.get?_allocAll made (index_lt_of_get? upper), upper]
  have spares : Spares above.type.rank parent [child] (a.allocAll made) b := .put grown upper' member done
  -- Making nodes touches nothing, and putting the answer touches what is below the child.
  have untouched : Spares above.type.rank parent [] a (a.allocAll made) := .allocAll a made
  refine ⟨untouched.trans spares (by simp) fun top listed id reached => ?_, ?_⟩
  · -- Nothing more is below the child for the new nodes.
    refine ⟨top, listed, reached.of_subset fun id _ => ?_⟩
    rw [children_allocAll]
    exact List.Subset.refl _
  · -- Behind the answer stand the later siblings, less the answer if it was one of them.
    have list := grown.children_put (by rw [children_allocAll, placed]) done
    exact (spares.develops.forest grown).behind_eq list placed' ▸ List.filter_sublist

/-- A child whose own children were dealt with is dealt with. -/
theorem Advances.pass {above given : Node} (upper : a.get? parent = some above)
    (live : a.get? child = some given)
    (spares : Spares given.type.rank child (a.children child) a b) {front' behind : List NodeId}
    (placed' : b.children parent = front' ++ child :: behind) :
    Advances above.type.rank parent child rest behind a b := by
  have member : child ∈ a.children parent := by simp [placed]
  -- The child is nearer to the leaves than its parent, so what it keeps the parent keeps.
  obtain ⟨above', given', upper', live', named, accepted⟩ := forest.of_mem_children member
  rw [upper] at upper'
  cases upper'
  rw [live] at live'
  cases live'
  have lower := NodeType.rank_lt accepted
  constructor
  · refine ⟨spares.develops, fun found high => spares.upper found (by omega),
      fun {id} inside _ outside => ?_⟩
    have apart : ¬a.Under child id := outside child (by simp)
    -- What is not below the child is neither the child nor below one of its children.
    refine spares.fewer inside (fun same => apart (same ▸ .top)) fun top listed reached => ?_
    exact apart (reached.of_child listed)
  · -- The parent is not below the child, so its list has become shorter at most.
    have shorter : (b.children parent).Sublist (a.children parent) := by
      refine spares.fewer (index_lt_of_get? upper) ?_ fun top listed reached => ?_
      · rintro rfl
        exact Under.not_parent forest live named .top
      · exact Under.not_parent forest live named (reached.of_child listed)
    have once := forest.nodup_children parent
    rw [placed', placed] at shorter
    rw [placed] at once
    exact sublist_behind once shorter

end Siblings

end Tree

end ArgSchema
