import ArgSchema.Proofs.Tree.Forest
import Mathlib.Data.List.Nodup
import Mathlib.Data.List.Perm.Subperm

/-! Growths: the handles of a node and of everything below it, in the shape of the tree. -/

namespace ArgSchema

/-- A handle over the growths of the node's children, in order. -/
inductive Growth where
  /-- A node over others. -/
  | node (id : NodeId) (children : List Growth)

namespace Growth

/-- The handle at the top. -/
def id : Growth → NodeId
  | .node id _ => id

/-- The growths below the top. -/
def children : Growth → List Growth
  | .node _ children => children

mutual

/-- All handles, each in front of those below it. -/
def ids : Growth → List NodeId
  | .node id children => id :: idsAll children

/-- The handles of growths, one after the other. -/
def idsAll : List Growth → List NodeId
  | [] => []
  | growth :: rest => growth.ids ++ idsAll rest

end

/-- The handle at the top comes first. -/
theorem id_mem_ids (growth : Growth) : growth.id ∈ growth.ids := by
  cases growth
  simp [id, ids]

/-- The other handles are those below the top. -/
theorem ids_eq (growth : Growth) : growth.ids = growth.id :: idsAll growth.children := by
  cases growth
  rw [ids, id, children]

/-- The handles of a list are those of its members. -/
theorem mem_idsAll {growths : List Growth} {id : NodeId} :
    id ∈ idsAll growths ↔ ∃ growth ∈ growths, id ∈ growth.ids := by
  induction growths with
  | nil => simp [idsAll]
  | cons growth rest ih => simp [idsAll, ih]

end Growth

namespace Tree

mutual

/-- A growth is what grows below a live node. -/
def Grows (tree : Tree) : Growth → Prop
  | .node id children =>
    ∃ node, tree.get? id = some node ∧ node.children = children.map Growth.id ∧
      GrowsAll tree children

/-- Growths are what grows below live nodes, one by one. -/
def GrowsAll (tree : Tree) : List Growth → Prop
  | [] => True
  | growth :: rest => Grows tree growth ∧ GrowsAll tree rest

end

/-- A node that can be reached from another through lists of children. -/
inductive Under (tree : Tree) (top : NodeId) : NodeId → Prop
  /-- The other node itself. -/
  | top : Under tree top top
  /-- A child of a node that can be reached. -/
  | child {id below : NodeId} {node : Node} : Under tree top id → tree.get? id = some node →
      below ∈ node.children → Under tree top below

variable {tree : Tree}

/-- Growths are what grows below each of their tops. -/
theorem growsAll_iff {growths : List Growth} :
    tree.GrowsAll growths ↔ ∀ growth ∈ growths, tree.Grows growth := by
  induction growths with
  | nil => simp [GrowsAll]
  | cons growth rest ih => simp [GrowsAll, ih]

/-- The top of a growth is live, and its children are the tops of the growths below it. -/
theorem Grows.get? {growth : Growth} (grows : tree.Grows growth) :
    ∃ node, tree.get? growth.id = some node ∧ node.children = growth.children.map Growth.id ∧
      ∀ below ∈ growth.children, tree.Grows below := by
  -- A growth lists the children of its node.
  cases growth with
  | node id children =>
    simp only [Grows] at grows
    obtain ⟨node, found, same, below⟩ := grows
    exact ⟨node, found, same, growsAll_iff.mp below⟩

/-- Something grows below every live node of a well-formed tree. -/
theorem exists_growth (forest : tree.Forest) {id : NodeId} {node : Node}
    (found : tree.get? id = some node) : ∃ growth, tree.Grows growth ∧ growth.id = id := by
  -- Children have lower ranks, so the recursion ends at the leaves.
  generalize ranked : node.type.rank = rank
  induction rank using Nat.strongRecOn generalizing id node with
  | ind rank ih =>
    -- Below each child something grows, as its rank is lower.
    have grown : ∀ ids, (∀ child ∈ ids, child ∈ node.children) →
        ∃ growths, tree.GrowsAll growths ∧ growths.map Growth.id = ids := by
      intro ids
      induction ids with
      | nil => exact fun _ => ⟨[], by simp [GrowsAll], rfl⟩
      | cons child rest more =>
        intro listed
        obtain ⟨given, lower, _, accepted⟩ := forest.child found child (listed child (by simp))
        obtain ⟨growth, grows, same⟩ :=
          ih _ (ranked ▸ NodeType.rank_lt accepted) lower rfl
        obtain ⟨growths, all, others⟩ := more fun other member => listed other (by simp [member])
        exact ⟨growth :: growths, by simp [GrowsAll, grows, all], by simp [same, others]⟩
    obtain ⟨growths, all, same⟩ := grown node.children fun _ member => member
    refine ⟨.node id growths, ?_, rfl⟩
    simp only [Grows]
    exact ⟨node, found, same.symm, all⟩

mutual

/-- A child of a node in a growth is in the growth. -/
theorem Grows.child_mem : ∀ (growth : Growth), tree.Grows growth → ∀ {id below node},
    id ∈ growth.ids → tree.get? id = some node → below ∈ node.children → below ∈ growth.ids
  | .node top children, grows, id, below, node, member, found, listed => by
    simp only [Grows] at grows
    obtain ⟨upper, live, same, all⟩ := grows
    simp only [Growth.ids, List.mem_cons] at member ⊢
    -- At the top the child is the top of a growth below; elsewhere it is in the same growth.
    rcases member with rfl | member
    · rw [live] at found
      cases found
      rw [same] at listed
      obtain ⟨growth, given, rfl⟩ := List.mem_map.mp listed
      exact .inr (Growth.mem_idsAll.mpr ⟨growth, given, growth.id_mem_ids⟩)
    · exact .inr (GrowsAll.child_mem children all member found listed)

/-- A child of a node in growths is in the growths. -/
theorem GrowsAll.child_mem : ∀ (growths : List Growth), tree.GrowsAll growths → ∀ {id below node},
    id ∈ Growth.idsAll growths → tree.get? id = some node → below ∈ node.children →
      below ∈ Growth.idsAll growths
  | [], _, _, _, _, member, _, _ => by simp [Growth.idsAll] at member
  | growth :: rest, grows, id, below, node, member, found, listed => by
    simp only [GrowsAll] at grows
    simp only [Growth.idsAll, List.mem_append] at member ⊢
    rcases member with member | member
    · exact .inl (Grows.child_mem growth grows.1 member found listed)
    · exact .inr (GrowsAll.child_mem rest grows.2 member found listed)

end

mutual

/-- What is in a growth can be reached from its top. -/
theorem Grows.under : ∀ (growth : Growth), tree.Grows growth → ∀ {top},
    tree.Under top growth.id → ∀ id ∈ growth.ids, tree.Under top id
  | .node id children, grows, top, reached, other, member => by
    simp only [Grows] at grows
    obtain ⟨node, found, same, all⟩ := grows
    simp only [Growth.ids, List.mem_cons] at member
    -- The top is reached, and so are the tops right below it.
    rcases member with rfl | member
    · exact reached
    · refine GrowsAll.under children all (fun growth given => ?_) other member
      exact reached.child found (same ▸ List.mem_map.mpr ⟨growth, given, rfl⟩)

/-- What is in growths can be reached from their tops. -/
theorem GrowsAll.under : ∀ (growths : List Growth), tree.GrowsAll growths → ∀ {top},
    (∀ growth ∈ growths, tree.Under top growth.id) →
      ∀ id ∈ Growth.idsAll growths, tree.Under top id
  | [], _, _, _, _, member => by simp [Growth.idsAll] at member
  | growth :: rest, grows, top, reached, id, member => by
    simp only [GrowsAll] at grows
    simp only [Growth.idsAll, List.mem_append] at member
    rcases member with member | member
    · exact Grows.under growth grows.1 (reached growth (by simp)) id member
    · exact GrowsAll.under rest grows.2 (fun other given => reached other (by simp [given])) id
        member

end

/-- A growth holds what can be reached from its top. -/
theorem Grows.mem_ids_iff {growth : Growth} (grows : tree.Grows growth) {id : NodeId} :
    id ∈ growth.ids ↔ tree.Under growth.id id := by
  -- What grows is below the top, and each step down stays in the growth.
  constructor
  · exact Grows.under growth grows .top id
  · intro reached
    induction reached with
    | top => exact growth.id_mem_ids
    | child _ found listed ih => exact Grows.child_mem growth grows ih found listed

mutual

/-- What grows depends on the links only. -/
theorem Grows.congr {other : Tree} (same : tree.SameLinks other) :
    ∀ growth : Growth, tree.Grows growth → other.Grows growth
  | .node id children, grows => by
    simp only [Grows] at grows ⊢
    obtain ⟨node, found, listed, all⟩ := grows
    -- The same node has the same children in the other tree.
    obtain ⟨node', found', _, _, children'⟩ := same.get? found
    exact ⟨node', found', children'.trans listed, GrowsAll.congr same children all⟩

/-- What grows in order depends on the links only. -/
theorem GrowsAll.congr {other : Tree} (same : tree.SameLinks other) :
    ∀ growths : List Growth, tree.GrowsAll growths → other.GrowsAll growths
  | [], _ => by simp [GrowsAll]
  | growth :: rest, grows => by
    simp only [GrowsAll] at grows ⊢
    exact ⟨Grows.congr same growth grows.1, GrowsAll.congr same rest grows.2⟩

end

mutual

/-- What grows depends on the nodes in it only. -/
theorem Grows.of_get? {other : Tree} : ∀ growth : Growth, tree.Grows growth →
    (∀ id ∈ growth.ids, other.get? id = tree.get? id) → other.Grows growth
  | .node id children, grows, same => by
    simp only [Grows] at grows ⊢
    obtain ⟨node, found, listed, all⟩ := grows
    refine ⟨node, (same id (by simp [Growth.ids])).trans found, listed, ?_⟩
    exact GrowsAll.of_get? children all fun below member => same below (by simp [Growth.ids, member])

/-- What grows in order depends on the nodes in it only. -/
theorem GrowsAll.of_get? {other : Tree} : ∀ growths : List Growth, tree.GrowsAll growths →
    (∀ id ∈ Growth.idsAll growths, other.get? id = tree.get? id) → other.GrowsAll growths
  | [], _, _ => by simp [GrowsAll]
  | growth :: rest, grows, same => by
    simp only [GrowsAll] at grows ⊢
    exact ⟨Grows.of_get? growth grows.1 fun id member => same id (by simp [Growth.idsAll, member]),
      GrowsAll.of_get? rest grows.2 fun id member => same id (by simp [Growth.idsAll, member])⟩

end

/-- What can be reached depends on the links only. -/
theorem Under.congr {other : Tree} (same : tree.SameLinks other) {top id : NodeId}
    (reached : tree.Under top id) : other.Under top id := by
  -- By induction on the way down, as each node has the same children.
  induction reached with
  | top => exact .top
  | child _ found listed ih =>
    obtain ⟨node', found', _, _, children'⟩ := same.get? found
    exact ih.child found' (children'.symm ▸ listed)

/-- What can be reached from a live node is live, and no farther from the leaves. -/
theorem Under.rank_le (forest : tree.Forest) {top id : NodeId} {upper : Node}
    (found : tree.get? top = some upper) (reached : tree.Under top id) :
    ∃ node, tree.get? id = some node ∧ node.type.rank ≤ upper.type.rank := by
  induction reached with
  | top => exact ⟨upper, found, Nat.le_refl _⟩
  -- A child has a lower rank than the node that accepts it.
  | child _ above listed ih =>
    obtain ⟨node, live, less⟩ := ih
    rw [above] at live
    cases live
    obtain ⟨given, lower, _, accepted⟩ := forest.child above _ listed
    exact ⟨given, lower, Nat.le_trans (Nat.le_of_lt (NodeType.rank_lt accepted)) less⟩

/-- A parent cannot be reached from its child. -/
theorem Under.not_parent (forest : tree.Forest) {parent child : NodeId} {node : Node}
    (found : tree.get? child = some node) (named : node.parent? = some parent) :
    ¬tree.Under child parent := by
  intro reached
  -- The parent has a higher rank than the child, and all below the child have lower ones.
  obtain ⟨above, upper, listed⟩ := forest.listed found named
  obtain ⟨given, lower, _, accepted⟩ := forest.child upper child listed
  rw [found] at lower
  cases lower
  obtain ⟨above', upper', less⟩ := reached.rank_le forest found
  rw [upper] at upper'
  cases upper'
  exact Nat.lt_irrefl _ (Nat.lt_of_lt_of_le (NodeType.rank_lt accepted) less)

/-- What can be reached from two children of one node can be reached from one of them only. -/
theorem Under.unique (forest : tree.Forest) {parent first second id : NodeId} {a b : Node}
    (left : tree.get? first = some a) (right : tree.get? second = some b)
    (leftParent : a.parent? = some parent) (rightParent : b.parent? = some parent)
    (reached : tree.Under first id) (again : tree.Under second id) : first = second := by
  induction reached with
  | top =>
    -- The one top is the other, or lies below it, where no sibling is.
    cases again with
    | top => rfl
    | child upper above listed =>
      obtain ⟨given, lower, named, _⟩ := forest.child above _ listed
      rw [left] at lower
      cases lower
      rw [leftParent] at named
      cases named
      exact absurd upper (Under.not_parent forest right rightParent)
  | child upper above listed ih =>
    obtain ⟨given, lower, named, _⟩ := forest.child above _ listed
    cases again with
    | top =>
      rw [right] at lower
      cases lower
      rw [rightParent] at named
      cases named
      exact absurd upper (Under.not_parent forest left leftParent)
    | child upper' above' listed' =>
      -- A node has one parent, so both ways lead through it.
      obtain ⟨given', lower', named', _⟩ := forest.child above' _ listed'
      rw [lower] at lower'
      cases lower'
      rw [named] at named'
      cases named'
      exact ih upper'

/-- The children of a live node are those that its handle names. -/
theorem get?_of_mem_children {tree : Tree} {id child : NodeId} (member : child ∈ tree.children id) :
    ∃ node, tree.get? id = some node ∧ child ∈ node.children := by
  -- A node that is not there has no children.
  unfold children at member
  cases found : tree.get? id with
  | none => simp [found] at member
  | some node => exact ⟨node, rfl, by simpa [found] using member⟩

/-- A child of a node that can be reached can be reached. -/
theorem Under.listed {tree : Tree} {top id child : NodeId} (reached : tree.Under top id)
    (member : child ∈ tree.children id) : tree.Under top child := by
  obtain ⟨node, found, inside⟩ := get?_of_mem_children member
  exact reached.child found inside

/-- What can be reached from what can be reached can be reached. -/
theorem Under.trans {top middle id : NodeId} (first : tree.Under top middle)
    (second : tree.Under middle id) : tree.Under top id := by
  -- By induction on the second way, which adds one child after the other to the first.
  induction second with
  | top => exact first
  | child _ found listed ih => exact ih.child found listed

/-- What can be reached from a child can be reached from its parent. -/
theorem Under.of_child {parent child id : NodeId} (member : child ∈ tree.children parent)
    (reached : tree.Under child id) : tree.Under parent id :=
  (Under.top.listed member).trans reached

/-- What can be reached from another node can be reached from one of its children. -/
theorem Under.exists_child {top id : NodeId} (reached : tree.Under top id) (other : id ≠ top) :
    ∃ child ∈ tree.children top, tree.Under child id := by
  induction reached with
  | top => exact absurd rfl other
  | @child id below node upper found listed ih =>
    have member : below ∈ tree.children id := by simpa [children, found] using listed
    -- The way leads through the last node, which is the top or lies below one of its children.
    by_cases here : id = top
    · exact ⟨below, here ▸ member, .top⟩
    · obtain ⟨child, first, reached⟩ := ih here
      exact ⟨child, first, reached.child found listed⟩

/-- Nothing more can be reached if all that could be reached has fewer children. -/
theorem Under.of_subset {other : Tree} {top id : NodeId}
    (fewer : ∀ id, tree.Under top id → other.children id ⊆ tree.children id)
    (reached : other.Under top id) : tree.Under top id := by
  -- By induction on the way down: each step is one in the other tree.
  induction reached with
  | top => exact .top
  | @child id below node _ found listed ih =>
    have member : below ∈ other.children id := by simpa [children, found] using listed
    exact ih.listed (fewer id ih member)

/-- A node is not below its own children. -/
theorem Forest.not_under_of_mem_children (forest : tree.Forest) {parent child : NodeId}
    (member : child ∈ tree.children parent) : ¬tree.Under child parent := by
  -- The child's parent is the node, and nothing below the child is its parent.
  obtain ⟨above, upper, listed⟩ := get?_of_mem_children member
  obtain ⟨given, lower, named, -⟩ := forest.child upper child listed
  exact Under.not_parent forest lower named

/-- What can be reached from a node cannot lead back to it. -/
theorem Under.antisymm (forest : tree.Forest) {top id : NodeId} (reached : tree.Under top id)
    (back : tree.Under id top) : id = top := by
  -- Otherwise one would lie below a child of the other, which lies below the first again.
  by_contra other
  obtain ⟨child, member, below⟩ := reached.exists_child other
  exact forest.not_under_of_mem_children member (below.trans back)

/-- Siblings have distinct handles, and they grow below one node. -/
structure Siblings (tree : Tree) (growths : List Growth) : Prop where
  /-- No handle stands twice. -/
  once : (growths.map Growth.id).Nodup
  /-- All of them have the same parent. -/
  parent : ∃ parent, ∀ growth ∈ growths, ∃ node, tree.get? growth.id = some node ∧
    node.parent? = some parent

/-- The growths below the top of a growth are siblings. -/
theorem Grows.siblings (forest : tree.Forest) {growth : Growth} (grows : tree.Grows growth) :
    tree.Siblings growth.children := by
  -- The children of one node differ, and each names it.
  obtain ⟨node, found, same, -⟩ := grows.get?
  refine ⟨same ▸ forest.once found, growth.id, fun below member => ?_⟩
  obtain ⟨given, lower, parent, -⟩ :=
    forest.child found below.id (same ▸ List.mem_map.mpr ⟨below, member, rfl⟩)
  exact ⟨given, lower, parent⟩

mutual

/-- No handle is in a growth twice. -/
theorem Grows.nodup (forest : tree.Forest) :
    ∀ (growth : Growth), tree.Grows growth → growth.ids.Nodup
  | .node id children, grows => by
    have siblings := grows.siblings forest
    simp only [Grows] at grows
    obtain ⟨node, found, same, all⟩ := grows
    simp only [Growth.ids]
    refine List.nodup_cons.mpr ⟨?_, GrowsAll.nodup forest children all siblings⟩
    -- The top is the parent of the nodes below it, so it is not below them.
    intro member
    obtain ⟨growth, given, below⟩ := Growth.mem_idsAll.mp member
    obtain ⟨lower, live, parent, -⟩ :=
      forest.child found growth.id (same ▸ List.mem_map.mpr ⟨growth, given, rfl⟩)
    have reached := (growsAll_iff.mp all growth given).mem_ids_iff.mp below
    exact Under.not_parent forest live parent reached

/-- No handle is in growths of siblings twice. -/
theorem GrowsAll.nodup (forest : tree.Forest) :
    ∀ (growths : List Growth), tree.GrowsAll growths → tree.Siblings growths →
      (Growth.idsAll growths).Nodup
  | [], _, _ => List.nodup_nil
  | growth :: rest, grows, siblings => by
    simp only [GrowsAll] at grows
    obtain ⟨once, parent, named⟩ := siblings
    rw [List.map_cons, List.nodup_cons] at once
    refine List.nodup_append.mpr ⟨Grows.nodup forest growth grows.1,
      GrowsAll.nodup forest rest grows.2
        ⟨once.2, parent, fun other member => named other (by simp [member])⟩, ?_⟩
    rintro id here _ there rfl
    -- What is in two growths could be reached from two siblings.
    obtain ⟨other, member, below⟩ := Growth.mem_idsAll.mp there
    obtain ⟨a, left, leftParent⟩ := named growth (by simp)
    obtain ⟨b, right, rightParent⟩ := named other (by simp [member])
    have same := Under.unique forest left right leftParent rightParent
      (grows.1.mem_ids_iff.mp here) ((growsAll_iff.mp grows.2 other member).mem_ids_iff.mp below)
    exact once.1 (List.mem_map.mpr ⟨other, member, same.symm⟩)

end

/-- A growth has no more handles than the tree has nodes. -/
theorem Grows.length_le (forest : tree.Forest) {growth : Growth} (grows : tree.Grows growth) :
    growth.ids.length ≤ tree.nodes.size := by
  have different : (growth.ids.map NodeId.index).Nodup :=
    (List.nodup_map_iff_inj_on (Grows.nodup forest growth grows)).mpr
      fun _ _ _ _ same => NodeId.ext same
  -- Handles of live nodes are distinct numbers below the size.
  have inside : growth.ids.map NodeId.index ⊆ List.range tree.nodes.size := by
    intro index member
    obtain ⟨id, given, rfl⟩ := List.mem_map.mp member
    obtain ⟨upper, found, _⟩ := grows.get?
    obtain ⟨node, live, _⟩ := (grows.mem_ids_iff.mp given).rank_le forest found
    exact List.mem_range.mpr (index_lt_of_get? live)
  have counted := (different.subperm inside).length_le
  rwa [List.length_map, List.length_range] at counted

end Tree

end ArgSchema
