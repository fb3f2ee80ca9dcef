import ArgSchema.Proofs.Tree.Lookup

/-! Well-formed trees: every child list and every parent link agree, and types stand in layers. -/

namespace ArgSchema

/-- The type of a node and the nodes it is linked to. -/
def Node.links (node : Node) : NodeType × Option NodeId × List NodeId :=
  (node.type, node.parent?, node.children)

namespace Tree

/-- Links in both directions agree, and every parent accepts its children. -/
structure Forest (tree : Tree) : Prop where
  /-- A child is live, knows its parent and is of a type that the parent accepts. -/
  child : ∀ {id node}, tree.get? id = some node → ∀ below ∈ node.children,
    ∃ given, tree.get? below = some given ∧ given.parent? = some id ∧
      given.type ∈ node.type.whitelist
  /-- No child is listed twice. -/
  once : ∀ {id node}, tree.get? id = some node → node.children.Nodup
  /-- A parent lists the node that names it. -/
  listed : ∀ {id node parent}, tree.get? id = some node → node.parent? = some parent →
    ∃ above, tree.get? parent = some above ∧ id ∈ above.children
  /-- No node has more children than its type allows. -/
  bounded : ∀ {id node max}, tree.get? id = some node → node.type.maxChildren? = some max →
    node.children.length ≤ max
  /-- The root is a detached file. -/
  rooted : ∀ {id}, tree.root? = some id →
    ∃ node, tree.get? id = some node ∧ node.type = .file ∧ node.parent? = none

/-- Two trees have the same root and the same links between nodes of the same types. -/
structure SameLinks (a b : Tree) : Prop where
  /-- Both trees have the same root. -/
  root : a.root? = b.root?
  /-- Each handle names nodes with the same links. -/
  links : ∀ id, (a.get? id).map Node.links = (b.get? id).map Node.links

namespace SameLinks

variable {a b c : Tree}

/-- Having the same links goes both ways. -/
theorem symm (same : SameLinks a b) : SameLinks b a :=
  ⟨same.root.symm, fun id => (same.links id).symm⟩

/-- A live node of one tree is live in the other, with the same links. -/
theorem get? (same : SameLinks a b) {id : NodeId} {node : Node} (found : a.get? id = some node) :
    ∃ other, b.get? id = some other ∧ other.type = node.type ∧ other.parent? = node.parent? ∧
      other.children = node.children := by
  -- Both trees answer the lookup with the same links.
  have equal := same.links id
  rw [found, Option.map_some] at equal
  obtain ⟨other, live, links⟩ := Option.map_eq_some_iff.mp equal.symm
  simp only [Node.links, Prod.mk.injEq] at links
  exact ⟨other, live, links⟩

/-- Changing what is in a node, but none of its links, keeps all links. -/
theorem modify (tree : Tree) (id : NodeId) {f : Node → Node} (kept : ∀ node, (f node).links = node.links) :
    SameLinks tree (tree.modify id f) := by
  -- The node's links are kept, and no other node is touched.
  refine ⟨rfl, fun other => ?_⟩
  rw [get?_modify]
  split
  · cases tree.get? other <;> simp [kept]
  · rfl

end SameLinks

/-- A step after which each node has the parent and the children that it makes of those before. -/
structure Relinks (a b : Tree) (up : NodeId → Option NodeId → Option NodeId)
    (down : NodeId → List NodeId → List NodeId) : Prop where
  /-- The root stays. -/
  root : b.root? = a.root?
  /-- The same handles are live, for nodes of the same types. -/
  links : ∀ id, (b.get? id).map Node.links =
    (a.get? id).map fun node => (node.type, up id node.parent?, down id node.children)

namespace Relinks

variable {a b : Tree} {up : NodeId → Option NodeId → Option NodeId}
  {down : NodeId → List NodeId → List NodeId} {id : NodeId}

/-- A node behind the step is one from before it. -/
theorem before (step : Relinks a b up down) {node : Node} (found : b.get? id = some node) :
    ∃ old, a.get? id = some old ∧ node.type = old.type ∧ node.parent? = up id old.parent? ∧
      node.children = down id old.children := by
  -- What is found after the step is told by what was there, since lookups are mapped.
  have equal := step.links id
  rw [found, Option.map_some] at equal
  obtain ⟨old, was, links⟩ := Option.map_eq_some_iff.mp equal.symm
  simp only [Node.links, Prod.mk.injEq] at links
  obtain ⟨type, parent, children⟩ := links
  exact ⟨old, was, type.symm, parent.symm, children.symm⟩

/-- A node from before the step is there behind it. -/
theorem after (step : Relinks a b up down) {old : Node} (found : a.get? id = some old) :
    ∃ node, b.get? id = some node ∧ node.type = old.type ∧ node.parent? = up id old.parent? ∧
      node.children = down id old.children := by
  -- What was there is found after the step, with its links changed as told.
  have equal := step.links id
  rw [found, Option.map_some] at equal
  obtain ⟨node, now, links⟩ := Option.map_eq_some_iff.mp equal
  simp only [Node.links, Prod.mk.injEq] at links
  exact ⟨node, now, links⟩

/-- A link gives the child its parent, and the parent one more child. -/
theorem link (tree : Tree) {parent child : NodeId} (apart : parent ≠ child) :
    Relinks tree (tree.link parent child)
      (fun id above? => if id = child then some parent else above?)
      (fun id below => if id = parent then below ++ [child] else below) := by
  refine ⟨rfl, fun id => ?_⟩
  rw [get?_link apart]
  -- Only the child has another parent, and only the parent another list.
  by_cases low : id = child
  · have level : id ≠ parent := low ▸ apart.symm
    rw [if_pos low, Option.map_map]
    simp only [if_pos low, if_neg level]
    rfl
  · simp only [if_neg low]
    split
    · rw [Option.map_map]
      rfl
    · rfl

end Relinks

namespace Forest

variable {tree : Tree}

/-- A tree without nodes is well formed. -/
theorem empty : Forest Tree.empty where
  child found := by simp at found
  once found := by simp at found
  listed found := by simp at found
  bounded found := by simp at found
  rooted found := by simp [Tree.empty] at found

/-- Whether a tree is well formed depends on its links only. -/
theorem congr {other : Tree} (forest : Forest tree) (same : SameLinks tree other) :
    Forest other where
  child found below member := by
    -- The node and its child are looked up in the first tree, where the links agree.
    obtain ⟨node, live, type, _, children⟩ := same.symm.get? found
    obtain ⟨given, lower, parent, accepted⟩ := forest.child live below (children ▸ member)
    obtain ⟨given', lower', type', parent', _⟩ := same.get? lower
    exact ⟨given', lower', parent'.trans parent, by rwa [type', ← type]⟩
  once found := by
    obtain ⟨node, live, _, _, children⟩ := same.symm.get? found
    exact children ▸ forest.once live
  listed found named := by
    obtain ⟨node, live, _, parent, _⟩ := same.symm.get? found
    obtain ⟨above, upper, member⟩ := forest.listed live (parent.trans named)
    obtain ⟨above', upper', _, _, children'⟩ := same.get? upper
    exact ⟨above', upper', children' ▸ member⟩
  bounded found limited := by
    obtain ⟨node, live, type, _, children⟩ := same.symm.get? found
    exact children ▸ forest.bounded live (type ▸ limited)
  rooted named := by
    obtain ⟨node, live, type, parent⟩ := forest.rooted (same.root.trans named)
    obtain ⟨node', live', type', parent', _⟩ := same.get? live
    exact ⟨node', live', type'.trans type, parent'.trans parent⟩

/-- A node that is linked nowhere can be added. -/
theorem alloc (forest : Forest tree) (kind : NodeKind) (span : Span) :
    Forest (tree.alloc kind span) where
  child {id node} found below member := by
    -- The new node has no children and no parent, and all others are as they were.
    rw [get?_alloc] at found
    split at found
    · cases found
      simp at member
    · obtain ⟨given, lower, rest⟩ := forest.child found below member
      exact ⟨given, get?_alloc_of_get? kind span lower, rest⟩
  -- Every other condition is kept for the same reason.
  once {id node} found := by
    rw [get?_alloc] at found
    split at found
    · cases found
      exact List.nodup_nil
    · exact forest.once found
  listed {id node parent} found named := by
    rw [get?_alloc] at found
    split at found
    · cases found
      simp at named
    · obtain ⟨above, upper, member⟩ := forest.listed found named
      exact ⟨above, get?_alloc_of_get? kind span upper, member⟩
  bounded {id node max} found limited := by
    rw [get?_alloc] at found
    split at found
    · cases found
      exact Nat.zero_le max
    · exact forest.bounded found limited
  rooted named := by
    obtain ⟨node, live, rest⟩ := forest.rooted named
    exact ⟨node, get?_alloc_of_get? kind span live, rest⟩

/-- No node accepts itself as a child. -/
theorem ne_of_accepted {parent child : NodeId} {above given : Node}
    (upper : tree.get? parent = some above) (lower : tree.get? child = some given)
    (accepted : given.type ∈ above.type.whitelist) : parent ≠ child := by
  -- A node is of a higher rank than what hangs below it.
  rintro rfl
  rw [upper] at lower
  cases lower
  exact Nat.lt_irrefl _ (NodeType.rank_lt accepted)

/-- A detached node is in no child list. -/
theorem not_mem_of_detached (forest : Forest tree) {id other : NodeId} {node : Node}
    (alone : ∀ given, tree.get? id = some given → given.parent? = none)
    (found : tree.get? other = some node) : id ∉ node.children := by
  -- A node in a list names the list's node as its parent.
  intro member
  obtain ⟨given, live, named, -⟩ := forest.child found id member
  rw [alone given live] at named
  cases named

/-- A file is accepted nowhere, so a node that some parent accepts is not the root. -/
theorem root_ne_of_accepted (forest : Forest tree) {id child : NodeId} {above given : Node}
    (named : tree.root? = some id) (lower : tree.get? child = some given)
    (accepted : given.type ∈ above.type.whitelist) : id ≠ child := by
  rintro rfl
  obtain ⟨old, live, file, -⟩ := forest.rooted named
  rw [lower] at live
  cases live
  -- The rank of types grows from child to parent, and a file has the greatest.
  have below := NodeType.rank_lt accepted
  rw [file] at below
  exact Nat.lt_irrefl _ (Nat.lt_of_lt_of_le below above.type.rank_le_file)

end Forest

/-- A step that hangs a detached node below one that accepts it. The node above gets other children,
and of these only the detached node is new. -/
structure Adopts (tree after : Tree) (parent child : NodeId) (above given : Node)
    (down : List NodeId → List NodeId) : Prop where
  /-- The node above is live. -/
  upper : tree.get? parent = some above
  /-- The child is live. -/
  lower : tree.get? child = some given
  /-- The child is below nothing yet. -/
  detached : given.parent? = none
  /-- The node above accepts the child. -/
  accepted : given.type ∈ above.type.whitelist
  /-- Only the child has another parent, and only the node above has other children. -/
  relinks : Relinks tree after (fun id above? => if id = child then some parent else above?)
    (fun id below => if id = parent then down below else below)
  /-- The child is among the new children. -/
  gains : child ∈ down above.children
  /-- No other child is new. -/
  known : ∀ id ∈ down above.children, id ∈ above.children ∨ id = child
  /-- No child is listed twice. -/
  once : (down above.children).Nodup
  /-- There are no more children than the type of the node above allows. -/
  room : ∀ max, above.type.maxChildren? = some max → (down above.children).length ≤ max

namespace Adopts

variable {tree after : Tree} {parent low id : NodeId} {above given node : Node}
  {down : List NodeId → List NodeId}

/-- A node behind the step is the one above with its new children, or it has the children that it
had. -/
theorem before (adopts : Adopts tree after parent low above given down)
    (found : after.get? id = some node) :
    ∃ old, tree.get? id = some old ∧ node.type = old.type ∧
      node.parent? = (if id = low then some parent else old.parent?) ∧
      ((id = parent ∧ old = above ∧ node.children = down above.children) ∨
        (id ≠ parent ∧ node.children = old.children)) := by
  obtain ⟨old, live, type, link, children⟩ := adopts.relinks.before found
  refine ⟨old, live, type, link, ?_⟩
  -- The new parent is the only one whose children change.
  by_cases here : id = parent
  · subst here
    rw [adopts.upper] at live
    cases live
    exact .inl ⟨rfl, rfl, children.trans (if_pos rfl)⟩
  · exact .inr ⟨here, children.trans (if_neg here)⟩

/-- A child behind the step knows its parent, which accepts it. -/
theorem child (forest : Forest tree) (adopts : Adopts tree after parent low above given down)
    (found : after.get? id = some node) : ∀ below ∈ node.children,
      ∃ lower, after.get? below = some lower ∧ lower.parent? = some id ∧
        lower.type ∈ node.type.whitelist := by
  intro below member
  obtain ⟨old, live, type, -, children⟩ := adopts.before found
  have known : below ∈ old.children ∨ (id = parent ∧ old = above ∧ below = low) := by
    rcases children with ⟨here, rfl, changed⟩ | ⟨-, kept⟩
    · exact (adopts.known below (changed ▸ member)).imp_right fun new => ⟨here, rfl, new⟩
    · exact .inl (kept ▸ member)
  rcases known with known | ⟨rfl, rfl, rfl⟩
  · obtain ⟨lower, live', named, fits⟩ := forest.child live below known
    obtain ⟨later, now, type', link, -⟩ := adopts.relinks.after live'
    -- The detached node was no child of any node.
    have apart : below ≠ low := by
      rintro rfl
      rw [adopts.lower] at live'
      cases live'
      cases adopts.detached.symm.trans named
    exact ⟨later, now, by rw [link, if_neg apart, named], by rwa [type', type]⟩
  · obtain ⟨later, now, type', link, -⟩ := adopts.relinks.after adopts.lower
    exact ⟨later, now, by rw [link, if_pos rfl], by rw [type', type]; exact adopts.accepted⟩

/-- No child is listed twice behind the step. -/
theorem nodup (forest : Forest tree) (adopts : Adopts tree after parent low above given down)
    (found : after.get? id = some node) : node.children.Nodup := by
  -- The list is the one that changed, which stays without repetitions, or it is as it was.
  obtain ⟨old, live, -, -, ⟨-, -, changed⟩ | ⟨-, kept⟩⟩ := adopts.before found
  · exact changed ▸ adopts.once
  · exact kept ▸ forest.once live

/-- A node that has a parent behind the step is in the parent's list, unless it was left out of the
list of the node above. -/
theorem listed (forest : Forest tree) (adopts : Adopts tree after parent low above given down)
    (found : after.get? id = some node) {other : NodeId} (named : node.parent? = some other) :
    (id ∈ above.children ∧ id ∉ down above.children) ∨
      ∃ upper, after.get? other = some upper ∧ id ∈ upper.children := by
  -- The parent that is named is the one adopting, or it is the one it was.
  obtain ⟨old, live, -, link, -⟩ := adopts.before found
  rw [link] at named
  split at named
  · next same =>
    cases named
    obtain ⟨upper, now, -, -, children⟩ := adopts.relinks.after adopts.upper
    exact .inr ⟨upper, now, by rw [children, if_pos rfl, same]; exact adopts.gains⟩
  · obtain ⟨upper, high, inside⟩ := forest.listed live named
    obtain ⟨later, now, -, -, children⟩ := adopts.relinks.after high
    by_cases here : other = parent
    · -- Only the node above may have left it out.
      subst here
      rw [adopts.upper] at high
      cases high
      by_cases kept : id ∈ down above.children
      · exact .inr ⟨later, now, by rwa [children, if_pos rfl]⟩
      · exact .inl ⟨inside, kept⟩
    · exact .inr ⟨later, now, by rwa [children, if_neg here]⟩

/-- No node has more children behind the step than its type allows. -/
theorem bounded (forest : Forest tree) (adopts : Adopts tree after parent low above given down)
    (found : after.get? id = some node) {max : Nat} (limited : node.type.maxChildren? = some max) :
    node.children.length ≤ max := by
  -- The list is the one that changed, for which there was room, or it is as it was.
  obtain ⟨old, live, type, -, ⟨-, rfl, changed⟩ | ⟨-, kept⟩⟩ := adopts.before found
  · exact changed ▸ adopts.room max (type ▸ limited)
  · exact kept ▸ forest.bounded live (type ▸ limited)

/-- The root is a detached file behind the step. -/
theorem rooted (forest : Forest tree) (adopts : Adopts tree after parent low above given down)
    (named : after.root? = some id) :
    ∃ node, after.get? id = some node ∧ node.type = .file ∧ node.parent? = none := by
  have named := adopts.relinks.root.symm.trans named
  obtain ⟨old, live, file, alone⟩ := forest.rooted named
  obtain ⟨later, now, type, link, -⟩ := adopts.relinks.after live
  -- A file is accepted nowhere, so the root is not the child.
  have apart := forest.root_ne_of_accepted named adopts.lower adopts.accepted
  exact ⟨later, now, type.trans file, by rw [link, if_neg apart, alone]⟩

end Adopts

namespace Forest

variable {tree : Tree}

/-- Linking a detached node below one that accepts it and has room keeps a tree well formed. -/
theorem link (forest : Forest tree) {parent child : NodeId} {above given : Node}
    (upper : tree.get? parent = some above) (lower : tree.get? child = some given)
    (detached : given.parent? = none) (accepted : given.type ∈ above.type.whitelist)
    (room : ∀ max, above.type.maxChildren? = some max → above.children.length < max) :
    Forest (tree.link parent child) := by
  have adopts : Adopts tree (tree.link parent child) parent child above given (· ++ [child]) := {
    upper, lower, detached, accepted
    relinks := Relinks.link tree (ne_of_accepted upper lower accepted)
    gains := by simp
    known := by simp
    once := by
      -- The child was below nothing, so it is in the list once.
      refine List.nodup_append.mpr ⟨forest.once upper, by simp, ?_⟩
      rintro x member y final rfl
      refine forest.not_mem_of_detached (fun node live => ?_) upper
        (List.mem_singleton.mp final ▸ member)
      rw [lower] at live
      cases live
      exact detached
    room := fun max limited => by
      rw [List.length_append]
      exact room max limited }
  exact {
    child := adopts.child forest
    once := adopts.nodup forest
    listed := fun found named =>
      -- No child was left out.
      (adopts.listed forest found named).resolve_left fun left =>
        left.2 (List.mem_append_left _ left.1)
    bounded := fun found limited => adopts.bounded forest found limited
    rooted := adopts.rooted forest }

/-- A detached file can be made the root of a tree that has none. -/
theorem root {id : NodeId} {node : Node} (forest : Forest tree) (found : tree.get? id = some node)
    (file : node.type = .file) (alone : node.parent? = none) :
    Forest { tree with root? := some id } where
  child := forest.child
  once := forest.once
  listed := forest.listed
  bounded := forest.bounded
  rooted named := by
    cases named
    exact ⟨node, found, file, alone⟩

end Forest

end Tree

end ArgSchema
