import ArgSchema.Proofs.Resolution.Develops
import Mathlib.Logic.Relation

/-! Operations: whatever walks and visitors do by operations, the tree stays a well-typed forest, and so it
does when tables are edited in between. -/

namespace ArgSchema

namespace Tree

/-- A well-typed forest: besides links that agree, there is one list for each child and no cycle. -/
structure WellFormed (tree : Tree) : Prop extends Forest tree where
  /-- A child is in one list only. -/
  single : ∀ {a b above other child}, tree.get? a = some above → tree.get? b = some other →
    child ∈ above.children → child ∈ other.children → a = b
  /-- Following children never leads back. -/
  acyclic : ∀ id, ¬Relation.TransGen (fun parent child => child ∈ tree.children parent) id id

/-- How far a live node can be above the leaves. -/
def rank (tree : Tree) (id : NodeId) : Nat := ((tree.get? id).map (·.type.rank)).getD 0

namespace Forest

variable {tree : Tree}

/-- A child is nearer to the leaves than its parent. -/
theorem rank_lt (forest : Forest tree) {id child : NodeId} (member : child ∈ tree.children id) :
    tree.rank child < tree.rank id := by
  -- A parent takes only children of a lower rank.
  obtain ⟨node, found, inside⟩ := get?_of_mem_children member
  obtain ⟨given, live, -, accepted⟩ := forest.child found child inside
  simpa [rank, found, live] using NodeType.rank_lt accepted

/-- Links that agree between types in layers make a well-typed forest. -/
theorem wellFormed (forest : Forest tree) : WellFormed tree where
  toForest := forest
  single found found' member member' := by
    obtain ⟨given, live, named, -⟩ := forest.child found _ member
    exact (forest.eq_of_mem live named found' member').symm
  acyclic id cycle := by
    -- Each step leads nearer to the leaves.
    have falls : ∀ below, Relation.TransGen (fun parent child => child ∈ tree.children parent)
        id below → tree.rank below < tree.rank id := by
      intro below path
      induction path with
      | single member => exact forest.rank_lt member
      | tail _ member ih => exact Nat.lt_trans (forest.rank_lt member) ih
    exact Nat.lt_irrefl _ (falls id cycle)

end Forest

end Tree

namespace Walk

variable {state α : Type}

/-- Makes a node, whose handle is the answer. -/
def alloc (kind : NodeKind) (span : Span) : Walk state NodeId := do
  let tree ← tree
  setTree (tree.alloc kind span)
  return tree.nextId

/-- Passes over the whole tree; the answer is what the pass reports and how it ends. -/
def pass (run : Tree → Reading Tree Unit) :
    Walk state (List Diagnostic × Except Failure Unit) := do
  let reading := run (← tree)
  setTree reading.next
  return (reading.reports, reading.result)

/-- Walks that touch the tree by its operations only, besides what they are given to go on with. -/
inductive Operates : (Walk state Unit → Prop) → {α : Type} → Walk state α → Prop
  /-- An answer. -/
  | pure {given α} (answer : α) : Operates given (pure answer)
  /-- A failure. -/
  | throw {given α} (why : Interruption) : Operates (α := α) given (throw why)
  /-- One walk after another. -/
  | bind {given α β} {walk : Walk state α} {rest : α → Walk state β} : Operates given walk →
      (∀ answer, Operates given (rest answer)) → Operates given (walk >>= rest)
  /-- A walk with another for its failures. -/
  | handle {given α} {walk : Walk state α} {handler : Interruption → Walk state α} :
      Operates given walk → (∀ why, Operates given (handler why)) →
      Operates given (tryCatch walk handler)
  /-- What the walk was given. -/
  | given {given : Walk state Unit → Prop} {walk : Walk state Unit} : given walk →
      Operates given walk
  /-- A look at the tree. -/
  | look {given} : Operates given tree
  /-- A look at the walk's own state. -/
  | own {given} : Operates given own
  /-- A change of the walk's own state. -/
  | setOwn {given} (new : state) : Operates given (setOwn new)
  /-- A new node. -/
  | alloc {given} (kind : NodeKind) (span : Span) : Operates given (alloc kind span)
  /-- A node that is hung below another. -/
  | addChild {given} (parent child : NodeId) : Operates given (change (·.addChild parent child))
  /-- A node in place of a child. -/
  | replaceChild {given} (parent : NodeId) (index : Nat) (new : NodeId) :
      Operates given (change (·.replaceChild parent index new))
  /-- Another root. -/
  | setRoot {given} (id : NodeId) : Operates given (change (·.setRoot id))
  /-- Traversing the children of a node, where visits operate and may go on to other children. -/
  | traverseChildren {given types visitor} (budget : Nat) (id : NodeId) :
      (∀ id descend, Operates (fun walk => given walk ∨ ∃ below, walk = descend below)
        (visitor id descend)) →
      Operates given (traverseChildren budget types visitor id)
  /-- Traversing a node and what is below it. -/
  | traverse {given types visitor} (budget : Nat) (id : NodeId) :
      (∀ id descend, Operates (fun walk => given walk ∨ ∃ below, walk = descend below)
        (visitor id descend)) →
      Operates given (traverse budget types visitor id)
  /-- Traversing the tree from its root. -/
  | walkRoot {given types visitor} (budget : Nat) :
      (∀ id descend, Operates (fun walk => given walk ∨ ∃ below, walk = descend below)
        (visitor id descend)) →
      Operates given (walkRoot budget types visitor)
  /-- Filling the tables. -/
  | buildSymbolTable {given} : Operates given (pass Tree.buildSymbolTable)
  /-- Resolving references. -/
  | checkReferences {given} : Operates given (pass Tree.checkReferences)

/-- A visitor's walks develop trees if the walks below do, and so do those that the visitor's own
surroundings were given. -/
theorem develops_visits {given : Walk state Unit → Prop} {visitor : Visitor state}
    (known : ∀ walk, given walk → ∀ before, Develops walk before)
    (visits : ∀ id descend, (∀ walk, (given walk ∨ ∃ below, walk = descend below) →
      ∀ before, Develops walk before) → ∀ before, Develops (visitor id descend) before)
    (id : NodeId) (descend : NodeId → Walk state Unit)
    (deeper : ∀ below before, Develops (descend below) before) (before : Tree × state) :
    Develops (visitor id descend) before := by
  -- A visitor calls what it was given, and the walk below the node it stands at.
  refine visits id descend (fun walk member => ?_) before
  rcases member with member | ⟨below, rfl⟩
  · exact known walk member
  · exact deeper below

/-- Walks that operate develop trees if what they are given does. -/
theorem Operates.develops {given : Walk state Unit → Prop} {walk : Walk state α}
    (operates : Operates given walk) (known : ∀ walk, given walk → ∀ before, Develops walk before)
    (before : Tree × state) : Develops walk before := by
  induction operates generalizing before with
  | pure answer => exact .pure answer
  | throw why => exact .throw why
  | bind _ _ ih ih' => exact .bind (ih known before) fun answer => ih' answer known _
  | handle _ _ ih ih' => exact .handle (ih known before) fun why => ih' why known _
  | given member => exact known _ member before
  | look | own | setOwn => exact .refl _
  | alloc kind span => exact .tree (.setTree (.alloc before.1 kind span) (.pure _))
  | addChild parent child => exact .change fun new done => .addChild done
  | replaceChild parent index new => exact .change fun new done => .replaceChild done
  | setRoot id => exact .change fun new done => .setRoot done
  -- A traversal develops the tree if each of its visits does.
  | traverseChildren budget id _ ih =>
    exact .traverseFrom (develops_visits known fun id descend => ih id descend) budget id 0
  | traverse budget id _ ih =>
    exact .traverse (develops_visits known fun id descend => ih id descend) budget id
  | walkRoot budget _ ih =>
    exact .walkRoot (develops_visits known fun id descend => ih id descend) budget
  | buildSymbolTable =>
    exact .tree (.setTree before.1.buildSymbolTable_develops (.pure _))
  | checkReferences =>
    exact .tree (.setTree before.1.checkReferences_develops (.pure _))

/-- From the empty tree operations lead to well-typed forests only, and a handle that is released never
names a node again. A walk may fail at any point and leaves the tree as it is there, so this holds in
the middle of a traversal too. -/
theorem Operates.leads_to_wellFormed {walk : Walk state α} (operates : Operates (fun _ => False) walk)
    (own : state) :
    let reached := walk.after (Tree.empty, own)
    reached.1.WellFormed ∧ ∀ {β γ} (later : Walk state β) (last : Walk state γ),
      Operates (fun _ => False) later → Operates (fun _ => False) last → ∀ id,
        reached.1.contains id = true → (later.after reached).1.contains id = false →
          (last.after (later.after reached)).1.contains id = false := by
  intro reached
  have develops : Tree.empty.Develops reached.1 := operates.develops nofun (Tree.empty, own)
  refine ⟨(develops.forest .empty).wellFormed, ?_⟩
  intro β γ later last operates' operates'' id made released
  have onward := operates'.develops nofun reached
  have further := operates''.develops nofun (later.after reached)
  -- The handle was given out before its release, so it is never given out again.
  obtain ⟨node, live⟩ := Option.isSome_iff_exists.mp made
  have inside := Nat.lt_of_lt_of_le (Tree.index_lt_of_get? live) onward.size
  have gone : (later.after reached).1.get? id = none := by simpa [Tree.contains] using released
  simp [Tree.contains, further.gone id inside gone]

/-- Putting a new node in place of a child leaves a well-typed forest, and the child is gone for good. -/
theorem replacing_wellFormed :
    let fill : Walk Unit Unit := do
      let file ← alloc .file default
      let child ← alloc .configs default
      let parent ← alloc (.metadata .empty) default
      change (·.addChild file parent)
      change (·.addChild parent child)
    let renew : Walk Unit Unit := do
      let new ← alloc .configs default
      change (·.replaceChild ⟨2⟩ 0 new)
    let more : Walk Unit NodeId :=
      traverse 9 (.only .configs) (fun _ _ => alloc .configs default) ⟨2⟩
    let reached := fill.after (Tree.empty, ())
    reached.1.WellFormed ∧ reached.1.contains ⟨1⟩ = true ∧
      (renew.after reached).1.contains ⟨1⟩ = false ∧
      (more.after (renew.after reached)).1.contains ⟨1⟩ = false := by
  intro fill renew more reached
  have operates : Operates (fun _ => False) fill :=
    .bind (.alloc _ _) fun file => .bind (.alloc _ _) fun child => .bind (.alloc _ _) fun parent =>
      .bind (.addChild file parent) fun _ => .addChild parent child
  have renews : Operates (fun _ => False) renew := .bind (.alloc _ _) fun new => .replaceChild ⟨2⟩ 0 new
  have visits : Operates (fun _ => False) more := .traverse 9 ⟨2⟩ fun _ _ => .alloc _ _
  obtain ⟨wellFormed, released⟩ := Operates.leads_to_wellFormed operates ()
  -- The child is live before it is replaced, and released by that.
  have made : reached.1.contains ⟨1⟩ = true := by decide +kernel
  have gone : (renew.after reached).1.contains ⟨1⟩ = false := Tree.contains_release _ ⟨1⟩
  exact ⟨wellFormed, made, gone, released renew more renews visits ⟨1⟩ made gone⟩

/-- Edits of the tables of a tree, whatever they make of the names in them. -/
inductive Edits : Walk state Unit → Prop
  /-- Of the table of top-level names. -/
  | names (edit : SymbolTable → SymbolTable) : Edits (do
      let tree ← tree
      setTree { tree with table := edit tree.table })
  /-- Of the table of a definition. -/
  | properties (id : NodeId) (edit : SymbolTable → SymbolTable) : Edits (do
      let tree ← tree
      setTree (tree.setTable id (edit ((tree.table? id).getD .empty))))

/-- An edit of a table develops the tree. -/
theorem Edits.develops {walk : Walk state Unit} (edits : Edits walk) (before : Tree × state) :
    Develops walk before := by
  -- The two kinds of edits change one table each, and a table is no node.
  cases edits with
  | names edit => exact .tree (.table before.1 (edit before.1.table))
  | properties id edit => exact .tree (.setTable before.1 id _)

end Walk

namespace Tree

/-- A tree that some sequence of operations, passes and edits of tables leads to, also in the middle of
a traversal. -/
def Reachable (tree : Tree) : Prop :=
  ∃ (state α : Type) (walk : Walk state α) (own : state),
    Walk.Operates Walk.Edits walk ∧ (walk.after (empty, own)).1 = tree

/-- Every reachable tree is a well-typed forest. -/
theorem Reachable.forest {tree : Tree} (reachable : tree.Reachable) : tree.Forest := by
  obtain ⟨state, α, walk, own, operates, rfl⟩ := reachable
  -- Every step develops the tree before it, and the first tree is empty.
  have develops : empty.Develops (walk.after (empty, own)).1 :=
    operates.develops (fun _ edits => edits.develops) (empty, own)
  exact develops.forest .empty

end Tree

end ArgSchema
