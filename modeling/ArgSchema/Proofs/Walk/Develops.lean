import ArgSchema.Proofs.Tree.Develops
import ArgSchema.Proofs.Walk.Runs

/-! Walks that develop trees: whatever a visitor does by operations, a traversal does no more. -/

namespace ArgSchema

namespace Walk

variable {state α β : Type}

/-- What a walk leaves of a tree and a state, whether it succeeds or fails. -/
def after (walk : Walk state α) (before : Tree × state) : Tree × state :=
  (walk.run.run before).2

/-- A walk leaves a tree that comes from the one it was started on. -/
def Develops (walk : Walk state α) (before : Tree × state) : Prop :=
  before.1.Develops (walk.after before).1

namespace Develops

variable {before : Tree × state}

/-- An answer leaves the tree as it is. -/
theorem pure (answer : α) : Develops (pure answer : Walk state α) before := .refl _

/-- A failure leaves the tree as it is. -/
theorem throw (why : Interruption) : Develops (throw why : Walk state α) before := .refl _

/-- One walk after another develops the tree if both do. -/
theorem bind {walk : Walk state α} {rest : α → Walk state β} (first : Develops walk before)
    (second : ∀ answer, Develops (rest answer) (walk.after before)) :
    Develops (walk >>= rest) before := by
  unfold Develops after at *
  simp only [ExceptT.run_bind, StateT.run_bind]
  generalize walk.run.run before = outcome at *
  obtain ⟨answer, tree, own⟩ := outcome
  cases answer with
  -- A failure skips the rest, and the tree is what the first walk left.
  | error why => exact first
  | ok answer => exact first.trans (second answer)

/-- A walk with another for its failures develops the tree if both do. -/
theorem handle {walk : Walk state α} {handler : Interruption → Walk state α}
    (first : Develops walk before) (second : ∀ why, Develops (handler why) (walk.after before)) :
    Develops (tryCatch walk handler) before := by
  unfold Develops after at *
  -- Failures keep the state, so the handler starts where the walk left off.
  have ran : (tryCatch walk handler).run.run before =
      (walk.run.run before).1.casesOn (fun why => (handler why).run.run (walk.run.run before).2)
        fun answer => (.ok answer, (walk.run.run before).2) := by
    cases outcome : walk.run.run before with
    | mk answer left =>
      simp only [tryCatch, tryCatchThe, MonadExceptOf.tryCatch, ExceptT.tryCatch, ExceptT.run_mk,
        StateT.run_bind]
      have same : StateT.run walk before = (answer, left) := outcome
      rw [same]
      cases answer <;> rfl
  rw [ran]
  generalize walk.run.run before = outcome at *
  obtain ⟨answer | why, left⟩ := outcome
  · exact first.trans (second _)
  · exact first

/-- Looking at the tree leaves it as it is. -/
theorem tree {rest : Tree → Walk state α} (found : Develops (rest before.1) before) :
    Develops (Walk.tree >>= rest) before := found

/-- Looking at the state leaves the tree as it is. -/
theorem own {rest : state → Walk state α} (found : Develops (rest before.2) before) :
    Develops (Walk.own >>= rest) before := found

/-- Replacing the state leaves the tree as it is. -/
theorem setOwn {new : state} {rest : Unit → Walk state α}
    (going : Develops (rest ()) (before.1, new)) : Develops (Walk.setOwn new >>= rest) before := going

/-- Replacing the tree by one that comes from it develops it. -/
theorem setTree {new : Tree} {rest : Unit → Walk state α} (comes : before.1.Develops new)
    (going : Develops (rest ()) (new, before.2)) : Develops (Walk.setTree new >>= rest) before :=
  comes.trans going

/-- An outcome that goes on develops the tree if what goes on does. -/
theorem ofExcept {outcome : Except TreeError α} {rest : α → Walk state β}
    (going : ∀ found, outcome = .ok found → Develops (rest found) before) :
    Develops (Walk.ofExcept outcome >>= rest) before := by
  cases outcome with
  | error error => exact .refl _
  | ok found => exact going found rfl

/-- Looking at a node leaves the tree as it is. -/
theorem node {id : NodeId} {rest : Node → Walk state α}
    (found : ∀ node, before.1.get? id = some node → Develops (rest node) before) :
    Develops (Walk.node id >>= rest) before := by
  rw [Walk.node, bind_assoc]
  exact tree (ofExcept fun node live => found node (Tree.get?_of_node live))

/-- Looking for the place of a child leaves the tree as it is. -/
theorem place? {parent child : NodeId} {rest : Option Nat → Walk state α}
    (found : ∀ place, Develops (rest place) before) :
    Develops (Walk.place? parent child >>= rest) before := by
  rw [Walk.place?, bind_assoc]
  exact node fun above _ => found (above.children.idxOf? child)

/-- An operation that develops a tree whenever it is not refused develops the tree. -/
theorem change {operation : Tree → Except TreeError Tree}
    (develops : ∀ new, operation before.1 = .ok new → before.1.Develops new) :
    Develops (Walk.change operation) before := by
  unfold Walk.change
  exact tree (ofExcept fun new done => develops new done)

section Traversals

variable {types : NodeTypes} {visitor : Visitor state}
  (visits : ∀ id descend, (∀ below before, Develops (descend below) before) →
    ∀ before, Develops (visitor id descend) before)

include visits

/-- Meeting a node develops the tree if visits and what is done below it do. -/
theorem meet {descend : NodeId → Walk state Unit}
    (deeper : ∀ below before, Develops (descend below) before) (id : NodeId) :
    Develops (meet types visitor descend id) before := by
  -- At a node either the visitor is called or the walk goes deeper.
  unfold Walk.meet
  refine node fun found _ => ?_
  split
  · exact visits id descend deeper before
  · exact bind (deeper id before) fun _ => pure id

/-- Traversing children develops the tree if visits do, whatever they do to the list of children. -/
theorem traverseFrom (budget : Nat) (id : NodeId) (index : Nat) :
    Develops (traverseFrom types visitor budget id index) before := by
  induction budget generalizing id index before with
  | zero => exact throw _
  | succ budget ih =>
    rw [Walk.traverseFrom]
    refine node fun found _ => ?_
    cases found.children[index]? with
    | none => exact pure ()
    | some child =>
      refine bind (meet visits (fun below before => ih below 0) child) fun new => ?_
      refine place? fun place => ?_
      cases place with
      | none => exact ih id index
      | some place =>
        -- A replacement is put in place before the traversal goes on.
        have onward : ∀ before, Develops (do
            let next := ((← Walk.place? id new).map (· + 1)).getD place
            Walk.traverseFrom types visitor budget id next) before :=
          fun before => place? fun next => ih id _
        by_cases moved : new ≠ child
        · simp only [if_pos moved]
          exact bind (change fun tree done => Tree.Develops.replaceChild done) fun _ => onward _
        · simp only [if_neg moved]
          exact onward _

/-- Traversing a node and what is below it develops the tree if visits do. -/
theorem traverse (budget : Nat) (id : NodeId) :
    Develops (traverse budget types visitor id) before :=
  meet visits (fun below _ => traverseFrom visits budget below 0) id

/-- Traversing a tree from its root develops it if visits do. -/
theorem walkRoot (budget : Nat) : Develops (walkRoot budget types visitor) before := by
  unfold Walk.walkRoot
  refine tree ?_
  cases before.1.root? with
  | none => exact pure ()
  | some root =>
    refine bind (traverse visits budget root) fun new => ?_
    -- If another node came in place of the root, it becomes the root.
    split
    · exact change fun tree done => Tree.Develops.setRoot done
    · exact pure ()

end Traversals

end Develops

end Walk

/-- A walk of a tree develops it if visits do. -/
theorem Tree.walk_develops {state : Type} (types : NodeTypes) {visitor : Visitor state}
    (visits : ∀ id descend, (∀ below before, Walk.Develops (descend below) before) →
      ∀ before, Walk.Develops (visitor id descend) before) (tree : Tree) (own : state) :
    tree.Develops (tree.walk types visitor own).2.1 := by
  have left : tree.Develops ((Walk.walkRoot tree.budget types visitor).runOn tree own).2.1 :=
    @Walk.Develops.walkRoot state (tree, own) types visitor visits tree.budget
  unfold Tree.walk
  -- The tree is the one that the walk leaves, however the walk ends.
  split <;>
  · next same =>
    rw [same] at left
    exact left

end ArgSchema
