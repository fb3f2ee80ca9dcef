import ArgSchema.Proofs.Tree.Lookup
import ArgSchema.Tree.Traversal

/-! Runs of walks: what a walk that succeeds answers, and the tree and state that it leaves. -/

namespace ArgSchema

namespace Walk

variable {state α β : Type}

/-- A walk succeeds on a tree and a state, with an answer, and leaves others. -/
def Runs (walk : Walk state α) (before : Tree × state) (answer : α) (after : Tree × state) : Prop :=
  walk.run.run before = (.ok answer, after)

variable {before middle after : Tree × state}

/-- One walk after another. -/
theorem Runs.bind {walk : Walk state α} {rest : α → Walk state β} {first : α} {second : β}
    (begins : Runs walk before first middle) (ends : Runs (rest first) middle second after) :
    Runs (walk >>= rest) before second after := by
  unfold Runs at *
  simp only [ExceptT.run_bind, StateT.run_bind, begins, pure]
  exact ends

/-- An answer changes nothing. -/
theorem runs_pure (answer : α) (before : Tree × state) :
    Runs (pure answer : Walk state α) before answer before := rfl

/-- The tree as it is. -/
theorem runs_tree (before : Tree × state) : Runs tree before before.1 before := rfl

/-- Replacing the tree keeps the state. -/
theorem runs_setTree (new : Tree) (before : Tree × state) :
    Runs (setTree new) before () (new, before.2) := rfl

/-- The state as it is. -/
theorem runs_own (before : Tree × state) : Runs own before before.2 before := rfl

/-- Replacing the state keeps the tree. -/
theorem runs_setOwn (new : state) (before : Tree × state) :
    Runs (setOwn new) before () (before.1, new) := rfl

/-- A live node is found. -/
theorem runs_node {id : NodeId} {found : Node} (live : before.1.get? id = some found) :
    Runs (node id) before found before := by
  -- A lookup reads the tree and changes nothing.
  refine (runs_tree before).bind ?_
  simp only [Tree.node, live, ofExcept]
  exact runs_pure found before

/-- The place of a child of a live node is found. -/
theorem runs_place? {parent child : NodeId} {above : Node}
    (live : before.1.get? parent = some above) :
    Runs (place? parent child) before (above.children.idxOf? child) before :=
  (runs_node live).bind (runs_pure _ before)

/-- In a list without repetitions, an element stands behind those in front of it. -/
theorem idxOf?_append_cons {front back : List NodeId} {id : NodeId}
    (once : (front ++ id :: back).Nodup) : (front ++ id :: back).idxOf? id = some front.length := by
  refine List.idxOf?_eq_some_iff.mpr ⟨by simp, by simp, fun j earlier => ?_⟩
  rw [List.getElem_append_left earlier]
  -- The element is not among those in front of it.
  intro same
  have disjoint := (List.nodup_append.mp once).2.2
  exact disjoint _ (List.getElem_mem earlier) id (by simp) same

/-- An operation that is not refused changes the tree and keeps the state. -/
theorem runs_change {operation : Tree → Except TreeError Tree} {new : Tree}
    (done : operation before.1 = .ok new) : Runs (change operation) before () (new, before.2) := by
  -- The tree is read, changed and put back.
  refine (runs_tree before).bind ?_
  simp only [done, ofExcept]
  exact (runs_pure new before).bind (runs_setTree new before)

/-- A walk ends on a tree and a state with an answer or a failure, and leaves others. -/
def Ends (walk : Walk state α) (before : Tree × state) (outcome : Except Interruption α)
    (after : Tree × state) : Prop :=
  walk.run.run before = (outcome, after)

/-- A walk that succeeds ends as what comes after it. -/
theorem Runs.ends {walk : Walk state α} {rest : α → Walk state β} {first : α}
    {outcome : Except Interruption β} (begins : Runs walk before first middle)
    (ends : Ends (rest first) middle outcome after) : Ends (walk >>= rest) before outcome after := by
  -- Both are equations of the same monad, and bind composes them.
  unfold Runs at begins
  unfold Ends at *
  simp only [ExceptT.run_bind, StateT.run_bind, begins, pure]
  exact ends

/-- A walk that fails ends there, whatever comes after it. -/
theorem Ends.stop {walk : Walk state α} {rest : α → Walk state β} {why : Interruption}
    (fails : Ends walk before (.error why) after) : Ends (walk >>= rest) before (.error why) after := by
  unfold Ends at *
  simp only [ExceptT.run_bind, StateT.run_bind, fails]
  rfl

/-- An operation that is refused changes nothing. -/
theorem ends_change {operation : Tree → Except TreeError Tree} {error : TreeError}
    (failed : operation before.1 = .error error) :
    Ends (change operation) before (.error (.refused error)) before := by
  -- The tree is read, and the walk ends before it is put back.
  refine (runs_tree before).ends ?_
  simp only [failed, ofExcept]
  exact Ends.stop rfl

end Walk

end ArgSchema
