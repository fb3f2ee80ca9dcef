import ArgSchema.Proofs.Walk.Outermost
import ArgSchema.Proofs.Walk.Operations
import ArgSchema.Proofs.Walk.Visited

/-! Orderly traversals: they end, visit no node twice, and fail only where an answer cannot stand. -/

namespace ArgSchema

namespace Walk

variable {state : Type} {types : NodeTypes} {reply : Call state → Reply state}
  {before after : Tree × state} {calls : List (Call state)} {outcome : Except TreeError Unit}

/-- What is promised of a traversal of nodes that are given in document order. -/
structure Orderly (types : NodeTypes) (reply : Call state → Reply state) (order : List NodeId)
    (before : Tree × state) (calls : List (Call state)) (outcome : Except TreeError Unit)
    (after : Tree × state) : Prop where
  /-- Only nodes among those given are visited. -/
  inside : ∀ call ∈ calls, call.id ∈ order
  /-- No node is visited twice. -/
  once : (calls.map Call.id).Nodup
  /-- Each visit finds what the one before it left, with its answer in place. -/
  threads : Threads reply before calls outcome after
  /-- The traversal fails only if the last answer cannot stand in the place of the visited node, which
  has no parent only if it is the root. -/
  refused : ∀ error, outcome = .error error → ∃ call, calls.getLast? = some call ∧
    (call.left reply).1.Refused call.id (reply call).answer error ∧
    ((call.left reply).1.parent? call.id = none → before.1.root? = some call.id)
  /-- If each answer is the visited node or a new one that fits, the traversal succeeds and visits the
  outermost nodes of the types. -/
  visits : (∀ call ∈ calls, call.Modest reply) →
    outcome = .ok () ∧ before.1.Outermost types order (calls.map Call.id)
  /-- If each answer is the visited node, nodes were made at most. -/
  unchanged : (∀ call ∈ calls, (reply call).answer = call.id) →
    after.1 = before.1.allocAll (calls.flatMap fun call => (reply call).made)

/-- With all budgets larger than the number of nodes a traversal ends alike when its visitor replies,
and if the visitor also notes its visits, these are noted. -/
def Traces {α : Type} (traversal : ∀ {state : Type}, Nat → Visitor state → Walk state α)
    (reply : Call state → Reply state) (before : Tree × state) (calls : List (Call state))
    (outcome : Except TreeError α) (after : Tree × state) : Prop :=
  ∀ budget, before.1.nodes.size < budget →
    Ends (traversal budget (replying reply)) before (outcome.mapError .refused) after ∧
      Ends (traversal budget (replying (noting reply))) (before.1, [], before.2)
        (outcome.mapError .refused) (after.1, calls, after.2)

/-- In a course every visited node has a parent. -/
theorem Course.attached {steps : Nat} {parent : NodeId} {ahead : List NodeId} {type : NodeType}
    (course : Course types reply steps parent ahead before calls outcome after)
    (awaits : before.1.Awaits type parent ahead) :
    ∀ call ∈ calls, (call.left reply).1.parent? call.id ≠ none := by
  induction course generalizing type with
  | done => simp
  | visit _ put placed _ ih =>
    intro call member
    -- The child that is visited is listed by its parent, and the others come later.
    rcases List.mem_cons.mp member with rfl | member
    · exact awaits.attached _
    · exact ih (awaits.onward (awaits.visit put placed) placed) call member
  | refuse =>
    intro call member
    rw [List.mem_singleton.mp member]
    exact awaits.attached _
  | pass _ course placed _ ih ih' =>
    obtain ⟨type', below, passed⟩ := awaits.pass
    have advances := (passed (course.spares rfl below)).2 placed
    intro call member
    rcases List.mem_append.mp member with member | member
    · exact ih below call member
    · exact ih' (awaits.onward advances placed) call member
  | fail _ _ ih =>
    obtain ⟨type', below, -⟩ := awaits.pass
    exact ih below

/-- What is orderly below a node that is not of the types is orderly from the node on. -/
theorem Orderly.top {tree : Tree} {own : state} {growth : Growth}
    (pass : tree.isOfType types growth.id = false)
    (orderly : Orderly types reply (Growth.idsAll growth.children) (tree, own) calls outcome after) :
    Orderly types reply growth.ids (tree, own) calls outcome after where
  inside call member := by
    -- A top that is passed adds a node that is not visited in front of those below it.
    rw [growth.ids_eq]
    exact List.mem_cons_of_mem _ (orderly.inside call member)
  once := orderly.once
  threads := orderly.threads
  refused := orderly.refused
  visits modest := by
    obtain ⟨fine, outermost⟩ := orderly.visits modest
    rw [growth.ids_eq]
    exact ⟨fine, outermost.cons pass⟩
  unchanged := orderly.unchanged

section Growth

variable {tree : Tree} (forest : tree.Forest) {growth : Growth} (grows : tree.Grows growth)

include forest grows

/-- A course through all children of a node is orderly. -/
theorem Course.orderly {steps : Nat} {own : state}
    (course : Course types reply steps growth.id (tree.children growth.id) (tree, own) calls outcome
      after) :
    Orderly types reply (Growth.idsAll growth.children) (tree, own) calls outcome after := by
  obtain ⟨above, upper, -⟩ := grows.get?
  have awaits : (tree, own).1.Awaits above.type growth.id (tree.children growth.id) := .all forest upper
  -- The laws of courses give every part but the order, for which the growth is consulted.
  obtain ⟨inside, once⟩ := course.once awaits
  refine ⟨fun call member => ?_, once, course.threads, fun error failed => ?_, fun modest => ?_,
    fun same => (course.threads.unchanged same).2⟩
  · -- Whatever is below a child of the top is in the growth of that child.
    obtain ⟨top, listed, reached⟩ := inside call member
    rw [grows.children_eq] at listed
    obtain ⟨below, given, rfl⟩ := List.mem_map.mp listed
    exact Growth.mem_idsAll.mpr ⟨below, given, (grows.below below given).mem_ids_iff.mpr reached⟩
  · -- The node whose answer is refused was visited, so it has a parent.
    obtain ⟨call, last, refused⟩ := course.threads.refused forest failed
    exact ⟨call, last, refused, fun alone =>
      absurd alone (course.attached awaits call (List.mem_of_getLast? last))⟩
  · -- With modest answers the visits are the tops, and the tops are outermost.
    have all := Tree.growsAll_iff.mpr grows.below
    obtain ⟨fine, visited, -⟩ :=
      course.visits awaits modest all grows.children_eq.symm fun id _ => rfl
    rw [visited]
    exact ⟨fine, Tree.GrowsAll.outermost forest growth.children all (grows.siblings forest)⟩

/-- A traversal of the children of a live node is orderly. -/
theorem traverseChildren_orderly (types : NodeTypes) (reply : Call state → Reply state) (own : state) :
    ∃ calls outcome after,
      Orderly types reply (Growth.idsAll growth.children) (tree, own) calls outcome after ∧
      Traces (fun budget visitor => traverseChildren budget types visitor growth.id) reply (tree, own)
        calls outcome after := by
  obtain ⟨above, upper, -⟩ := grows.get?
  have awaits : tree.Awaits above.type growth.id (tree.children growth.id) := .all forest upper
  -- What is below the children is in the growth, which has no more nodes than the tree.
  have pool : ∀ top ∈ tree.children growth.id, ∀ id, tree.Under top id → id ∈ growth.ids :=
    fun top listed id reached => grows.mem_ids_iff.mpr (reached.of_child listed)
  obtain ⟨calls, outcome, after, course⟩ :=
    @exists_course state types reply _ growth.ids _ _ _ (tree, own) awaits pool (grows.length_le forest)
  refine ⟨calls, outcome, after, course.orderly forest grows, fun budget enough => ⟨?_, ?_⟩⟩
  · exact course.ends awaits (List.nil_append _).symm enough
  · -- A visitor that notes its visits takes the same course.
    obtain ⟨noted, course⟩ := course.noting []
    exact course.ends awaits (List.nil_append _).symm enough

/-- A traversal of a live node that is not of the types is orderly, and answers with the node. -/
theorem traverse_orderly (reply : Call state → Reply state) (own : state)
    (pass : tree.isOfType types growth.id = false) :
    ∃ calls outcome after, Orderly types reply growth.ids (tree, own) calls outcome after ∧
      Traces (fun budget visitor => traverse budget types visitor growth.id) reply (tree, own) calls
        (outcome.map fun _ => growth.id) after := by
  obtain ⟨above, upper, -⟩ := grows.get?
  obtain ⟨calls, outcome, after, orderly, traces⟩ :=
    traverseChildren_orderly forest grows types reply own
  refine ⟨calls, outcome, after, orderly.top pass, fun budget enough => ?_⟩
  obtain ⟨plain, noted⟩ := traces budget enough
  -- Answering with the node does not change how the traversal of its children ended.
  have same : (outcome.map fun _ => growth.id).mapError Interruption.refused =
      (outcome.mapError Interruption.refused).map fun _ => growth.id := by
    cases outcome <;> rfl
  rw [same]
  exact ⟨meets_other reply _ upper pass plain, meets_other (noting reply) _ upper pass noted⟩

end Growth

/-- A traversal of a node of the types is one visit of it, whose answer is passed on. -/
theorem traverse_visit {tree : Tree} {id : NodeId} (reply : Call state → Reply state) (own : state)
    (stop : tree.isOfType types id = true) :
    Traces (fun budget visitor => traverse budget types visitor id) reply (tree, own)
      [⟨id, tree, own⟩] (.ok (reply ⟨id, tree, own⟩).answer) (Call.left reply ⟨id, tree, own⟩) :=
  fun _ _ => ⟨meets_replying reply _ stop, meets_replying (noting reply) _ stop⟩

/-- A traversal from the root ends when what it answers with was put in the place of the root. -/
theorem ends_walkRoot {visitor : Visitor state} {budget : Nat} {root new : NodeId}
    {middle : Tree × state} (rooted : before.1.root? = some root)
    (runs : Runs (traverse budget types visitor root) before new middle)
    (alone : new ≠ root → middle.1.parent? root = none) :
    (∀ tree, middle.1.put root new = .ok tree →
      Ends (walkRoot budget types visitor) before (.ok ()) (tree, middle.2)) ∧
    ∀ error, middle.1.put root new = .error error →
      Ends (walkRoot budget types visitor) before (.error (.refused error)) middle := by
  -- The root as its own answer is left, and any other node is made the root.
  by_cases moved : new = root
  · subst moved
    rw [Tree.put_self]
    refine ⟨fun tree done => ?_, fun error failed => by cases failed⟩
    cases done
    refine (runs_tree before).ends ?_
    simp only [rooted]
    refine runs.ends ?_
    simp only [ne_eq, not_true_eq_false, if_false]
    rfl
  -- The other node has to be a detached file, so both ways out are those of making it the root.
  · simp only [Tree.put, if_neg moved, alone moved]
    constructor
    · intro tree done
      refine (runs_tree before).ends ?_
      simp only [rooted]
      refine runs.ends ?_
      simp only [if_pos moved]
      exact runs_change done
    · intro error failed
      refine (runs_tree before).ends ?_
      simp only [rooted]
      refine runs.ends ?_
      simp only [if_pos moved]
      exact ends_change failed

/-- A visit of the root that is all that happens is orderly. -/
theorem orderly_visit {tree : Tree} (forest : tree.Forest) {growth : Growth}
    (grows : tree.Grows growth) (rooted : tree.root? = some growth.id) {own : state}
    (stop : tree.isOfType types growth.id = true)
    (threads : Threads reply (tree, own) [⟨growth.id, tree, own⟩] outcome after) :
    Orderly types reply growth.ids (tree, own) [⟨growth.id, tree, own⟩] outcome after where
  inside call member := by
    rw [List.mem_singleton.mp member]
    exact growth.id_mem_ids
  once := List.nodup_singleton _
  threads := threads
  refused error failed := by
    -- The only visit is that of the root.
    obtain ⟨call, last, refused⟩ := threads.refused forest failed
    refine ⟨call, last, refused, fun _ => ?_⟩
    rw [List.mem_singleton.mp (List.mem_of_getLast? last)]
    exact rooted
  visits modest := by
    constructor
    · -- An answer that fits is put in place, and nothing is visited below the root.
      obtain ⟨_, done⟩ := (modest _ List.mem_cons_self).exists_put forest
      cases threads with
      | put _ rest =>
        cases rest
        rfl
      | refuse failed => cases done.symm.trans failed
    · -- The root is of the types, so it is the only top.
      have outermost : tree.Outermost types growth.ids _ := Tree.Grows.outermost forest growth grows
      rwa [Growth.tops_of_stops stop] at outermost
  unchanged same := (threads.unchanged same).2

/-- A traversal from the root is orderly, and the answer to a visit of the root is made the root. -/
theorem walkRoot_orderly {tree : Tree} (forest : tree.Forest) {growth : Growth}
    (grows : tree.Grows growth) (rooted : tree.root? = some growth.id) (types : NodeTypes)
    (reply : Call state → Reply state) (own : state) :
    ∃ calls outcome after, Orderly types reply growth.ids (tree, own) calls outcome after ∧
      Traces (fun budget visitor => walkRoot budget types visitor) reply (tree, own) calls outcome
        after := by
  cases stop : tree.isOfType types growth.id with
  | true =>
    obtain ⟨node, found, -, detached⟩ := forest.rooted rooted
    -- The nodes that the visit makes give the root no parent.
    have alone : (Call.left reply ⟨growth.id, tree, own⟩).1.parent? growth.id = none := by
      have kept := tree.get?_allocAll (reply ⟨growth.id, tree, own⟩).made (Tree.index_lt_of_get? found)
      rw [Call.left, Tree.parent?, kept, found, Option.bind_some, detached]
    -- Noting the visit makes no difference to what is done to the tree.
    have plain := fun budget => @ends_walkRoot _ _ (tree, own) _ budget _ _ _ rooted
      (meets_replying reply (traverseChildren budget types (replying reply)) stop) fun _ => alone
    have noted := fun budget => @ends_walkRoot _ _ (tree, [], own) _ budget _ _ _ rooted
      (meets_replying (noting reply) (traverseChildren budget types (replying (noting reply))) stop)
      fun _ => alone
    -- Whether the answer can be the root decides how the traversal ends.
    cases put : Call.put reply ⟨growth.id, tree, own⟩ with
    | error error =>
      exact ⟨_, _, _, orderly_visit forest grows rooted stop (.refuse put),
        fun budget _ => ⟨(plain budget).2 error put, (noted budget).2 error put⟩⟩
    | ok tree' =>
      exact ⟨_, _, _, orderly_visit forest grows rooted stop (.put put .done),
        fun budget _ => ⟨(plain budget).1 tree' put, (noted budget).1 tree' put⟩⟩
  | false =>
    -- Here the root is not visited, and the traversal is that of what is below it.
    obtain ⟨calls, outcome, after, orderly, traces⟩ := traverse_orderly forest grows reply own stop
    refine ⟨calls, outcome, after, orderly, fun budget enough => ?_⟩
    obtain ⟨plain, noted⟩ := traces budget enough
    -- The traversal answers with the root, which stays where it is.
    have onward : ∀ {S : Type} {visitor : Visitor S} {before after : Tree × S},
        before.1.root? = some growth.id →
        Ends (traverse budget types visitor growth.id) before
          ((outcome.map fun _ => growth.id).mapError .refused) after →
        Ends (walkRoot budget types visitor) before (outcome.mapError .refused) after := by
      intro S visitor before after rooted ends
      cases outcome with
      | error error =>
        refine (runs_tree before).ends ?_
        simp only [rooted]
        exact ends.stop
      | ok _ =>
        exact (ends_walkRoot rooted ends fun moved => absurd rfl moved).1 _ (Tree.put_self _ _)
    exact ⟨onward rooted plain, onward rooted noted⟩

/-- A traversal of a tree without root does nothing. -/
theorem walkRoot_rootless {tree : Tree} (rootless : tree.root? = none) (types : NodeTypes)
    (reply : Call state → Reply state) (own : state) :
    Traces (fun budget visitor => walkRoot budget types visitor) reply (tree, own) [] (.ok ())
      (tree, own) :=
  fun budget _ => ⟨runs_walkRoot_rootless rootless budget types _ own,
    runs_walkRoot_rootless rootless budget types _ ([], own)⟩

/-- Traversals of a well-formed tree end, whatever nodes a visitor makes and answers with: that of the
children of a live node, that of the node itself, and that from the root. They are orderly, and a visit of
the very node that is traversed is all there is to that traversal. -/
theorem traversals_orderly {tree : Tree} (wellFormed : tree.WellFormed) (types : NodeTypes)
    (reply : Call state → Reply state) (own : state) :
    (∀ id, tree.contains id = true → ∃ growth, tree.Grows growth ∧ growth.id = id ∧
      (∃ calls outcome after,
        Orderly types reply (Growth.idsAll growth.children) (tree, own) calls outcome after ∧
        Traces (fun budget visitor => traverseChildren budget types visitor id) reply (tree, own)
          calls outcome after) ∧
      (tree.isOfType types id = true →
        Traces (fun budget visitor => traverse budget types visitor id) reply (tree, own)
          [⟨id, tree, own⟩] (.ok (reply ⟨id, tree, own⟩).answer) (Call.left reply ⟨id, tree, own⟩)) ∧
      (tree.isOfType types id = false → ∃ calls outcome after,
        Orderly types reply growth.ids (tree, own) calls outcome after ∧
        Traces (fun budget visitor => traverse budget types visitor id) reply (tree, own) calls
          (outcome.map fun _ => id) after)) ∧
    (∀ root, tree.root? = some root → ∃ growth, tree.Grows growth ∧ growth.id = root ∧
      ∃ calls outcome after, Orderly types reply growth.ids (tree, own) calls outcome after ∧
        Traces (fun budget visitor => walkRoot budget types visitor) reply (tree, own) calls outcome
          after) ∧
    (tree.root? = none →
      Traces (fun budget visitor => walkRoot budget types visitor) reply (tree, own) [] (.ok ())
        (tree, own)) := by
  -- Each traversal has its own theorem over the growth below its node.
  have forest := wellFormed.toForest
  refine ⟨fun id live => ?_, fun root rooted => ?_, fun rootless => ?_⟩
  · -- A live node has a growth, which lists what is below it in document order.
    obtain ⟨node, found⟩ := Option.isSome_iff_exists.mp live
    obtain ⟨growth, grows, rfl⟩ := Tree.exists_growth forest found
    exact ⟨growth, grows, rfl, traverseChildren_orderly forest grows types reply own,
      traverse_visit reply own, traverse_orderly forest grows reply own⟩
  · -- The root is live.
    obtain ⟨node, found, -⟩ := forest.root_file rooted
    obtain ⟨growth, grows, rfl⟩ := Tree.exists_growth forest found
    exact ⟨growth, grows, rfl, walkRoot_orderly forest grows rooted types reply own⟩
  · exact walkRoot_rootless rootless types reply own

/-- Three values are visited once each, though the second visit answers with the first value, which then
stands in the place of the second. -/
theorem visits_of_moved_sibling :
    ∃ tree : Tree, tree.WellFormed ∧ ∃ growth, tree.Grows growth ∧ growth.id = ⟨0⟩ ∧
      ∃ (calls : List (Call Unit)) (after : Tree × Unit),
        calls.map Call.id = [⟨1⟩, ⟨2⟩, ⟨3⟩] ∧ after.1.children ⟨0⟩ = [⟨1⟩, ⟨3⟩] ∧
        Orderly (.only .number) (fun call => ⟨[], if call.id = ⟨2⟩ then ⟨1⟩ else call.id, ()⟩)
          (Growth.idsAll growth.children) (tree, ()) calls (.ok ()) after := by
  -- The list is built by operations, so its tree is reachable and the law applies to it.
  let fill : Walk Unit Unit := do
    let values ← alloc .values default
    let first ← alloc (.number 1) default
    let second ← alloc (.number 2) default
    let third ← alloc (.number 3) default
    change (·.addChild values first)
    change (·.addChild values second)
    change (·.addChild values third)
  let tree : Tree := ⟨#[some ⟨.values, default, none, [⟨1⟩, ⟨2⟩, ⟨3⟩]⟩,
    some ⟨.number 1, default, some ⟨0⟩, []⟩, some ⟨.number 2, default, some ⟨0⟩, []⟩,
    some ⟨.number 3, default, some ⟨0⟩, []⟩], none, .empty⟩
  let reply : Call Unit → Reply Unit := fun call => ⟨[], if call.id = ⟨2⟩ then ⟨1⟩ else call.id, ()⟩
  have reachable : tree.Reachable := by
    refine ⟨Unit, Unit, fill, (), ?_, rfl⟩
    exact .bind (.alloc _ _) fun values => .bind (.alloc _ _) fun first =>
      .bind (.alloc _ _) fun second => .bind (.alloc _ _) fun third =>
      .bind (.addChild _ _) fun _ => .bind (.addChild _ _) fun _ => .addChild _ _
  have wellFormed := reachable.forest.wellFormed
  have live : tree.contains ⟨0⟩ = true := rfl
  obtain ⟨growth, grows, top, ⟨calls, outcome, after, orderly, traces⟩, -⟩ :=
    (traversals_orderly wellFormed (.only .number) reply ()).1 ⟨0⟩ live
  -- The second answer leaves its own place first, and then it has the place of the node visited.
  let exchanged : Tree := ⟨#[some ⟨.values, default, none, [⟨1⟩, ⟨3⟩]⟩,
    some ⟨.number 1, default, some ⟨0⟩, []⟩, some ⟨.number 2, default, some ⟨0⟩, []⟩,
    some ⟨.number 3, default, some ⟨0⟩, []⟩], none, .empty⟩
  let moved : Tree := ⟨#[some ⟨.values, default, none, [⟨1⟩, ⟨3⟩]⟩,
    some ⟨.number 1, default, some ⟨0⟩, []⟩, none,
    some ⟨.number 3, default, some ⟨0⟩, []⟩], none, .empty⟩
  have released : exchanged.release ⟨2⟩ = moved := by
    simp [Tree.release, Tree.releaseAll, exchanged, moved]
  have replaced : tree.put ⟨2⟩ ⟨1⟩ = .ok (exchanged.release ⟨2⟩) := rfl
  let seen (before : Tree) (id : NodeId) : Call Unit := ⟨id, before, ()⟩
  -- Three visits: the first answers with itself, the second moves, the third stays.
  have course : Course (.only .number) (noting reply) 3 ⟨0⟩ [⟨1⟩, ⟨2⟩, ⟨3⟩] (tree, [], ()) _ (.ok ())
      (moved, [seen tree ⟨1⟩, seen tree ⟨2⟩, seen moved ⟨3⟩], ()) :=
    .visit rfl rfl (List.nil_append _).symm <|
      .visit rfl (replaced.trans (congrArg _ released)) (List.nil_append _).symm <|
        .visit rfl rfl (List.singleton_append ..).symm .done
  have run := course.ends (.all reachable.forest rfl) (List.nil_append _).symm (by decide : 3 < 5)
  -- What the theorem says was noted is what this course leaves.
  obtain ⟨-, noted⟩ := traces 5 (by decide)
  obtain ⟨ended, left⟩ := Prod.mk.inj (noted.symm.trans run)
  obtain ⟨left, visited, -⟩ := Prod.mk.inj left |>.imp_right Prod.mk.inj
  cases outcome with
  | error error => cases ended
  | ok _ =>
    refine ⟨tree, wellFormed, growth, grows, top, calls, after, ?_, ?_, orderly⟩
    · rw [visited]
      rfl
    · rw [left]
      rfl

end Walk

end ArgSchema
