import ArgSchema.Proofs.Tree.Spares
import ArgSchema.Proofs.Walk.Runs

/-! Courses: what traversals do whose visitors make nodes and answer with any nodes, step by step. -/

namespace ArgSchema

/-- What a visitor does that changes no links: it makes nodes, leaves a state, and answers with a node
that is to stand in the place of the visited one. -/
structure Reply (state : Type) where
  /-- The nodes that it makes, in order. -/
  made : List (NodeKind × Span)
  /-- The node that it answers with. -/
  answer : NodeId
  /-- The state that it leaves. -/
  own : state

/-- A visit, with the tree and the state that the visitor finds. -/
structure Call (state : Type) where
  /-- The node that is visited. -/
  id : NodeId
  /-- The tree and the state. -/
  before : Tree × state

namespace Call

variable {state : Type}

/-- The tree and the state after a reply, before its answer is put in place. -/
def left (reply : Call state → Reply state) (call : Call state) : Tree × state :=
  (call.before.1.allocAll (reply call).made, (reply call).own)

/-- The tree with the answer of a reply in place. -/
def put (reply : Call state → Reply state) (call : Call state) : Except TreeError Tree :=
  (call.left reply).1.put call.id (reply call).answer

end Call

namespace Walk

variable {state : Type}

/-- A visitor that replies to its visits, and never goes on by itself. -/
def replying (reply : Call state → Reply state) : Visitor state := fun id _ => do
  let before := (← tree, ← own)
  let given := reply ⟨id, before⟩
  setTree (before.1.allocAll given.made)
  setOwn given.own
  return given.answer

/-- A replying visitor leaves what its reply does, and answers. -/
theorem runs_replying (reply : Call state → Reply state) (id : NodeId)
    (descend : NodeId → Walk state Unit) (before : Tree × state) :
    Runs (replying reply id descend) before (reply ⟨id, before⟩).answer
      (Call.left reply ⟨id, before⟩) := rfl

/-- The course that a traversal takes in a limited number of steps from some children of a node on: the
visits, the outcome, and what they leave of a tree and a state. -/
inductive Course (types : NodeTypes) (reply : Call state → Reply state) :
    Nat → NodeId → List NodeId → Tree × state → List (Call state) → Except TreeError Unit →
      Tree × state → Prop
  /-- Without children ahead it is over. -/
  | done {steps parent before} : Course types reply steps parent [] before [] (.ok ()) before
  /-- A child is visited, and those behind the answer come next. -/
  | visit {steps parent child rest before calls outcome after tree front behind} :
      before.1.isOfType types child = true →
      Call.put reply ⟨child, before⟩ = .ok tree →
      tree.children parent = front ++ (reply ⟨child, before⟩).answer :: behind →
      Course types reply steps parent behind (tree, (reply ⟨child, before⟩).own) calls outcome after →
      Course types reply (steps + 1) parent (child :: rest) before (⟨child, before⟩ :: calls) outcome
        after
  /-- A child is visited, and the answer is refused. -/
  | refuse {steps parent child rest before error} :
      before.1.isOfType types child = true →
      Call.put reply ⟨child, before⟩ = .error error →
      Course types reply (steps + 1) parent (child :: rest) before [⟨child, before⟩] (.error error)
        (Call.left reply ⟨child, before⟩)
  /-- A child is passed, with a course of its own below it, and those behind it come next. -/
  | pass {steps parent child rest before calls middle more outcome after front behind} :
      before.1.isOfType types child = false →
      Course types reply steps child (before.1.children child) before calls (.ok ()) middle →
      middle.1.children parent = front ++ child :: behind →
      Course types reply steps parent behind middle more outcome after →
      Course types reply (steps + 1) parent (child :: rest) before (calls ++ more) outcome after
  /-- A child is passed, and the course below it fails. -/
  | fail {steps parent child rest before calls error after} :
      before.1.isOfType types child = false →
      Course types reply steps child (before.1.children child) before calls (.error error) after →
      Course types reply (steps + 1) parent (child :: rest) before calls (.error error) after

end Walk

/-- A well-formed tree in which some nodes are the last children of a live node of some type. -/
structure Tree.Awaits (tree : Tree) (type : NodeType) (parent : NodeId) (ahead : List NodeId) :
    Prop where
  /-- The tree is well formed. -/
  forest : tree.Forest
  /-- The node is live and of the type. -/
  live : ∃ above, tree.get? parent = some above ∧ above.type = type
  /-- The nodes are its last children. -/
  placed : ∃ front, tree.children parent = front ++ ahead

namespace Tree.Awaits

variable {a b : Tree} {type : NodeType} {parent child : NodeId} {rest : List NodeId}

/-- All children of a live node can be ahead. -/
theorem all (forest : a.Forest) {above : Node} (live : a.get? parent = some above) :
    a.Awaits above.type parent (a.children parent) :=
  ⟨forest, ⟨above, live, rfl⟩, [], rfl⟩

/-- When a child is dealt with, those behind it in the changed list are ahead. -/
theorem onward {next : NodeId} {front behind : List NodeId} (awaits : a.Awaits type parent (child :: rest))
    (advances : Advances type.rank parent child rest behind a b)
    (placed : b.children parent = front ++ next :: behind) : b.Awaits type parent behind := by
  -- The parent is as far above the leaves as itself, so it stays live.
  obtain ⟨above, upper, rfl⟩ := awaits.live
  obtain ⟨above', upper', same, -⟩ := advances.spares.upper upper (Nat.le_refl _)
  exact ⟨advances.spares.develops.forest awaits.forest, ⟨above', upper', same⟩, front ++ [next],
    by simp [placed]⟩

/-- A visited child is dealt with when the answer is put in its place. -/
theorem visit {front behind : List NodeId} (awaits : a.Awaits type parent (child :: rest))
    {made : List (NodeKind × Span)} {new : NodeId} (done : (a.allocAll made).put child new = .ok b)
    (placed : b.children parent = front ++ new :: behind) :
    Advances type.rank parent child rest behind a b := by
  -- A child that is awaited is listed by a live parent, at the place that the answer takes.
  obtain ⟨above, upper, rfl⟩ := awaits.live
  obtain ⟨_, before⟩ := awaits.placed
  exact .put awaits.forest before upper done placed

/-- The first child ahead has a parent, also after nodes were made. -/
theorem attached (awaits : a.Awaits type parent (child :: rest)) (made : List (NodeKind × Span)) :
    (a.allocAll made).parent? child ≠ none := by
  -- Making nodes leaves the list of the parent, and whoever is listed has that parent.
  obtain ⟨front, placed⟩ := awaits.placed
  have grown := (a.develops_allocAll made).forest awaits.forest
  rw [grown.parent?_of_mem (by simp [placed] : child ∈ (a.allocAll made).children parent)]
  exact Option.some_ne_none parent

/-- The children of a child that is passed are ahead below it, and once they are dealt with, so is the
child, which is still listed. -/
theorem pass (awaits : a.Awaits type parent (child :: rest)) :
    ∃ type', a.Awaits type' child (a.children child) ∧ ∀ {b},
      Spares type'.rank child (a.children child) a b → child ∈ b.children parent ∧
        ∀ {front behind}, b.children parent = front ++ child :: behind →
          Advances type.rank parent child rest behind a b := by
  -- The child is live, being listed, and all of its children are ahead below it.
  obtain ⟨above, upper, rfl⟩ := awaits.live
  obtain ⟨_, before⟩ := awaits.placed
  obtain ⟨-, given, -, live, named, -⟩ := awaits.forest.of_mem_children (by simp [before] :
    child ∈ a.children parent)
  refine ⟨given.type, .all awaits.forest live, fun spares => ⟨?_, fun placed => ?_⟩⟩
  · -- The child is as far above the leaves as itself, so it stays in its place.
    obtain ⟨given', live', -, named'⟩ := spares.upper live (Nat.le_refl _)
    obtain ⟨above', upper', member⟩ :=
      (spares.develops.forest awaits.forest).listed live' (named'.trans named)
    simpa [Tree.children, upper'] using member
  · exact .pass awaits.forest before upper live spares placed

end Tree.Awaits

namespace Walk

open ArgSchema.Tree (Awaits Spares Advances)

variable {state : Type} {types : NodeTypes} {reply : Call state → Reply state} {steps : Nat}
  {parent : NodeId} {ahead : List NodeId} {before after : Tree × state} {calls : List (Call state)}
  {outcome : Except TreeError Unit} {type : NodeType}

namespace Course

/-- A course that succeeds spares what is not below the children ahead. -/
theorem spares (course : Course types reply steps parent ahead before calls outcome after)
    (done : outcome = .ok ()) (awaits : before.1.Awaits type parent ahead) :
    Spares type.rank parent ahead before.1 after.1 := by
  -- Each child advances the list, below which the rest of the course is spared by induction.
  induction course generalizing type with
  | done => exact .refl _
  | visit _ put placed _ ih =>
    obtain ⟨_, before⟩ := awaits.placed
    have advances := awaits.visit put placed
    exact advances.trans awaits.forest before (ih done (awaits.onward advances placed))
  -- A course that is refused has not succeeded.
  | refuse => cases done
  | pass _ _ placed _ ih ih' =>
    obtain ⟨_, before⟩ := awaits.placed
    obtain ⟨type', below, passed⟩ := awaits.pass
    have advances := (passed (ih rfl below)).2 placed
    exact advances.trans awaits.forest before (ih' done (awaits.onward advances placed))
  | fail => cases done

/-- Visits below a child and visits below those that come after it are visits of different nodes. -/
theorem once_append {a b : Tree} {level : Nat} {child : NodeId} {front rest behind : List NodeId}
    (forest : a.Forest) (placed : a.children parent = front ++ child :: rest)
    (advances : Advances level parent child rest behind a b) {more : List (Call state)}
    (first : (∀ call ∈ calls, a.Under child call.id) ∧ (calls.map Call.id).Nodup)
    (second : (∀ call ∈ more, ∃ top ∈ behind, b.Under top call.id) ∧ (more.map Call.id).Nodup) :
    (∀ call ∈ calls ++ more, ∃ top ∈ child :: rest, a.Under top call.id) ∧
      ((calls ++ more).map Call.id).Nodup := by
  -- What is visited later was below a later sibling before.
  have later : ∀ call ∈ more, ∃ top ∈ rest, a.Under top call.id := by
    intro call member
    obtain ⟨top, listed, reached⟩ := second.1 call member
    exact ⟨top, advances.onward.subset listed, advances.under forest placed listed reached⟩
  -- Each visit is below the child or below one that comes later.
  constructor
  · intro call member
    rcases List.mem_append.mp member with member | member
    · exact ⟨child, by simp, first.1 call member⟩
    · obtain ⟨top, listed, reached⟩ := later call member
      exact ⟨top, by simp [listed], reached⟩
  · -- A node in both parts would be below the child and below a later sibling.
    rw [List.map_append]
    refine List.nodup_append.mpr ⟨first.2, second.2, ?_⟩
    rintro id early _ late rfl
    obtain ⟨call, member, rfl⟩ := List.mem_map.mp early
    obtain ⟨call', member', same⟩ := List.mem_map.mp late
    obtain ⟨top, listed, reached⟩ := later call' member'
    exact (forest.apart_of_later placed listed reached).2 (same ▸ first.1 call member)

/-- Only nodes are visited that were below the children ahead, and none of them twice. -/
theorem once (course : Course types reply steps parent ahead before calls outcome after)
    (awaits : before.1.Awaits type parent ahead) :
    (∀ call ∈ calls, ∃ top ∈ ahead, before.1.Under top call.id) ∧ (calls.map Call.id).Nodup := by
  induction course generalizing type with
  | done => simp
  | @visit _ _ child _ found _ _ _ _ _ _ _ put placed _ ih =>
    obtain ⟨_, before⟩ := awaits.placed
    have advances := awaits.visit put placed
    -- The visit itself plays the part of the visits below a child that is passed.
    have first : (∀ call ∈ [(⟨child, found⟩ : Call state)], found.1.Under child call.id) ∧
        ([(⟨child, found⟩ : Call state)].map Call.id).Nodup := by simp [Tree.Under.top]
    exact (once_append awaits.forest before advances first (ih (awaits.onward advances placed)) :)
  | refuse => exact ⟨by simp [Tree.Under.top], by simp⟩
  | pass _ course placed _ ih ih' =>
    obtain ⟨_, before⟩ := awaits.placed
    obtain ⟨type', below, passed⟩ := awaits.pass
    have advances := (passed (course.spares rfl below)).2 placed
    obtain ⟨inside, once⟩ := ih below
    -- What is visited below the child is visited below one of its children.
    refine once_append awaits.forest before advances ⟨fun call member => ?_, once⟩
      (ih' (awaits.onward advances placed))
    obtain ⟨top, listed, reached⟩ := inside call member
    exact reached.of_child listed
  | fail _ _ ih =>
    obtain ⟨type', below, -⟩ := awaits.pass
    obtain ⟨inside, once⟩ := ih below
    refine ⟨fun call member => ?_, once⟩
    obtain ⟨top, listed, reached⟩ := inside call member
    exact ⟨_, by simp, reached.of_child listed⟩

end Course

/-- A traversal has a course, in as many steps as there are nodes below the children ahead. -/
theorem exists_course (types : NodeTypes) (reply : Call state → Reply state) (steps : Nat) :
    ∀ {pool : List NodeId} {type : NodeType} {parent : NodeId} {ahead : List NodeId}
      {before : Tree × state}, before.1.Awaits type parent ahead →
      (∀ top ∈ ahead, ∀ id, before.1.Under top id → id ∈ pool) → pool.length ≤ steps →
      ∃ calls outcome after, Course types reply steps parent ahead before calls outcome after := by
  -- The pool holds the nodes below those ahead, and loses one with each child that is dealt with.
  induction steps with
  | zero =>
    intro pool type parent ahead before awaits inside short
    cases ahead with
    | nil => exact ⟨[], .ok (), before, .done⟩
    | cons child rest =>
      have member := inside child (by simp) child .top
      -- The child itself is in the pool, so the pool is not empty.
      rw [List.eq_nil_of_length_eq_zero (Nat.le_zero.mp short)] at member
      cases member
  | succ steps ih =>
    intro pool type parent ahead before awaits inside short
    cases ahead with
    | nil => exact ⟨[], .ok (), before, .done⟩
    | cons child rest =>
      obtain ⟨front, placed⟩ := awaits.placed
      have member := inside child (by simp) child .top
      have fewer : (pool.erase child).length ≤ steps := by
        rw [List.length_erase_of_mem member]
        omega
      -- Once the child was dealt with, one node fewer is below those ahead.
      have further : ∀ {b behind} {own : state},
          Advances type.rank parent child rest behind before.1 b → b.Awaits type parent behind →
          ∃ calls outcome after, Course types reply steps parent behind (b, own) calls outcome after := by
        intro b behind own advances awaits'
        refine ih awaits' (fun top listed id reached => ?_) fewer
        have below := advances.under awaits.forest placed listed reached
        have later := advances.onward.subset listed
        have apart : id ≠ child := by
          rintro rfl
          exact (awaits.forest.apart_of_later placed later below).2 .top
        exact (List.mem_erase_of_ne apart).mpr (inside top (by simp [later]) id below)
      cases stop : before.1.isOfType types child with
      | true =>
        -- The answer is refused, or the course goes on behind it.
        cases put : Call.put reply ⟨child, before⟩ with
        | error error => exact ⟨_, _, _, .refuse stop put⟩
        | ok tree =>
          have grown := (before.1.develops_allocAll (reply ⟨child, before⟩).made).forest awaits.forest
          have placed' := grown.children_put (by rw [Tree.children_allocAll, placed]) put
          have advances := awaits.visit put placed'
          obtain ⟨calls, outcome, after, course⟩ := further advances (awaits.onward advances placed')
          exact ⟨_, _, _, .visit stop put placed' course⟩
      | false =>
        obtain ⟨type', below, passed⟩ := awaits.pass
        -- The child is not below its own children.
        have inside' : ∀ top ∈ before.1.children child, ∀ id, before.1.Under top id →
            id ∈ pool.erase child := by
          intro top listed id reached
          have apart : id ≠ child := by
            rintro rfl
            exact awaits.forest.not_under_of_mem_children listed reached
          exact (List.mem_erase_of_ne apart).mpr
            (inside child (by simp) id (reached.of_child listed))
        obtain ⟨calls, outcome, middle, course⟩ := ih below inside' fewer
        -- What fails below the child fails here, and else the course goes on behind the child.
        cases outcome with
        | error error => exact ⟨_, _, _, .fail stop course⟩
        | ok _ =>
          obtain ⟨listed, advances⟩ := passed (course.spares rfl below)
          obtain ⟨front', behind, placed'⟩ := List.append_of_mem listed
          have advances := advances placed'
          obtain ⟨more, outcome, after, course'⟩ := further advances (awaits.onward advances placed')
          exact ⟨_, _, _, .pass stop course placed' course'⟩

/-- The place of a child that a node lists is found. -/
theorem runs_place?_of_mem {before : Tree × state} {child : NodeId}
    (member : child ∈ before.1.children parent) :
    Runs (place? parent child) before (some ((before.1.children parent).idxOf child)) before := by
  obtain ⟨above, upper, inside⟩ := Tree.get?_of_mem_children member
  -- Its place is the first position where it stands, and it stands somewhere.
  have place : above.children.idxOf? child = some (above.children.idxOf child) := by
    obtain ⟨index, found⟩ := Option.isSome_iff_exists.mp (List.isSome_idxOf?.mpr inside)
    rw [List.idxOf_eq_getD_idxOf?, found, Option.getD_some]
  rw [Tree.children, upper, Option.map_some, Option.getD_some, ← place]
  exact runs_place? upper

/-- A node with children is live. -/
theorem exists_node_of_children {tree : Tree} {child : NodeId} {front rest : List NodeId}
    (placed : tree.children parent = front ++ child :: rest) :
    ∃ above, tree.get? parent = some above ∧ above.children = front ++ child :: rest := by
  obtain ⟨above, upper, -⟩ := Tree.get?_of_mem_children (by simp [placed] :
    child ∈ tree.children parent)
  exact ⟨above, upper, by simpa [Tree.children, upper] using placed⟩

section Meet

variable {child : NodeId}

/-- Meeting a node of one of the types is a visit. -/
theorem meets_replying (reply : Call state → Reply state) (descend : NodeId → Walk state Unit)
    (stop : before.1.isOfType types child = true) :
    Runs (meet types (replying reply) descend child) before (reply ⟨child, before⟩).answer
      (Call.left reply ⟨child, before⟩) := by
  -- The node is of a type to stop at, so the visitor answers for it.
  obtain ⟨node, found, member⟩ := Tree.exists_of_isOfType stop
  refine (runs_node found).bind ?_
  simp only [if_pos member]
  exact runs_replying reply child descend before

/-- Meeting any other node that is live goes on to what is below it. -/
theorem meets_other (reply : Call state → Reply state) (descend : NodeId → Walk state Unit)
    {node : Node} (found : before.1.get? child = some node) (stop : before.1.isOfType types child = false)
    {outcome : Except Interruption Unit} (deeper : Ends (descend child) before outcome after) :
    Ends (meet types (replying reply) descend child) before (outcome.map fun _ => child) after := by
  have other : node.type ∉ types := by simpa [Tree.isOfType, found] using stop
  refine (runs_node found).ends ?_
  simp only [if_neg other]
  -- What fails below fails here, and otherwise the child is the answer.
  cases outcome with
  | error why => exact deeper.stop
  | ok _ => exact Runs.ends deeper rfl

end Meet

section Step

variable {visitor : Visitor state} {budget : Nat} {child new : NodeId} {front rest : List NodeId}
  {middle : Tree × state}

/-- A traversal that has come to the end of the children is over. -/
theorem ends_traverseFrom_nil {above : Node} (upper : before.1.get? parent = some above)
    (placed : before.1.children parent = front) :
    Ends (traverseFrom types visitor (budget + 1) parent front.length) before (.ok ()) before := by
  -- The position is the number of all children, so nothing is read there.
  have none : above.children[front.length]? = none := by
    have list : above.children = front := by simpa [Tree.children, upper] using placed
    simp [list]
  refine (runs_node upper).ends ?_
  simp only [none]
  rfl

/-- A traversal that fails at a child fails. -/
theorem ends_traverseFrom_fail (placed : before.1.children parent = front ++ child :: rest)
    {why : Interruption}
    (fails : Ends (meet types visitor (fun below => traverseFrom types visitor budget below 0) child)
      before (.error why) after) :
    Ends (traverseFrom types visitor (budget + 1) parent front.length) before (.error why) after := by
  -- The child stands right behind those in front of it, so it is read at the position.
  obtain ⟨above, upper, list⟩ := exists_node_of_children placed
  have listed : above.children[front.length]? = some child := by simp [list]
  refine (runs_node upper).ends ?_
  simp only [listed]
  exact fails.stop

/-- A traversal puts an answer in the place of a child that is still there, and fails if that is
refused. -/
theorem ends_traverseFrom_cons (placed : before.1.children parent = front ++ child :: rest)
    (meets : Runs (meet types visitor (fun below => traverseFrom types visitor budget below 0) child)
      before new middle)
    (forest : middle.1.Forest) (member : child ∈ middle.1.children parent) :
    (∀ error, middle.1.put child new = .error error →
      Ends (traverseFrom types visitor (budget + 1) parent front.length) before
        (.error (.refused error)) middle) ∧
    ∀ {tree front' behind outcome after}, middle.1.put child new = .ok tree → tree.Forest →
      tree.children parent = front' ++ new :: behind →
      Ends (traverseFrom types visitor budget parent (front'.length + 1)) (tree, middle.2) outcome
        after →
      Ends (traverseFrom types visitor (budget + 1) parent front.length) before outcome after := by
  obtain ⟨above, upper, list⟩ := exists_node_of_children placed
  have listed : above.children[front.length]? = some child := by simp [list]
  have place := runs_place?_of_mem member
  have found := forest.parent?_of_mem member
  constructor
  · -- Only another node can be refused.
    intro error failed
    have moved : new ≠ child := fun same => by
      rw [same, Tree.put_self] at failed
      cases failed
    simp only [Tree.put, if_neg moved, found] at failed
    refine (runs_node upper).ends ?_
    simp only [listed]
    refine meets.ends (place.ends ?_)
    simp only [if_pos moved]
    exact (ends_change failed).stop
  · intro tree front' behind outcome after done grown placed' further
    -- The next position is the one behind the answer, wherever the answer stands now.
    have next : Runs (place? parent new) (tree, middle.2) (some front'.length) (tree, middle.2) := by
      obtain ⟨above', upper', list'⟩ := exists_node_of_children placed'
      have once := grown.once upper'
      rw [list'] at once
      rw [← idxOf?_append_cons once, ← list']
      exact runs_place? upper'
    refine (runs_node upper).ends ?_
    simp only [listed]
    refine meets.ends (place.ends ?_)
    -- With the child as its own answer nothing is replaced.
    by_cases moved : new ≠ child
    · simp only [Tree.put, if_neg moved, found] at done
      simp only [if_pos moved]
      exact (runs_change done).ends (next.ends further)
    · rw [not_not.mp moved, Tree.put_self] at done
      cases done
      simp only [if_neg moved]
      exact next.ends further

end Step

namespace Course

/-- A traversal with more steps than a course takes runs as the course does. -/
theorem ends (course : Course types reply steps parent ahead before calls outcome after)
    (awaits : before.1.Awaits type parent ahead) {front : List NodeId}
    (placed : before.1.children parent = front ++ ahead) {budget : Nat} (enough : steps < budget) :
    Ends (traverseFrom types (replying reply) budget parent front.length) before
      (outcome.mapError .refused) after := by
  -- The position is the number of children in front, which a step raises by one.
  induction course generalizing type front budget with
  | done =>
    obtain ⟨budget, rfl⟩ := Nat.exists_eq_add_one.mpr (Nat.zero_lt_of_lt enough)
    obtain ⟨above, upper, -⟩ := awaits.live
    exact ends_traverseFrom_nil upper (by simpa using placed)
  -- A visit: the answer is put in place, and the position is found again behind it.
  | @visit _ _ child _ before _ _ _ _ _ _ stop put placed' _ ih =>
    obtain ⟨budget, rfl⟩ := Nat.exists_eq_add_one.mpr (Nat.zero_lt_of_lt enough)
    have advances := awaits.visit put placed'
    have onward := awaits.onward advances placed'
    have meets := meets_replying reply
      (fun below => traverseFrom types (replying reply) budget below 0) stop
    have grown := before.1.develops_allocAll (reply ⟨child, before⟩).made
    have further := ih onward (placed'.trans (List.append_cons _ _ _)) (Nat.lt_of_succ_lt_succ enough)
    rw [List.length_append] at further
    exact (ends_traverseFrom_cons placed meets (grown.forest awaits.forest)
      (by simp [Call.left, placed])).2 put onward.forest placed' further
  -- A visit whose answer is refused is the last step.
  | @refuse _ _ child _ before _ stop put =>
    obtain ⟨budget, rfl⟩ := Nat.exists_eq_add_one.mpr (Nat.zero_lt_of_lt enough)
    have meets := meets_replying reply
      (fun below => traverseFrom types (replying reply) budget below 0) stop
    have grown := before.1.develops_allocAll (reply ⟨child, before⟩).made
    exact (ends_traverseFrom_cons placed meets (grown.forest awaits.forest)
      (by simp [Call.left, placed])).1 _ put
  -- A child that is passed: the course below it runs first, with a budget of its own.
  | @pass _ _ child _ before _ middle _ _ _ _ _ stop course placed' _ ih ih' =>
    obtain ⟨budget, rfl⟩ := Nat.exists_eq_add_one.mpr (Nat.zero_lt_of_lt enough)
    obtain ⟨type', below, passed⟩ := awaits.pass
    obtain ⟨listed, advances⟩ := passed (course.spares rfl below)
    have onward := awaits.onward (advances placed') placed'
    obtain ⟨given, live, -⟩ := below.live
    have deeper : Ends (traverseFrom types (replying reply) budget child 0) before (.ok ()) middle :=
      ih below (List.nil_append _).symm (Nat.lt_of_succ_lt_succ enough)
    have meets := meets_other reply
      (fun below => traverseFrom types (replying reply) budget below 0) live stop deeper
    have further := ih' onward (placed'.trans (List.append_cons _ _ _)) (Nat.lt_of_succ_lt_succ enough)
    rw [List.length_append] at further
    -- Nothing below a child takes the child away, so it stands in its own place.
    exact (ends_traverseFrom_cons placed meets onward.forest listed).2
      (Tree.put_self _ _) onward.forest placed' further
  -- A failure below a child ends the traversal there.
  | @fail _ _ child _ before _ error after stop _ ih =>
    obtain ⟨budget, rfl⟩ := Nat.exists_eq_add_one.mpr (Nat.zero_lt_of_lt enough)
    obtain ⟨type', below, -⟩ := awaits.pass
    obtain ⟨given, live, -⟩ := below.live
    have deeper : Ends (traverseFrom types (replying reply) budget child 0) before
        (.error (.refused error)) after :=
      ih below (List.nil_append _).symm (Nat.lt_of_succ_lt_succ enough)
    exact ends_traverseFrom_fail placed
      (meets_other reply (fun below => traverseFrom types (replying reply) budget below 0) live stop deeper)

end Course

end Walk

end ArgSchema
