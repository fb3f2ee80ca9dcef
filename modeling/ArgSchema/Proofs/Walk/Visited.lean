import ArgSchema.Proofs.Walk.Replies
import ArgSchema.Proofs.Walk.Tops

/-! Visited nodes: if answers are new nodes or the visited ones, the outermost nodes of the types are visited. -/

namespace ArgSchema

/-- A visit whose answer is the visited node, or a node that the visit made and that fits in its place. -/
def Call.Modest {state : Type} (reply : Call state → Reply state) (call : Call state) : Prop :=
  (reply call).answer = call.id ∨
    call.before.1.nodes.size ≤ (reply call).answer.index ∧
      (call.left reply).1.Fits call.id (reply call).answer

/-- The modest answer of a visit is put in place. -/
theorem Call.Modest.exists_put {state : Type} {reply : Call state → Reply state} {call : Call state}
    (modest : call.Modest reply) (forest : call.before.1.Forest) :
    ∃ tree, call.put reply = .ok tree := by
  -- The visited node stays in its own place, and a new one fits by assumption.
  rcases modest with own | ⟨-, fits⟩
  · rw [put, own]
    exact ⟨_, Tree.put_self _ _⟩
  · exact ((call.before.1.develops_allocAll _).forest forest).exists_put fits

namespace Tree

/-- A change retains all nodes but a parent, those below some of its children, and new ones. -/
def Retains (parent : NodeId) (ahead : List NodeId) (before after : Tree) : Prop :=
  ∀ id, id.index < before.nodes.size → id ≠ parent → (∀ top ∈ ahead, ¬before.Under top id) →
    after.get? id = before.get? id

section Siblings

variable {a b c : Tree} {parent child : NodeId} {front rest : List NodeId} (forest : a.Forest)
  (placed : a.children parent = front ++ child :: rest)

include forest placed

/-- What grows below later siblings is left when a child is dealt with. -/
theorem Retains.grows (retains : Retains parent [child] a b) {growths : List Growth}
    (grows : a.GrowsAll growths) (tops : growths.map Growth.id = rest) :
    b.GrowsAll growths ∧ ∀ types, ∀ id ∈ Growth.idsAll growths,
      b.isOfType types id = a.isOfType types id := by
  -- Nothing that grows is the parent or below the child.
  have kept : ∀ id ∈ Growth.idsAll growths, b.get? id = a.get? id := by
    intro id member
    obtain ⟨growth, listed, inside⟩ := Growth.mem_idsAll.mp member
    have grown := growsAll_iff.mp grows growth listed
    have reached := grown.mem_ids_iff.mp inside
    have later : growth.id ∈ rest := tops ▸ List.mem_map_of_mem listed
    obtain ⟨node, found, -⟩ := grown.get?
    obtain ⟨given, live, -⟩ := reached.rank_le forest found
    obtain ⟨apart, outside⟩ := forest.apart_of_later placed later reached
    exact retains id (index_lt_of_get? live) apart (by simpa using outside)
  -- Growths and types are read off the nodes, which are the same.
  refine ⟨GrowsAll.of_get? growths grows kept, fun types id member => ?_⟩
  rw [isOfType, kept id member, isOfType]

/-- Dealing with a child and then with all others retains what is below none of them. -/
theorem Retains.trans {level : Nat} (advances : Advances level parent child rest rest a b)
    (first : Retains parent [child] a b) (second : Retains parent rest b c) :
    Retains parent (child :: rest) a c := by
  -- What is below none of them is untouched by the first change, and so by the second.
  intro id inside apart outside
  have early := first id inside apart (by simpa using outside child (by simp))
  refine (second id (Nat.lt_of_lt_of_le inside advances.spares.develops.size) apart
    fun top member reached => ?_).trans early
  exact outside top (by simp [member]) (advances.under forest placed member reached)

/-- Making nodes and putting the child or a new node in its place retains what is not below the child,
and the other children. -/
theorem Retains.put {made : List (NodeKind × Span)} {new : NodeId}
    (done : (a.allocAll made).put child new = .ok b)
    (modest : new = child ∨ a.nodes.size ≤ new.index) :
    Retains parent [child] a b ∧ b.children parent = front ++ new :: rest := by
  -- The new nodes are in no list yet, so allocating changes none.
  have grown := (a.develops_allocAll made).forest forest
  have placed' : (a.allocAll made).children parent = front ++ child :: rest := by
    rw [children_allocAll, placed]
  -- A child in its own place leaves all lists as they are.
  by_cases own : new = child
  · subst own
    rw [put_self] at done
    cases done
    exact ⟨fun id inside _ _ => a.get?_allocAll made inside, placed'⟩
  · -- A new node is in none of the lists of children, so none becomes shorter.
    have fresh : ∀ id, ∀ list, list ⊆ a.children id → list.filter (· ≠ new) = list := by
      intro id list listed
      refine List.filter_eq_self.mpr fun below member => ?_
      obtain ⟨-, given, -, live, -⟩ := forest.of_mem_children (listed member)
      have inside := index_lt_of_get? live
      have apart : below ≠ new := by
        rintro rfl
        exact absurd inside (Nat.not_lt.mpr (modest.resolve_left own))
      simpa using apart
    constructor
    · -- Outside of the child each node loses only the new one, which it has not listed.
      intro id inside apart outside
      -- Allocating brought nothing below the child.
      have outside' : ¬(a.allocAll made).Under child id := fun reached =>
        outside child (by simp) (reached.of_subset fun other _ => by
          rw [children_allocAll]
          exact List.Subset.refl _)
      have other : id ≠ new := by
        rintro rfl
        exact absurd inside (Nat.not_lt.mpr (modest.resolve_left own))
      have member : child ∈ (a.allocAll made).children parent := by simp [placed]
      -- What is left at each node is its list without the new one.
      rw [grown.get?_put member own done outside', a.get?_allocAll made inside]
      cases found : a.get? id with
      | none => rfl
      | some node =>
        have list := fresh id node.children (by simp [children, found])
        simp only [Option.map_some, if_neg apart, if_neg other, list]
    · -- For the same reason the siblings around the child are all left.
      rw [grown.children_put placed' done, fresh parent front (by simp [placed]),
        fresh parent rest (by simp [placed])]

end Siblings

/-- Dealing with the children of a child retains what is not below the child, and its parent. -/
theorem Retains.pass {a b : Tree} {parent child : NodeId} (forest : a.Forest)
    (member : child ∈ a.children parent) (retains : Retains child (a.children child) a b) :
    Retains parent [child] a b ∧ b.children parent = a.children parent := by
  -- What is not below the child is neither the child nor below its children.
  have outside : ∀ {id}, ¬a.Under child id →
      id ≠ child ∧ ∀ top ∈ a.children child, ¬a.Under top id := by
    intro id apart
    exact ⟨fun same => apart (same ▸ .top), fun top listed reached => apart (reached.of_child listed)⟩
  constructor
  · intro id inside _ apart
    obtain ⟨other, below⟩ := outside (apart child (by simp))
    exact retains id inside other below
  · -- The parent itself is not below the child, so its list is the same.
    obtain ⟨above, given, upper, live, named, -⟩ := forest.of_mem_children member
    obtain ⟨other, below⟩ := outside (Under.not_parent forest live named)
    rw [children, retains parent (index_lt_of_get? upper) other below, children]

end Tree

namespace Walk

open ArgSchema.Tree (Retains)

variable {state : Type} {types : NodeTypes} {reply : Call state → Reply state} {steps : Nat}
  {parent : NodeId} {ahead : List NodeId} {before after : Tree × state}
  {calls : List (Call state)} {outcome : Except TreeError Unit} {type : NodeType}

/-- If all answers are modest, a course visits the outermost nodes of the types below the children ahead,
in order, and nothing is refused. -/
theorem Course.visits (course : Course types reply steps parent ahead before calls outcome after)
    (awaits : before.1.Awaits type parent ahead) (modest : ∀ call ∈ calls, call.Modest reply)
    {stops : NodeId → Bool} {growths : List Growth} (grows : before.1.GrowsAll growths)
    (tops : growths.map Growth.id = ahead)
    (agree : ∀ id ∈ Growth.idsAll growths, before.1.isOfType types id = stops id) :
    outcome = .ok () ∧ calls.map Call.id = (Growth.topsAll stops growths).map Growth.id ∧
      Retains parent ahead before.1 after.1 := by
  -- The growths of the children ahead carry the induction: they grow on while others are dealt
  -- with.
  induction course generalizing type growths with
  | done =>
    obtain rfl := List.map_eq_nil_iff.mp tops
    exact ⟨rfl, rfl, fun _ _ _ _ => rfl⟩
  | @visit _ parent child _ before _ _ _ _ front behind stop put placed _ ih =>
    obtain ⟨growth, more, rfl, rfl, rfl⟩ := List.map_eq_cons_iff.mp tops
    obtain ⟨first, others⟩ := grows
    obtain ⟨front', before'⟩ := awaits.placed
    -- The answer stands where the child stood, so the same children are ahead.
    obtain ⟨retains, placed'⟩ := Retains.put awaits.forest before' put
      ((modest _ List.mem_cons_self).imp_right And.left)
    have advances := awaits.visit put placed
    have onward := awaits.onward advances placed
    obtain rfl := onward.forest.behind_eq placed' placed
    obtain ⟨grows', types'⟩ := retains.grows awaits.forest before' others rfl
    obtain ⟨fine, visited, retains'⟩ := ih onward (fun call member => modest call (by simp [member]))
      grows' rfl fun id member => (types' types id member).trans (agree id (by simp [Growth.idsAll, member]))
    have stops' := agree growth.id (by simp [Growth.idsAll, growth.id_mem_ids])
    rw [stop] at stops'
    -- The child is of the types, so it is the only top of its growth.
    refine ⟨fine, ?_, retains.trans awaits.forest before' advances retains'⟩
    rw [List.map_cons, visited, Growth.topsAll, Growth.tops_of_stops stops'.symm]
    rfl
  -- A modest answer is never refused.
  | refuse _ failed =>
    obtain ⟨tree, done⟩ := (modest _ List.mem_cons_self).exists_put awaits.forest
    cases done.symm.trans failed
  | @pass _ parent child _ before _ _ _ _ _ front behind stop course placed _ ih ih' =>
    obtain ⟨growth, more, rfl, rfl, rfl⟩ := List.map_eq_cons_iff.mp tops
    obtain ⟨first, others⟩ := grows
    obtain ⟨front', before'⟩ := awaits.placed
    obtain ⟨type', below, passed⟩ := awaits.pass
    have within : ∀ id ∈ Growth.idsAll growth.children, id ∈ Growth.idsAll (growth :: more) := by
      intro id member
      rw [Growth.idsAll, growth.ids_eq]
      simp [member]
    obtain ⟨-, visited, retains⟩ := ih below (fun call member => modest call (by simp [member]))
      (Tree.growsAll_iff.mpr first.below) first.children_eq.symm fun id member => agree id (within id member)
    -- The child and its siblings are where they were.
    have listed : growth.id ∈ before.1.children parent := by simp [before']
    obtain ⟨retains, list⟩ := retains.pass awaits.forest listed
    have advances := (passed (course.spares rfl below)).2 placed
    have onward := awaits.onward advances placed
    obtain rfl := onward.forest.behind_eq (list.trans before') placed
    obtain ⟨grows', types'⟩ := retains.grows awaits.forest before' others rfl
    obtain ⟨fine, visited', retains'⟩ := ih' onward (fun call member => modest call (by simp [member]))
      grows' rfl fun id member => (types' types id member).trans (agree id (by simp [Growth.idsAll, member]))
    have stops' := agree growth.id (by simp [Growth.idsAll, growth.id_mem_ids])
    rw [stop] at stops'
    -- The child is not of the types, so its tops are those of its children.
    refine ⟨fine, ?_, retains.trans awaits.forest before' advances retains'⟩
    rw [List.map_append, visited, visited', Growth.topsAll, Growth.tops_of_not_stops stops'.symm,
      List.map_append]
  | fail _ _ ih =>
    obtain ⟨growth, more, rfl, rfl, rfl⟩ := List.map_eq_cons_iff.mp tops
    obtain ⟨first, -⟩ := grows
    obtain ⟨type', below, -⟩ := awaits.pass
    obtain ⟨fine, -⟩ := ih below modest (Tree.growsAll_iff.mpr first.below) first.children_eq.symm
      fun id member => agree id (by
        rw [Growth.idsAll, growth.ids_eq]
        simp [member])
    -- By induction nothing fails below the child.
    cases fine

end Walk

end ArgSchema
