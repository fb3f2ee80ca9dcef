import ArgSchema.Proofs.Walk.Courses

/-! Replies in a course: what the tree and the state become from visit to visit, and what is refused. -/

namespace ArgSchema

namespace Walk

variable {state : Type}

/-- Visits one after the other: each finds the tree in which the answer of the one before it stands in
its place, and the state which that one left, until an answer is refused. -/
inductive Threads (reply : Call state → Reply state) :
    Tree × state → List (Call state) → Except TreeError Unit → Tree × state → Prop
  /-- There are no visits. -/
  | done {before} : Threads reply before [] (.ok ()) before
  /-- The answer of the first visit is put in place. -/
  | put {id before tree calls outcome after} : Call.put reply ⟨id, before⟩ = .ok tree →
      Threads reply (tree, (reply ⟨id, before⟩).own) calls outcome after →
      Threads reply before (⟨id, before⟩ :: calls) outcome after
  /-- The answer of the only visit is refused. -/
  | refuse {id before error} : Call.put reply ⟨id, before⟩ = .error error →
      Threads reply before [⟨id, before⟩] (.error error) (Call.left reply ⟨id, before⟩)

variable {types : NodeTypes} {reply : Call state → Reply state} {steps : Nat}
  {parent : NodeId} {ahead : List NodeId} {before middle after : Tree × state}
  {calls more : List (Call state)} {outcome : Except TreeError Unit}

namespace Threads

/-- Visits come after others that are not refused. -/
theorem append (first : Threads reply before calls (.ok ()) middle)
    (second : Threads reply middle more outcome after) :
    Threads reply before (calls ++ more) outcome after := by
  -- That nothing is refused must be known in each case of the induction.
  generalize ended : (Except.ok () : Except TreeError Unit) = fine at first
  induction first with
  | done => exact second
  | put done _ ih => exact .put done (ih second ended)
  | refuse => cases ended

/-- Visits whose answers are the visited nodes are never refused, and nothing but nodes is made. -/
theorem unchanged (threads : Threads reply before calls outcome after)
    (same : ∀ call ∈ calls, (reply call).answer = call.id) :
    outcome = .ok () ∧ after.1 = before.1.allocAll (calls.flatMap fun call => (reply call).made) := by
  induction threads with
  | done => exact ⟨rfl, rfl⟩
  | @put id before tree calls _ _ done _ ih =>
    -- The answer is the visited node, which is put in its own place.
    have own : (reply ⟨id, before⟩).answer = id := same _ (by simp)
    rw [Call.put, own, Tree.put_self] at done
    cases done
    obtain ⟨fine, left⟩ := ih fun call member => same call (by simp [member])
    refine ⟨fine, left.trans ?_⟩
    rw [List.flatMap_cons, Tree.allocAll_append]
    rfl
  | @refuse id before _ failed =>
    have own : (reply ⟨id, before⟩).answer = id := same _ (by simp)
    rw [Call.put, own, Tree.put_self] at failed
    -- A node is never refused in its own place.
    cases failed

/-- If visits end with a refusal, the last answer could not be put in place. -/
theorem refused (threads : Threads reply before calls outcome after) (forest : before.1.Forest)
    {error : TreeError} (failed : outcome = .error error) :
    ∃ call, calls.getLast? = some call ∧
      (call.left reply).1.Refused call.id (reply call).answer error := by
  induction threads with
  | done => cases failed
  | @put id before tree calls _ _ done _ ih =>
    have made := before.1.develops_allocAll (reply ⟨id, before⟩).made
    -- The first answer was put in place, so the refusal is one of the rest.
    obtain ⟨call, last, refused⟩ := ih ((Tree.Develops.put done).forest (made.forest forest)) failed
    refine ⟨call, ?_, refused⟩
    rw [List.getLast?_cons, last]
    rfl
  | @refuse id before _ rejected =>
    cases failed
    have made := before.1.develops_allocAll (reply ⟨id, before⟩).made
    exact ⟨_, rfl, (made.forest forest).put_refused rejected⟩

end Threads

/-- A course is a thread of its visits, whatever is passed in between. -/
theorem Course.threads (course : Course types reply steps parent ahead before calls outcome after) :
    Threads reply before calls outcome after := by
  -- A course is a thread of its calls, whatever the shape of the tree it takes.
  induction course with
  | done => exact .done
  | visit _ put _ _ ih => exact .put put ih
  | refuse _ put => exact .refuse put
  | pass _ _ _ _ ih ih' => exact ih.append ih'
  | fail _ _ ih => exact ih

/-- The replies of a visitor that notes its visits in front of its state. -/
def noting (reply : Call state → Reply state) (call : Call (List (Call state) × state)) :
    Reply (List (Call state) × state) :=
  let seen : Call state := ⟨call.id, call.before.1, call.before.2.2⟩
  ⟨(reply seen).made, (reply seen).answer, call.before.2.1 ++ [seen], (reply seen).own⟩

/-- Noting visits changes nothing else in a course, and its visits are what is noted. -/
theorem Course.noting (course : Course types reply steps parent ahead before calls outcome after)
    (notes : List (Call state)) :
    ∃ noted, Course types (noting reply) steps parent ahead (before.1, notes, before.2) noted outcome
      (after.1, notes ++ calls, after.2) := by
  induction course generalizing notes with
  | done => exact ⟨[], by simpa using .done⟩
  | @visit _ _ child _ before _ _ _ _ _ _ stop put placed _ ih =>
    -- The visit is noted before what comes behind it.
    obtain ⟨noted, course⟩ := ih (notes ++ [⟨child, before⟩])
    rw [List.append_assoc] at course
    exact ⟨_, .visit stop put placed course⟩
  | refuse stop put => exact ⟨_, .refuse stop put⟩
  | pass stop _ placed _ ih ih' =>
    -- What is noted below the child comes in front of what is noted behind it.
    obtain ⟨noted, course⟩ := ih notes
    obtain ⟨noted', course'⟩ := ih' (notes ++ _)
    rw [List.append_assoc] at course'
    exact ⟨_, .pass stop course placed course'⟩
  | fail stop _ ih =>
    obtain ⟨noted, course⟩ := ih notes
    exact ⟨_, .fail stop course⟩

end Walk

end ArgSchema
