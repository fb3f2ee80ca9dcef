import ArgSchema.Proofs.Preprocessor.Inclusion

/-! Turns: taking a token ends after finitely many of them, and none of them opens a file again. -/

namespace ArgSchema

/-- The location of a file that was opened. -/
def FileEvent.location? : FileEvent → Option Location
  | .opened location => some location
  | .refused _ | .used _ => none

namespace Preprocessor

/-- A stream cannot shrink forever. -/
theorem wellFounded_shrinks (disk : Disk) :
    WellFounded fun later stream : Preprocessor => Shrinks disk stream later :=
  Subrelation.wf Shrinks.lex (InvImage.wf (fun stream : Preprocessor => (stream.unseen disk, stream.weight))
    (Prod.lex (measure id) (measure id)).wf)

/-- A stream after some turns. -/
def turns (disk : Disk) : Nat → Preprocessor → Preprocessor
  | 0, stream => stream
  | count + 1, stream => turns disk count (stream.turn disk)

/-- What becomes of the files that a stream asks for in some turns. -/
def history (disk : Disk) : Nat → Preprocessor → List FileEvent
  | 0, _ => []
  | count + 1, stream => stream.turnEvents disk ++ history disk count (stream.turn disk)

/-- Taking a token is some turns, each of which shrinks the stream, and a last one. -/
structure PopsIn (disk : Disk) (stream : Preprocessor) (count : Nat) : Prop where
  /-- The turns shrink the stream. -/
  shrinks : ∀ turn < count, Shrinks disk (stream.turns disk turn) (stream.turns disk (turn + 1))
  /-- What is taken from the stream is what the last turn brings. -/
  result : (stream.pop disk).result = ((stream.turns disk count).pop disk).result
  /-- The last turn leaves what taking the token leaves. -/
  next : (stream.pop disk).next = stream.turns disk (count + 1)

variable {disk : Disk} {stream asked : Preprocessor} {events : List FileEvent}
  {directive name : Token}

/-- One more turn that shrinks the stream stands in front of the others. -/
theorem PopsIn.head {later : Preprocessor} {count : Nat} {reports : List Diagnostic}
    (pops : later.PopsIn disk count) (same : stream.turn disk = later)
    (shrinks : Shrinks disk stream later)
    (popped : stream.pop disk = (later.pop disk).after reports) : stream.PopsIn disk (count + 1) := by
  -- One turn comes in front of those that the later stream takes.
  subst same
  refine ⟨fun turn before => ?_, ?_, ?_⟩
  · -- The first turn shrinks the stream, and the later ones are those of the stream behind it.
    cases turn with
    | zero => exact shrinks
    | succ turn => exact pops.shrinks turn (Nat.lt_of_succ_lt_succ before)
  · rw [popped]
    exact pops.result
  · rw [popped]
    exact pops.next

/-- A token that the first turn takes. -/
theorem popsIn_zero (taken : stream.turn disk = (stream.pop disk).next) : stream.PopsIn disk 0 :=
  ⟨nofun, rfl, taken.symm⟩

/-- Taking a token takes finitely many turns. -/
theorem exists_popsIn (disk : Disk) (stream : Preprocessor) : ∃ count, stream.PopsIn disk count := by
  -- Where the stream goes on behind a directive or a file, one turn stands in front of the others.
  fun_induction Preprocessor.pop disk stream with
  | case1 stream reports failure taken =>
    exact ⟨0, popsIn_zero (by rw [turn_of_failure taken, pop_of_failure disk taken])⟩
  | case2 stream reports token taken directive carried failure failed =>
    refine ⟨0, popsIn_zero ?_⟩
    rw [turn_of_directive taken directive, pop_of_refused taken directive failed]
  | case3 stream reports token taken directive carried done ih =>
    obtain ⟨count, pops⟩ := ih
    exact ⟨_, pops.head (turn_of_directive taken directive) (shrinks_carryOut taken directive done)
      (pop_of_carried taken directive done)⟩
  | case4 stream reports token taken plain ended more outermost =>
    refine ⟨0, popsIn_zero ?_⟩
    -- Taking the end of a file leaves the files around it, so that the root file was current
    -- before.
    cases inside : stream.includes with
    | nil => rw [turn_of_end taken plain ended outermost, pop_of_end disk taken ended inside]
    | cons inner outer =>
      obtain ⟨left, deeper⟩ := includes_of_inside inside
      cases outermost.symm.trans deeper
  | case5 stream reports token taken plain ended more inner outer deeper ih =>
    obtain ⟨count, pops⟩ := ih
    -- For the same reason there is an included file to leave.
    cases inside : stream.includes with
    | nil => cases (includes_of_outermost inside).symm.trans deeper
    | cons first rest =>
      obtain ⟨left, same⟩ := includes_of_inside inside
      cases deeper.symm.trans same
      exact ⟨_, pops.head (turn_of_leave taken plain ended deeper) (shrinks_leave deeper)
        (pop_of_leave taken ended inside)⟩
  | case6 stream reports token taken plain inside =>
    refine ⟨0, popsIn_zero ?_⟩
    rw [turn_of_plain taken plain inside, pop_of_plain disk taken plain (by simpa using inside)]

/-- Some turns and then others are all of them. -/
theorem turns_add (disk : Disk) (count more : Nat) (stream : Preprocessor) :
    stream.turns disk (count + more) = (stream.turns disk count).turns disk more := by
  -- By induction on the turns that come first.
  induction count generalizing stream with
  | zero => rw [Nat.zero_add, turns]
  | succ count ih => rw [Nat.succ_add, turns, turns, ih]

/-- Turns lead on from where earlier ones led. -/
theorem Visited.turns (visited : Visited disk stream events) (count : Nat) :
    Visited disk (stream.turns disk count) (events ++ stream.history disk count) := by
  -- By induction on the turns, with the events of the first moved into what was seen.
  induction count generalizing stream events with
  | zero => rwa [history, List.append_nil]
  | succ count ih =>
    rw [history, ← List.append_assoc]
    exact ih visited.turn

/-- No two of the files that were opened are the same one. -/
theorem Visited.opens_once (visited : Visited disk stream events) :
    (events.filterMap FileEvent.location?).Nodup := by
  -- The keys that were seen are those of the events, and they are different.
  obtain ⟨seen, distinct⟩ := visited.seen_eq
  rw [seen] at distinct
  refine List.pairwise_filterMap.mpr ((List.pairwise_map.mp distinct).imp ?_)
  intro first second different here opened there again
  -- Only opened files have locations, and at one location they would share a key.
  cases first <;> cases opened
  cases second <;> cases again
  exact fun same => different (by rw [same])

/-- An include of a file that was opened does nothing, however its path is spelled. -/
theorem Visited.skips_opened (visited : Visited disk stream events)
    (asks : stream.Asks directive name asked)
    (opened : IsOpened disk events (asked.includePath name.text)) : Skips disk stream name asked := by
  -- However it is spelled, the path has the key that was seen when the file was opened.
  have known := isAmong_iff.mpr (.inl opened)
  rw [← visited.seen_eq.1, ← (asks.carryOut disk).1] at known
  rcases includeFile_cases disk name asked with ⟨-, here, -⟩ | ⟨fresh, -⟩ | ⟨fresh, -⟩
  · exact ⟨here, asks.pop_of_done here⟩
  · cases fresh.symm.trans known
  · cases fresh.symm.trans known

end Preprocessor

end ArgSchema
