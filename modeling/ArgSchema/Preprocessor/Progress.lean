import ArgSchema.Preprocessor.Directive

/-! Every directive either opens a file for the first time or leaves hardly more than it found. -/

namespace ArgSchema.Preprocessor

/-- The later stream has fewer files to open, or no more of them and little more to read. -/
def Advances (disk : Disk) (extra : Nat) (stream later : Preprocessor) : Prop :=
  later.unseen disk < stream.unseen disk ∨
    (later.unseen disk = stream.unseen disk ∧ later.weight ≤ stream.weight + extra)

/-- A change that keeps the files seen advances by its weight. -/
theorem Advances.of_seen {disk : Disk} {extra : Nat} {stream later : Preprocessor}
    (seen : later.seen = stream.seen) (weight : later.weight ≤ stream.weight + extra) :
    Advances disk extra stream later :=
  .inr ⟨by simp [unseen, seen], weight⟩

/-- Steps that add no weight can stand in front of others. -/
theorem Advances.trans {disk : Disk} {first second : Nat} {a b c : Preprocessor}
    (start : Advances disk first a b) (rest : Advances disk second b c) :
    Advances disk (first + second) a c := by
  unfold Advances at *
  omega

/-- Changing the lexer of the current file advances by the difference in weight. -/
theorem advances_setCurrent {disk : Disk} {extra : Nat} {stream : Preprocessor} {frame : Frame}
    (weight : frame.lexer.weight ≤ stream.current.lexer.weight + extra) :
    Advances disk extra stream (stream.setCurrent frame) := by
  -- Nothing outside the current file changes, so the weights differ as the lexers' do.
  refine .of_seen (seen_setCurrent stream frame) ?_
  have := weight_setCurrent stream frame
  omega

/-- Entering a file that was not seen leaves fewer files to open. -/
theorem advances_enter {disk : Disk} {stream : Preprocessor} {key : FileKey} (frame : Frame)
    (fresh : key.isAmong stream.seen = false) (member : key ∈ openable disk) :
    Advances disk 0 stream ((stream.see key).enter frame) :=
  .inl (unseen_lt rfl fresh member)

/-- Including a file by its path leaves fewer files to open, unless nothing happens. -/
theorem advances_includeFile {disk : Disk} {name : Token} {stream : Preprocessor}
    (done : (stream.includeFile disk name).result = .ok ()) :
    Advances disk 0 stream (stream.includeFile disk name).next := by
  unfold includeFile at done ⊢
  simp only at done ⊢
  split
  · exact .of_seen rfl (Nat.le_refl _)
  · next fresh =>
    cases opened : disk.read (stream.includePath name.text) with
    | error error => simp [fresh, opened, Reading.fail] at done
    | ok source =>
      obtain ⟨location, located, member⟩ := Disk.locate_of_read opened
      have key : FileKey.ofPath disk (stream.includePath name.text) = .located location := by
        simp [FileKey.ofPath, located]
      refine advances_enter _ (by simpa using fresh) ?_
      -- A file that was read stands among the files of the disk.
      obtain ⟨file, stored, same⟩ := List.mem_map.mp member
      rw [key, ← same]
      exact List.mem_append_left _ (List.mem_map.mpr ⟨file, stored, rfl⟩)

/-- Including a library file leaves fewer files to open, unless nothing happens. -/
theorem advances_includeLibrary (disk : Disk) (name : Token) (stream : Preprocessor) :
    Advances disk 0 stream (stream.includeLibrary name).next := by
  unfold includeLibrary
  -- Only a name in the library that was not seen before enters a file.
  split
  · exact .of_seen rfl (Nat.le_refl _)
  · next file found =>
    simp only
    split
    · exact .of_seen rfl (Nat.le_refl _)
    · next fresh =>
      refine advances_enter _ (by simpa using fresh) ?_
      exact List.mem_append_right _
        (List.mem_map.mpr ⟨file, List.mem_of_find?_eq_some found, rfl⟩)

/-- Taking the token behind a directive and going on with it advances if going on does. -/
theorem advances_argument {disk : Disk} {directive : Token} {expected : String}
    {accepts : TokenKind → Bool} {stream : Preprocessor}
    {goOn : Token → Preprocessor → Reading Preprocessor Unit}
    (later : ∀ name next, (goOn name next).result = .ok () →
      Advances disk 1 next (goOn name next).next)
    (done : ((stream.onCurrent (Frame.argument directive expected accepts)).andThen
      fun name? next => match name? with
        | none => .ok () next
        | some name => goOn name next).result = .ok ()) :
    Advances disk 1 stream ((stream.onCurrent (Frame.argument directive expected accepts)).andThen
      fun name? next => match name? with
        | none => .ok () next
        | some name => goOn name next).next := by
  unfold Reading.andThen onCurrent at done ⊢
  simp only [Reading.mapNext] at done ⊢
  -- The argument is taken from the current file or put back, so the file does not grow.
  cases taken : (stream.current.argument directive expected accepts).result with
  | error failure => simp [taken] at done
  | ok name? =>
    cases name? with
    | none => exact advances_setCurrent (Frame.argument_weight ..)
    | some name =>
      simp only [taken, Reading.after] at done ⊢
      have start : Advances disk 0 stream (stream.setCurrent
          (stream.current.argument directive expected accepts).next) :=
        advances_setCurrent (Frame.argument_weight_some taken)
      simpa using start.trans (later name _ done)

/-- A step that adds no weight adds at most one unit. -/
theorem Advances.weaken {disk : Disk} {stream later : Preprocessor}
    (step : Advances disk 0 stream later) : Advances disk 1 stream later := by
  unfold Advances at *
  omega

/-- Deciding on a conditional adds at most the end token that stops a skip. -/
theorem advances_startConditional (disk : Disk) (directive : Token) (wanted : Bool) (name : Token)
    (stream : Preprocessor) :
    Advances disk 1 stream (stream.startConditional directive wanted name).next := by
  unfold startConditional
  simp only
  -- A condition that holds opens a block, and one that fails skips text of the current file.
  split
  · exact advances_setCurrent (Nat.le_succ _)
  · have skipped : Advances disk 1 stream
        (stream.onCurrent fun frame =>
          (frame.lexer.skipConditional 0).mapNext frame.withLexer).next :=
      advances_setCurrent (Lexer.weight_skipConditional ..)
    unfold Reading.andThen
    split
    · simp only [Reading.after]
      split <;> exact skipped
    · exact skipped

/-- Carrying out a directive advances the stream. -/
theorem advances_carryOut {disk : Disk} {directive : Token} {stream : Preprocessor}
    (done : (stream.carryOut disk directive).result = .ok ()) :
    Advances disk 1 stream (stream.carryOut disk directive).next := by
  unfold carryOut at done ⊢
  -- One case for each directive, an unknown one first.
  split at done
  · exact .of_seen rfl (Nat.le_succ _)
  · refine advances_argument (fun name next done => ?_) done
    split at done
    · next string => simpa [string] using (advances_includeFile done).weaken
    · next string => simpa [string] using (advances_includeLibrary disk name next).weaken
  · refine advances_argument (fun name next _ => ?_) done
    unfold define
    split <;> exact .of_seen rfl (Nat.le_succ _)
  · refine advances_argument (fun name next _ => ?_) done
    unfold undefine
    split <;> exact .of_seen rfl (Nat.le_succ _)
  · exact advances_argument (fun name next _ => advances_startConditional ..) done
  · unfold endConditional
    simp only
    split
    · exact .of_seen rfl (Nat.le_succ _)
    · exact advances_setCurrent (Nat.le_succ _)

end ArgSchema.Preprocessor
