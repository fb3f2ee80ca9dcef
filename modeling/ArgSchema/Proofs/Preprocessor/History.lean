import ArgSchema.Proofs.Preprocessor.Steps

/-! History: what became of the files that a stream asked for, turn by turn of taking its tokens. -/

namespace ArgSchema

/-- What became of a file that a stream asked for. -/
inductive FileEvent where
  /-- The file at a location was opened. -/
  | opened (location : Location)
  /-- The file of a key could not be read. -/
  | refused (key : FileKey)
  /-- A file that comes with the compiler was opened. -/
  | used (file : LibraryFile)

/-- The key of a file that was asked for. -/
def FileEvent.key : FileEvent → FileKey
  | .opened location => .located location
  | .refused key => key
  | .used file => .unlocated file.marker

namespace Preprocessor

/-- The name behind an include, if it has one, and the stream behind the name. -/
def includeName? (directive : Token) (stream : Preprocessor) : Option (Token × Preprocessor) :=
  let named :=
    stream.onCurrent (Frame.argument directive "string or built-in identifier" namesInclude)
  match named.result with
  | .ok (some name) => some (name, named.next)
  | _ => none

/-- What becomes of the file that an include names by its path. -/
def fileEvents (disk : Disk) (name : Token) (stream : Preprocessor) : List FileEvent :=
  let path := stream.includePath name.text
  -- An include that changes nothing leaves no trace.
  if (stream.includeFile disk name).next = stream then []
  else match disk.read path, disk.locate path with
    | .ok _, .ok location => [.opened location]
    | _, _ => [.refused (FileKey.ofPath disk path)]

/-- What becomes of the file that an include names among those that come with the compiler. -/
def libraryEvents (name : Token) (stream : Preprocessor) : List FileEvent :=
  if (stream.includeLibrary name).next = stream then []
  else (LibraryFile.find? name.text).toList.map .used

/-- What becomes of the file that an include asks for. -/
def includeEvents (disk : Disk) (directive : Token) (stream : Preprocessor) : List FileEvent :=
  match stream.includeName? directive with
  | some (name, asked) =>
    if name.kind = .string then asked.fileEvents disk name else asked.libraryEvents name
  | none => []

/-- What becomes of the file that a directive asks for; only an include asks for one. -/
def carryEvents (disk : Disk) (directive : Token) (stream : Preprocessor) : List FileEvent :=
  match Directive.ofName? directive.text with
  | some .include => stream.includeEvents disk directive
  | _ => []

/-- One turn of taking a token: the current file gives its next token, a directive is carried out, and
at the end of an included file the stream goes on behind the include. -/
def turn (disk : Disk) (stream : Preprocessor) : Preprocessor :=
  match stream.current.lexer.pop.result with
  | .error _ => stream.afterToken
  | .ok token =>
    if token.kind = .directive then (stream.afterToken.carryOut disk token).next
    else if token.isEnd then
      match stream.afterToken.forgetConditionals.includes with
      -- The last file has ended, and so has the stream.
      | [] => { stream.afterToken.forgetConditionals with done := true }
      | _ :: outer => stream.afterToken.forgetConditionals.leave outer
    else stream.afterToken

/-- What becomes of the file that a turn asks for. -/
def turnEvents (disk : Disk) (stream : Preprocessor) : List FileEvent :=
  match stream.current.lexer.pop.result with
  | .error _ => []
  | .ok token =>
    if token.kind = .directive then stream.afterToken.carryEvents disk token else []

variable {disk : Disk} {stream : Preprocessor} {token : Token} {why : Failure}

/-- A turn that fails leaves the stream behind what cannot be read. -/
theorem turn_of_failure (failed : stream.current.lexer.pop.result = .error why) :
    stream.turn disk = stream.afterToken := by
  simp only [turn, failed]

/-- A turn that brings a token leaves the stream behind the token. -/
theorem turn_of_plain (taken : stream.current.lexer.pop.result = .ok token)
    (plain : token.kind ≠ .directive) (inside : token.isEnd ≠ true) :
    stream.turn disk = stream.afterToken := by
  simp only [turn, taken, if_neg plain, if_neg inside]

/-- A turn that meets a directive carries it out. -/
theorem turn_of_directive (taken : stream.current.lexer.pop.result = .ok token)
    (directive : token.kind = .directive) :
    stream.turn disk = (stream.afterToken.carryOut disk token).next := by
  simp only [turn, taken, if_pos directive]

/-- A turn at the end of the root file is the last one that changes anything. -/
theorem turn_of_end (taken : stream.current.lexer.pop.result = .ok token)
    (plain : token.kind ≠ .directive) (ended : token.isEnd = true)
    (outermost : stream.afterToken.forgetConditionals.includes = []) :
    stream.turn disk = { stream.afterToken.forgetConditionals with done := true } := by
  simp only [turn, taken, if_neg plain, if_pos ended, outermost]

/-- A turn at the end of an included file leads behind the include. -/
theorem turn_of_leave {inner : Frame} {outer : List Frame}
    (taken : stream.current.lexer.pop.result = .ok token) (plain : token.kind ≠ .directive)
    (ended : token.isEnd = true)
    (inside : stream.afterToken.forgetConditionals.includes = inner :: outer) :
    stream.turn disk = stream.afterToken.forgetConditionals.leave outer := by
  simp only [turn, taken, if_neg plain, if_pos ended, inside]

/-- Streams that taking tokens leads to, before each turn, with what became of the files so far. -/
inductive Visited (disk : Disk) : Preprocessor → List FileEvent → Prop
  /-- The stream of a source under a name. -/
  | source (name : String) (text : Bytes) (defines : List String) :
      Visited disk (ofSource name text defines) []
  /-- The stream of the file that a path leads to. -/
  | file {path : String} {defines : List String} {stream : Preprocessor} {location : Location} :
      openFile disk path defines = .ok stream → disk.locate path = .ok location →
      Visited disk stream [.opened location]
  /-- One more turn. -/
  | turn {stream : Preprocessor} {events : List FileEvent} : Visited disk stream events →
      Visited disk (stream.turn disk) (events ++ stream.turnEvents disk)

/-- One more turn, whose outcome is known. -/
theorem Visited.turn_eq {events : List FileEvent} {later : Preprocessor}
    (visited : Visited disk stream events) (same : stream.turn disk = later) :
    Visited disk later (events ++ stream.turnEvents disk) :=
  same ▸ visited.turn

/-- Taking a token is one turn after the other. -/
theorem exists_visited_pop (disk : Disk) (stream : Preprocessor) :
    ∀ events, Visited disk stream events →
      ∃ more, Visited disk (stream.pop disk).next (events ++ more) := by
  -- Each step is a turn; behind a directive and at the end of an included file more turns follow.
  fun_induction Preprocessor.pop disk stream with
  | case1 stream reports failure taken =>
    intro events visited
    exact ⟨_, visited.turn_eq (turn_of_failure taken)⟩
  | case2 stream reports token taken directive carried failure =>
    intro events visited
    exact ⟨_, visited.turn_eq (turn_of_directive taken directive)⟩
  | case3 stream reports token taken directive carried done ih =>
    intro events visited
    obtain ⟨more, later⟩ := ih _ (visited.turn_eq (turn_of_directive taken directive))
    exact ⟨_, by rwa [List.append_assoc] at later⟩
  | case4 stream reports token taken directive ended more outermost =>
    intro events visited
    exact ⟨_, visited.turn_eq (turn_of_end taken directive ended outermost)⟩
  | case5 stream reports token taken directive ended more inner outer deeper ih =>
    intro events visited
    obtain ⟨more, later⟩ := ih _ (visited.turn_eq (turn_of_leave taken directive ended deeper))
    exact ⟨_, by rwa [List.append_assoc] at later⟩
  | case6 stream reports token taken directive inside =>
    intro events visited
    exact ⟨_, visited.turn_eq (turn_of_plain taken directive inside)⟩

/-- Seeing one more file is a change. -/
theorem see_ne (stream : Preprocessor) (key : FileKey) {later : Preprocessor}
    (seen : later.seen = stream.seen ++ [key]) : later ≠ stream := by
  -- A list is not the same with one more member.
  rintro rfl
  have longer := congrArg List.length seen
  simp at longer

/-- An include by path looks for its key among those seen, and then reads the file. -/
theorem includeFile_eq (disk : Disk) (name : Token) (stream : Preprocessor) :
    let path := stream.includePath name.text
    let key := FileKey.ofPath disk path
    stream.includeFile disk name = if key.isAmong stream.seen then .ok () stream
      else match disk.read path with
        | .error error =>
          .fail (.unreadable path error.message (some name.span)) (stream.see key)
        | .ok source => .ok () ((stream.see key).enter
          (Frame.ofSource source (stream.breadcrumb ++ [name.text]) (Path.parent? path))) := rfl

/-- An include by path does nothing if its key was seen; otherwise the key is seen now, and the file
is entered or the include fails. -/
theorem includeFile_cases (disk : Disk) (name : Token) (stream : Preprocessor) :
    let path := stream.includePath name.text
    let key := FileKey.ofPath disk path
    (key.isAmong stream.seen = true ∧ stream.includeFile disk name = .ok () stream ∧
        stream.fileEvents disk name = []) ∨
      (key.isAmong stream.seen = false ∧ ∃ error, disk.read path = .error error ∧
        stream.includeFile disk name =
          .fail (.unreadable path error.message (some name.span)) (stream.see key) ∧
        stream.fileEvents disk name = [.refused key]) ∨
      (key.isAmong stream.seen = false ∧ ∃ source location, disk.read path = .ok source ∧
        disk.locate path = .ok location ∧
        stream.includeFile disk name = .ok () ((stream.see key).enter
          (Frame.ofSource source (stream.breadcrumb ++ [name.text]) (Path.parent? path))) ∧
        stream.fileEvents disk name = [.opened location]) := by
  intro path key
  have shape := includeFile_eq disk name stream
  -- A key that is new is seen even if the file cannot be read, so the stream changes and leaves a
  -- trace.
  cases seen : key.isAmong stream.seen with
  -- The stream is as it was, so there is no event.
  | true =>
    have here : stream.includeFile disk name = .ok () stream := by rw [shape, if_pos seen]
    exact .inl ⟨rfl, here, by rw [fileEvents, here]; exact if_pos rfl⟩
  | false =>
    have fresh : ¬key.isAmong stream.seen = true := by simp [seen]
    cases opened : disk.read path with
    -- The key is seen now, although there is no such file.
    | error error =>
      have here : stream.includeFile disk name =
          .fail (.unreadable path error.message (some name.span)) (stream.see key) := by
        rw [shape, if_neg fresh, opened]
      refine .inr (.inl ⟨rfl, error, rfl, here, ?_⟩)
      rw [fileEvents, here]
      exact (if_neg (see_ne stream key rfl)).trans (by rw [opened])
    | ok source =>
      -- What can be read has a location, which is what was opened.
      obtain ⟨location, located, -⟩ := Disk.locate_of_read opened
      have here : stream.includeFile disk name = .ok () ((stream.see key).enter
          (Frame.ofSource source (stream.breadcrumb ++ [name.text]) (Path.parent? path))) := by
        rw [shape, if_neg fresh, opened]
      refine .inr (.inr ⟨rfl, source, location, rfl, located, here, ?_⟩)
      rw [fileEvents, here]
      exact (if_neg (see_ne stream key rfl)).trans (by rw [opened, located])

/-- An include of a file that comes with the compiler does nothing if there is no such file or its
marker was seen; otherwise the marker is seen now, and the file is entered. -/
theorem includeLibrary_cases (name : Token) (stream : Preprocessor) :
    ((stream.includeLibrary name).next = stream ∧ stream.libraryEvents name = []) ∨
      ∃ file frame, (FileKey.unlocated file.marker).isAmong stream.seen = false ∧
        stream.includeLibrary name = .ok () ((stream.see (.unlocated file.marker)).enter frame) ∧
        stream.libraryEvents name = [.used file] := by
  -- The file is unknown, or was included before, or is entered now.
  unfold libraryEvents includeLibrary
  cases found : LibraryFile.find? name.text with
  | none => exact .inl ⟨rfl, if_pos rfl⟩
  | some file =>
    cases seen : (FileKey.unlocated file.marker).isAmong stream.seen with
    | true =>
      simp only [seen, if_true]
      exact .inl ⟨rfl, if_pos rfl⟩
    | false =>
      simp only [seen, Bool.false_eq_true, if_false]
      exact .inr ⟨file, _, seen, rfl, if_neg (see_ne stream _ rfl)⟩

/-- What a later stream has seen on top of an earlier one: nothing, or one file for the first time. -/
inductive Sees (stream later : Preprocessor) : List FileEvent → Prop
  /-- The same files were seen. -/
  | nothing : later.seen = stream.seen → Sees stream later []
  /-- One more file was seen. -/
  | one {event : FileEvent} : event.key.isAmong stream.seen = false →
      later.seen = stream.seen ++ [event.key] → Sees stream later [event]

/-- Including a file by its path sees at most this file. -/
theorem sees_includeFile (disk : Disk) (name : Token) (stream : Preprocessor) :
    Sees stream (stream.includeFile disk name).next (stream.fileEvents disk name) := by
  rcases includeFile_cases disk name stream with ⟨-, here, events⟩ |
    ⟨fresh, error, -, here, events⟩ | ⟨fresh, source, location, -, located, here, events⟩
  · rw [here, events]
    exact .nothing rfl
  · rw [here, events]
    exact .one fresh rfl
  · rw [here, events]
    -- The location of the file is its key.
    have key : FileKey.ofPath disk (stream.includePath name.text) = .located location := by
      rw [FileKey.ofPath, located]
    rw [key] at fresh ⊢
    exact .one fresh rfl

/-- Including a file that comes with the compiler sees at most this file. -/
theorem sees_includeLibrary (name : Token) (stream : Preprocessor) :
    Sees stream (stream.includeLibrary name).next (stream.libraryEvents name) := by
  -- An event stands exactly where a key is newly seen.
  rcases includeLibrary_cases name stream with ⟨here, events⟩ | ⟨file, frame, fresh, here, events⟩
  · rw [here, events]
    exact .nothing rfl
  · rw [here, events]
    exact .one fresh rfl

/-- An include with a name includes what it names, with the files seen that were seen before. -/
theorem includeNamed_of_name (disk : Disk) {directive name : Token} {asked : Preprocessor}
    (named : stream.includeName? directive = some (name, asked)) :
    asked.seen = stream.seen ∧ ∃ reports, stream.includeNamed disk directive =
      (if name.kind = .string then asked.includeFile disk name
        else asked.includeLibrary name).after reports := by
  unfold includeName? at named
  simp only at named
  -- A name is there only if the argument was read, and then nothing else was done.
  split at named
  · next given =>
    cases named
    refine ⟨seen_setCurrent _ _, (stream.onCurrent (Frame.argument directive
      "string or built-in identifier" namesInclude)).reports, ?_⟩
    unfold includeNamed Reading.andThen
    simp only [given]
  · cases named

/-- The token behind a directive is taken without any file being seen. -/
theorem seen_argument {directive : Token} {expected : String} {accepts : TokenKind → Bool}
    {goOn : Token → Preprocessor → Reading Preprocessor Unit}
    (same : ∀ name next, (stream.onCurrent (Frame.argument directive expected accepts)).result =
      .ok (some name) → (goOn name next).next.seen = next.seen) :
    ((stream.onCurrent (Frame.argument directive expected accepts)).andThen
      fun name? next => match name? with
        | none => .ok () next
        | some name => goOn name next).next.seen = stream.seen := by
  have taken := seen_setCurrent stream (stream.current.argument directive expected accepts).next
  unfold Reading.andThen
  -- Taking the argument changes the current file only.
  cases given : (stream.onCurrent (Frame.argument directive expected accepts)).result with
  | error failure => exact taken
  | ok name? =>
    cases name? with
    | none => exact taken
    | some name => exact (same name _ given).trans taken

/-- An include without a name sees nothing. -/
theorem seen_includeNamed {directive : Token} (unnamed : stream.includeName? directive = none) :
    (stream.includeNamed disk directive).next.seen = stream.seen := by
  refine seen_argument fun name next given => ?_
  simp [includeName?, given] at unnamed

/-- Deciding on a conditional sees nothing. -/
theorem seen_startConditional (directive : Token) (wanted : Bool) (name : Token)
    (stream : Preprocessor) :
    (stream.startConditional directive wanted name).next.seen = stream.seen := by
  -- A conditional changes the current file only, whether it is skipped or not.
  have skipped : ∀ frame, (stream.setCurrent frame).seen = stream.seen := seen_setCurrent stream
  unfold startConditional
  simp only
  split
  · exact skipped _
  · unfold Reading.andThen
    split
    · simp only [Reading.after]
      split <;> exact skipped _
    · exact skipped _

/-- A file seen on top of others is seen on top of the same others. -/
theorem Sees.of_seen {first later : Preprocessor} {events : List FileEvent}
    (sees : Sees first later events) (same : first.seen = stream.seen) :
    Sees stream later events := by
  -- Whether a key is fresh is asked of the seen keys alone.
  cases sees with
  | nothing kept => exact .nothing (kept.trans same)
  | one fresh seen =>
    rw [same] at fresh seen
    exact .one fresh seen

/-- An include sees the file that it asks for. -/
theorem sees_includeNamed (disk : Disk) (directive : Token) (stream : Preprocessor) :
    Sees stream (stream.includeNamed disk directive).next (stream.includeEvents disk directive) := by
  unfold includeEvents
  split
  · next name asked named =>
    -- Taking the name sees no file.
    obtain ⟨before, reports, here⟩ := includeNamed_of_name disk named
    rw [here]
    split
    · exact (sees_includeFile disk name asked).of_seen before
    · exact (sees_includeLibrary name asked).of_seen before
  · next unnamed => exact .nothing (seen_includeNamed unnamed)

/-- Carrying out a directive sees the file that it asks for, if it asks for one. -/
theorem sees_carryOut (disk : Disk) (directive : Token) (stream : Preprocessor) :
    Sees stream (stream.carryOut disk directive).next (stream.carryEvents disk directive) := by
  unfold carryOut carryEvents
  cases Directive.ofName? directive.text with
  | none => exact .nothing rfl
  | some found =>
    cases found with
    | «include» => exact sees_includeNamed disk directive stream
    | define =>
      -- Names are no files.
      refine .nothing (seen_argument fun name next _ => ?_)
      unfold define
      split <;> rfl
    | undefine =>
      refine .nothing (seen_argument fun name next _ => ?_)
      unfold undefine
      split <;> rfl
    | conditional wanted => exact .nothing (seen_argument fun _ _ _ => seen_startConditional ..)
    | endif =>
      refine .nothing ?_
      simp only [endConditional]
      split
      · rfl
      · exact seen_setCurrent _ _

/-- A turn sees the file that it asks for, if it asks for one. -/
theorem sees_turn (disk : Disk) (stream : Preprocessor) :
    Sees stream (stream.turn disk) (stream.turnEvents disk) := by
  -- Neither the token nor what is forgotten at the end has anything to do with files seen.
  have taken : stream.afterToken.seen = stream.seen := seen_setCurrent _ _
  have forgot : stream.afterToken.forgetConditionals.seen = stream.seen :=
    (seen_setCurrent _ _).trans taken
  unfold turn turnEvents
  split
  · exact .nothing taken
  · split
    · exact (sees_carryOut disk _ stream.afterToken).of_seen taken
    · split
      · split
        · exact .nothing forgot
        · exact .nothing forgot
      · exact .nothing taken

/-- Keys of different files. -/
def Distinct (keys : List FileKey) : Prop := keys.Pairwise fun a b => a.components ≠ b.components

/-- The files that are seen are added, and they stay different from one another. -/
theorem Sees.append {later : Preprocessor} {events : List FileEvent}
    (sees : Sees stream later events) (distinct : Distinct stream.seen) :
    later.seen = stream.seen ++ events.map FileEvent.key ∧ Distinct later.seen := by
  cases sees with
  | nothing kept =>
    rw [kept]
    exact ⟨(List.append_nil _).symm, distinct⟩
  | @one event fresh seen =>
    refine ⟨seen, seen ▸ List.pairwise_append.mpr ⟨distinct, List.pairwise_singleton _ _, ?_⟩⟩
    intro key member other last same
    obtain rfl := List.mem_singleton.mp last
    -- The key was looked for among those seen before it was entered.
    rw [FileKey.isAmong, List.any_eq_false] at fresh
    exact fresh key member (decide_eq_true same)

/-- A stream has seen the files that were asked for and no others, each once. -/
theorem Visited.seen_eq {events : List FileEvent} (visited : Visited disk stream events) :
    stream.seen = events.map FileEvent.key ∧ Distinct stream.seen := by
  induction visited with
  | source => exact ⟨rfl, .nil⟩
  -- A file that was opened first has been seen.
  | @file path _ _ location opened located =>
    unfold openFile at opened
    split at opened
    · cases opened
    · cases opened
      refine ⟨?_, List.pairwise_singleton _ _⟩
      simp [FileEvent.key, FileKey.ofPath, located]
  | @turn stream events _ ih =>
    -- One turn adds the key of the file that it asks for, if it is new.
    obtain ⟨before, distinct⟩ := ih
    obtain ⟨seen, still⟩ := (sees_turn disk stream).append distinct
    rw [before, ← List.map_append] at seen
    exact ⟨seen, still⟩

end Preprocessor

end ArgSchema
