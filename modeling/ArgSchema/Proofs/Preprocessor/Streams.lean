import ArgSchema.Proofs.Preprocessor.Origin
import ArgSchema.Proofs.Preprocessor.Outcome

/-! The stream of a root file and the files it includes brings what splicing the root file brings. -/

namespace ArgSchema

/-- Where the text of a file comes from. -/
def Frame.place (frame : Frame) : TextPlace := ⟨frame.lexer.breadcrumb, frame.directory?⟩

namespace Preprocessor

/-- What the files of a stream share. -/
def scope (stream : Preprocessor) : Scope :=
  ⟨stream.defines.toFinset, (stream.seen.map FileKey.components).toFinset⟩

/-- The root file and the files that include the current one, unless that is the root file. -/
def surroundings (stream : Preprocessor) : Option (Frame × List Frame) :=
  match stream.includes with
  | [] => none
  | _ :: outer => some (stream.root, outer)

/-- A stream reads a text in its place, with other files around it. -/
structure Reads (stream : Preprocessor) (around : Option (Frame × List Frame)) (place : TextPlace)
    (opens : List Conditional) (scope : Scope) (raw : RawText) : Prop where
  /-- The files around the text. -/
  around : stream.surroundings = around
  /-- The place of the text. -/
  place : stream.current.place = place
  /-- Conditionals are open. -/
  opens : stream.current.conditionals = opens
  /-- Names are defined, and files were seen. -/
  scope : stream.scope = scope
  /-- The text goes on. -/
  raw : stream.current.lexer.raw = raw

/-- An answer to a directive is what the directive is told to do. -/
def Does (around : Option (Frame × List Frame)) (place : TextPlace) (opens : List Conditional)
    (scope : Scope) (reading : Reading Preprocessor Unit) (told : List Diagnostic × Deed) : Prop :=
  reading.reports = told.1 ∧ match told.2 with
  | .fails why => reading.result = .error why
  | .goes opens' names rest => reading.result = .ok () ∧
    reading.next.Reads around place opens' { scope with names := names } rest
  | .enters key inner source rest => reading.result = .ok () ∧
    ∃ next : Preprocessor, next.Reads around place opens scope rest ∧
      reading.next =
        (next.see key).enter (Frame.ofSource source inner.breadcrumb inner.directory?)

variable {disk : Disk} {stream : Preprocessor} {around : Option (Frame × List Frame)}
  {place : TextPlace} {opens : List Conditional} {scope : Scope} {raw : RawText}

/-- Reports in front of an answer stand in front of what the directive reports. -/
theorem Does.after {reading : Reading Preprocessor Unit} {told : List Diagnostic × Deed}
    (does : Does around place opens scope reading told) (reports : List Diagnostic) :
    Does around place opens scope (reading.after reports) (reports ++ told.1, told.2) :=
  ⟨congrArg (reports ++ ·) does.1, does.2⟩

/-- A directive that changes nothing leaves what is read. -/
theorem Reads.idle (reads : stream.Reads around place opens scope raw)
    (reports : List Diagnostic) :
    Does around place opens scope ⟨reports, .ok (), stream⟩
      (reports, .goes opens scope.names raw) :=
  ⟨rfl, rfl, reads⟩

/-- A current file can be replaced by one that goes on in the same place. -/
theorem Reads.setCurrent (reads : stream.Reads around place opens scope raw) {frame : Frame}
    (same : frame.place = place) :
    (stream.setCurrent frame).Reads around place frame.conditionals scope frame.lexer.raw := by
  -- The place of a file does not depend on where its lexer stands.
  have current := current_setCurrent stream frame
  refine ⟨?_, by rw [current, same], by rw [current], ?_, by rw [current]⟩
  · -- The files around the current one are as they were.
    rw [← reads.around]
    cases inside : stream.includes <;> simp [Preprocessor.setCurrent, surroundings, inside]
  · rw [← reads.scope]
    unfold Preprocessor.setCurrent
    split <;> rfl

/-- The lexer of the current file can be replaced by another one of the same file. -/
theorem Reads.withLexer (reads : stream.Reads around place opens scope raw) {lexer : Lexer}
    (crumbs : lexer.breadcrumb = stream.current.lexer.breadcrumb) :
    (stream.setCurrent (stream.current.withLexer lexer)).Reads around place opens scope
      lexer.raw := by
  -- The lexer goes on in the same file, with the same conditionals open.
  have same : (stream.current.withLexer lexer).place = place := by
    rw [← reads.place]
    simp [Frame.place, Frame.withLexer, crumbs]
  have moved := reads.setCurrent same
  rwa [show (stream.current.withLexer lexer).conditionals = opens from reads.opens] at moved

/-- Other conditionals can be open in the current file. -/
theorem Reads.withConditionals (reads : stream.Reads around place opens scope raw)
    (conditionals : List Conditional) :
    (stream.setCurrent (stream.current.withConditionals conditionals)).Reads around place
      conditionals scope raw := by
  -- The conditionals are no part of the place or of the text.
  have same : (stream.current.withConditionals conditionals).place = place := reads.place
  have moved := reads.setCurrent same
  rwa [show (stream.current.withConditionals conditionals).lexer.raw = raw from reads.raw] at moved

/-- Behind a token the text goes on. -/
theorem Reads.afterToken {reports : List Diagnostic} {found : Token}
    (reads : stream.Reads around place opens scope (.token reports found raw)) :
    stream.afterToken.Reads around place opens scope raw := by
  -- The lexer behind the token stands where the text goes on, under the same name.
  obtain ⟨-, -, -, rest⟩ := Lexer.pop_of_token reads.raw
  have moved := reads.withLexer (Lexer.breadcrumb_pop _)
  rwa [rest] at moved

/-- A directive that goes on with its argument does what it is told if it does so with each. -/
theorem Reads.withArgument (reads : stream.Reads around place opens scope raw) (directive : Token)
    (expected : String) {accepts : TokenKind → Bool} (wanted : accepts .endOfFile = false)
    {goOn : Token → Preprocessor → Reading Preprocessor Unit}
    {told : Token → RawText → List Diagnostic × Deed}
    (later : ∀ name {next : Preprocessor} {rest : RawText},
      next.Reads around place opens scope rest →
        Does around place opens scope (goOn name next) (told name rest)) :
    Does around place opens scope
      ((stream.onCurrent (Frame.argument directive expected accepts)).andThen
        fun name? next => match name? with
          | none => .ok () next
          | some name => goOn name next)
      (Splicing.withArgument directive expected accepts opens scope.names raw told) := by
  obtain ⟨lexer, asked, crumbs, left⟩ :=
    Frame.argument_raw directive expected wanted stream.current
  -- The argument is taken from the raw text that the stream reads.
  rw [reads.raw] at asked left
  have moved := reads.withLexer crumbs
  unfold Reading.andThen onCurrent Splicing.withArgument
  rw [asked]
  rcases argued : raw.argument directive expected accepts with ⟨reports, result⟩
  rw [argued] at left
  cases result with
  -- A failure is the failure of the directive.
  | error why => exact ⟨rfl, rfl⟩
  | ok taken =>
    obtain ⟨name?, rest⟩ := taken
    rw [left name? rest rfl] at moved
    cases name? with
    -- Without an argument the directive is over, and with one it goes on.
    | none => exact ⟨List.append_nil reports, rfl, moved⟩
    | some name => exact (later name moved).after reports

/-- A name is defined if the files share it. -/
theorem Reads.isDefined (reads : stream.Reads around place opens scope raw) (name : String) :
    stream.isDefined name = decide (name ∈ scope.names) := by
  rw [← reads.scope]
  simp [Preprocessor.isDefined, Preprocessor.scope]

/-- A file was seen if the files share its key. -/
theorem Reads.isAmong (reads : stream.Reads around place opens scope raw) (key : FileKey) :
    key.isAmong stream.seen = decide (key.components ∈ scope.seen) := by
  rw [← reads.scope, FileKey.isAmong, Bool.eq_iff_iff]
  simp [Preprocessor.scope]

/-- The names that are defined can change while everything else stays. -/
theorem Reads.withDefines (reads : stream.Reads around place opens scope raw)
    {defines : List String} {names : Finset String} (same : defines.toFinset = names) :
    Reads { stream with defines := defines } around place opens { scope with names := names }
      raw := by
  -- Only the names are looked up in another list.
  refine ⟨reads.around, reads.place, reads.opens, ?_, reads.raw⟩
  rw [← same, ← reads.scope]
  rfl

/-- Both keys of a file are where its path leads, or the path. -/
theorem ofPath_eq_fileKey (disk : Disk) (path : String) :
    FileKey.ofPath disk path = Splicing.fileKey disk path := rfl

variable (name directive : Token)

/-- Including a file by its path is done as it is told. -/
theorem Reads.includeFile (reads : stream.Reads around place opens scope raw) (disk : Disk) :
    Does around place opens scope (stream.includeFile disk name)
      (Splicing.includeFile disk place scope opens name raw) := by
  -- Both paths start at the directory of the current file.
  have path : stream.includePath name.text = Splicing.includePath place name.text := by
    rw [← reads.place]
    rfl
  unfold Preprocessor.includeFile Splicing.includeFile
  simp only [path, ofPath_eq_fileKey, reads.isAmong, decide_eq_true_eq]
  split
  · -- A file that was seen is passed over.
    exact reads.idle []
  · cases disk.read (Splicing.includePath place name.text) with
    | error error => exact ⟨rfl, rfl⟩
    | ok source =>
      refine ⟨rfl, rfl, stream, reads, ?_⟩
      rw [← reads.place]
      rfl

/-- Including a library file is done as it is told. -/
theorem Reads.includeLibrary (reads : stream.Reads around place opens scope raw) :
    Does around place opens scope (stream.includeLibrary name)
      (Splicing.includeLibrary place scope opens name raw) := by
  -- Both sides look the file up by its name, and then ask whether it was used.
  unfold Preprocessor.includeLibrary Splicing.includeLibrary LibraryFile.find?
  cases LibraryFile.all.find? (·.name = name.text) with
  | none => exact reads.idle _
  | some file =>
    simp only [LibraryFile.marker, reads.isAmong, decide_eq_true_eq]
    split
    · exact reads.idle []
    · refine ⟨rfl, rfl, stream, reads, ?_⟩
      rw [← reads.place]
      rfl

/-- Defining a name is done as it is told. -/
theorem Reads.define (reads : stream.Reads around place opens scope raw) :
    Does around place opens scope (Preprocessor.define name stream)
      (Splicing.define scope opens name raw) := by
  unfold Preprocessor.define Splicing.define
  simp only [reads.isDefined, decide_eq_true_eq]
  split
  · exact reads.idle _
  · refine ⟨rfl, rfl, reads.withDefines ?_⟩
    -- Other names are defined as before.
    ext other
    simp only [← reads.scope, Preprocessor.scope, List.mem_toFinset, List.mem_append,
      List.mem_singleton, Finset.mem_insert, or_comm]

/-- Taking a definition back is done as it is told. -/
theorem Reads.undefine (reads : stream.Reads around place opens scope raw) :
    Does around place opens scope (Preprocessor.undefine name stream)
      (Splicing.undefine scope opens name raw) := by
  -- Both sides ask whether the name is defined.
  unfold Preprocessor.undefine Splicing.undefine
  simp only [reads.isDefined, decide_eq_true_eq]
  split
  · -- The name is gone from the scope, and nothing else is.
    refine ⟨rfl, rfl, reads.withDefines ?_⟩
    ext other
    simp [← reads.scope, Preprocessor.scope, and_comm]
  · exact reads.idle _

/-- Deciding on a conditional is done as it is told. -/
theorem Reads.startConditional (reads : stream.Reads around place opens scope raw)
    (wanted : Bool) :
    Does around place opens scope (stream.startConditional directive wanted name)
      (Splicing.startConditional directive wanted scope opens name raw) := by
  -- The conditional is taken or its text is skipped, as the scope tells.
  unfold Preprocessor.startConditional Splicing.startConditional
  simp only [reads.isDefined]
  split
  · -- The conditional is open from here on.
    refine ⟨rfl, rfl, ?_⟩
    rw [← reads.opens]
    exact reads.withConditionals _
  · -- The text of the conditional is skipped, up to its end or to that of the file.
    obtain ⟨later, skipped, crumbs, left⟩ := Lexer.skipConditional_raw 0 stream.current.lexer
    rw [reads.raw] at skipped left
    have moved := reads.withLexer crumbs
    unfold Reading.andThen onCurrent
    simp only [skipped]
    -- The skip fails, or it leaves what the text's own skip leaves.
    rcases skip : raw.skip 0 with why | ⟨closed, rest⟩
    · exact ⟨rfl, rfl⟩
    · rw [left closed rest skip] at moved
      cases closed with
      | true => exact moved.idle []
      | false => exact moved.idle _

/-- Closing a conditional is done as it is told. -/
theorem Reads.endConditional (reads : stream.Reads around place opens scope raw) :
    Does around place opens scope (stream.endConditional directive)
      (Splicing.endConditional directive scope opens raw) := by
  -- Only a conditional of this file can be closed.
  unfold Preprocessor.endConditional Splicing.endConditional
  simp only [reads.opens]
  split
  · exact reads.idle _
  · exact ⟨rfl, rfl, reads.withConditionals _⟩

/-- Including what a name says is done as it is told. -/
theorem Reads.includeNamed (reads : stream.Reads around place opens scope raw) (disk : Disk) :
    Does around place opens scope
      (if name.kind = .string then stream.includeFile disk name else stream.includeLibrary name)
      (Splicing.includeNamed disk place scope opens name raw) := by
  unfold Splicing.includeNamed
  -- A name in quotes is a file, and any other one is of the library.
  split
  · exact reads.includeFile name disk
  · exact reads.includeLibrary name

/-- Each directive is carried out as it is told. -/
theorem Reads.carryOut (reads : stream.Reads around place opens scope raw) (disk : Disk) :
    Does around place opens scope (stream.carryOut disk directive)
      (Splicing.obey disk place scope opens directive raw) := by
  unfold Splicing.obey
  -- The names are told apart one after the other; each is that of one directive of the stream.
  split
  · next word =>
    rw [Preprocessor.carryOut, word]
    exact reads.withArgument directive _ rfl fun name _ _ moved => moved.includeNamed name disk
  split
  · next word =>
    -- Two spellings define a name,
    have asked : Directive.ofName? directive.text = some .define := by
      rcases word with word | word <;> rw [word] <;> rfl
    rw [Preprocessor.carryOut, asked]
    exact reads.withArgument directive _ rfl fun name _ _ moved => moved.define name
  split
  · next word =>
    -- and two take it back.
    have asked : Directive.ofName? directive.text = some .undefine := by
      rcases word with word | word <;> rw [word] <;> rfl
    rw [Preprocessor.carryOut, asked]
    exact reads.withArgument directive _ rfl fun name _ _ moved => moved.undefine name
  -- The two conditionals differ in what they want only.
  split
  · next word =>
    rw [Preprocessor.carryOut, word]
    exact reads.withArgument directive _ rfl fun name _ _ moved =>
      moved.startConditional name directive true
  split
  · next word =>
    rw [Preprocessor.carryOut, word]
    exact reads.withArgument directive _ rfl fun name _ _ moved =>
      moved.startConditional name directive false
  split
  · next word =>
    rw [Preprocessor.carryOut, word]
    -- Closing takes no argument.
    exact reads.endConditional directive
  · -- No other name is one of a directive.
    have unknown : Directive.ofName? directive.text = none := by
      unfold Directive.ofName?
      split <;> simp_all
    rw [Preprocessor.carryOut, unknown]
    exact reads.idle _

/-- Behind a directive the stream does what the directive is told to do. -/
theorem Reads.carried {reports : List Diagnostic} {found : Token}
    {told : List Diagnostic × Deed}
    (reads : stream.Reads around place opens scope (.token reports found raw))
    (obeyed : Splicing.obey disk place scope opens found raw = told) :
    Does around place opens scope (stream.afterToken.carryOut disk found) told := by
  rw [← obeyed]
  exact reads.afterToken.carryOut found disk

/-- A file that is entered is read from its start, with the files of the stream around it. -/
theorem Reads.enter (reads : stream.Reads around place opens scope raw) (key : FileKey)
    (source : Bytes) (inner : TextPlace) :
    ((stream.see key).enter (Frame.ofSource source inner.breadcrumb inner.directory?)).Reads
      (some (stream.root, stream.includes)) inner []
      { scope with seen := insert key.components scope.seen }
      ((Cursor.ofSource source).raw inner.breadcrumb) := by
  refine ⟨rfl, rfl, rfl, ?_, rfl⟩
  rw [← reads.scope]
  simp only [Preprocessor.scope, Preprocessor.enter, see, Scope.mk.injEq, true_and]
  -- The key was added to those that were seen.
  ext components
  simp only [List.map_append, List.map_cons, List.map_nil, List.mem_toFinset, List.mem_append,
    List.mem_singleton, Finset.mem_insert, or_comm]

/-- Back in the files of a stream, its text goes on with what the files share by then. -/
theorem Reads.back (reads : stream.Reads around place opens scope raw) {later : Preprocessor}
    (root : later.root = stream.root) (includes : later.includes = stream.includes) :
    later.Reads around place opens later.scope raw := by
  -- The same files are around, so the same one is current.
  have current : later.current = stream.current := by
    rw [Preprocessor.current, root, includes]
    rfl
  refine ⟨?_, by rw [current, reads.place], by rw [current, reads.opens], rfl,
    by rw [current, reads.raw]⟩
  rw [← reads.around, surroundings, surroundings, root, includes]

/-- A stream brings what a text brings, and then ends with it or goes on in the files around. -/
def Brings (disk : Disk) (stream : Preprocessor) (around : Option (Frame × List Frame))
    (out : List Emitted) : Except Failure (Scope × Token) → Prop
  | .error why => stream.outcome disk = (out, .error why)
  | .ok (left, last) => match around with
    | none => stream.outcome disk = (out, .ok last)
    | some (root, outer) => ∃ later : Preprocessor, later.root = root ∧ later.includes = outer ∧
      later.scope = left ∧ stream.outcome disk = bring out (later.outcome disk)

/-- What is brought first stands in front of what a text brings. -/
theorem Brings.after {next : Preprocessor} {first out : List Emitted}
    {result : Except Failure (Scope × Token)} (brings : Brings disk next around out result)
    (goes : stream.outcome disk = bring first (next.outcome disk)) :
    Brings disk stream around (first ++ out) result := by
  -- A failure comes through, and so does the end with what the files share.
  cases result with
  | error why => exact goes.trans (congrArg (bring first) brings)
  | ok ended =>
    cases around with
    | none => exact goes.trans (congrArg (bring first) brings)
    | some files =>
      obtain ⟨later, root, includes, left, same⟩ := brings
      refine ⟨later, root, includes, left, ?_⟩
      rw [goes, same, bring_bring]

/-- The end of a text is the end of the stream, or leads to the files around. -/
theorem Reads.ending {reports : List Diagnostic} {last : Token}
    (reads : stream.Reads around place opens scope (.ending reports last)) (disk : Disk) :
    Brings disk stream around
      ((reports ++ opens.reverse.map Splicing.unclosed).map .report)
      (.ok (scope, last)) := by
  -- The conditionals that are open are reported in order of opening.
  have closed : stream.openConditionals = opens.reverse.map Splicing.unclosed := by
    rw [openConditionals, reads.opens]
    rfl
  have kept := reads.around
  unfold surroundings at kept
  rw [← closed]
  split at kept
  · -- The root file is around nothing, so the stream ends with it.
    next outermost =>
    subst kept
    exact outcome_of_end reads.raw outermost
  · -- Otherwise the stream goes on in the file that includes this one.
    next inner outer inside =>
    subst kept
    refine ⟨stream.afterToken.forgetConditionals.leave outer, ?_, rfl, ?_,
      outcome_of_leave reads.raw inside⟩
    · simp [leave, forgetConditionals, Preprocessor.afterToken, onCurrent, Reading.mapNext,
        Preprocessor.setCurrent, inside]
    · rw [← reads.scope]
      simp [leave, forgetConditionals, Preprocessor.afterToken, onCurrent, Reading.mapNext,
        Preprocessor.setCurrent, inside, Preprocessor.scope]

/-- What a text brings when it is spliced is what a stream that reads it brings. -/
theorem Reads.brings {out : List Emitted} {result : Except Failure (Scope × Token)}
    (splices : Splices disk place opens scope raw out result) :
    ∀ {stream : Preprocessor} {around : Option (Frame × List Frame)},
      stream.Reads around place opens scope raw → Brings disk stream around out result := by
  induction splices with
  | failure => exact fun reads => outcome_of_failure reads.raw
  | ending => exact fun reads => reads.ending disk
  -- A token is brought, and then what the rest brings.
  | token plain rest ih =>
    intro stream around reads
    have brought := (ih reads.afterToken).after (outcome_of_plain reads.raw plain)
    rwa [List.append_assoc] at brought
  -- A directive that fails ends the stream with its reports.
  | fails directive obeyed =>
    intro stream around reads
    obtain ⟨reported, failed⟩ := reads.carried obeyed
    exact outcome_of_refused reads.raw directive reported failed
  -- A directive that is carried out is passed, and the rest follows.
  | goes directive obeyed rest ih =>
    intro stream around reads
    obtain ⟨reported, done, moved⟩ := reads.carried obeyed
    exact (ih moved).after (outcome_of_carried reads.raw directive reported done)
  -- The included file is read to its end, where the text around it goes on.
  | enters directive obeyed inner rest ihInner ih =>
    intro stream around reads
    obtain ⟨reported, done, next, moved, entered⟩ := reads.carried obeyed
    obtain ⟨later, root, includes, rfl, same⟩ := ihInner (moved.enter _ _ _)
    have brought := outcome_of_carried reads.raw directive reported done
    rw [entered, same, bring_bring] at brought
    exact (ih (moved.back root includes)).after brought
  -- The included file fails, and the text around it is never reached again.
  | cut directive obeyed inner ih =>
    intro stream around reads
    obtain ⟨reported, done, next, moved, entered⟩ := reads.carried obeyed
    have brought := outcome_of_carried reads.raw directive reported done
    rw [entered] at brought
    exact (ih (moved.enter _ _ _)).after brought

/-- A stream that reads its root file brings what splicing the rest of the file brings, and nothing
else. -/
theorem Reads.outcome_iff (reads : stream.Reads none place opens scope raw) {out : List Emitted}
    {ending : Except Failure Token} : stream.outcome disk = (out, ending) ↔
      ∃ result, Splices disk place opens scope raw out result ∧ result.map Prod.snd = ending := by
  have outcome : ∀ {out result}, Splices disk place opens scope raw out result →
      stream.outcome disk = (out, result.map Prod.snd) := by
    intro out result splices
    -- The root file has no other file around it.
    have brought := reads.brings splices
    cases result <;> exact brought
  constructor
  · intro same
    -- There is a splice, and it is what the stream brings.
    obtain ⟨out', result, splices⟩ := Splices.exists_of disk place opens scope raw
    cases (outcome splices).symm.trans same
    exact ⟨result, splices, rfl⟩
  · rintro ⟨result, splices, rfl⟩
    exact outcome splices

/-- The stream of a source starts with the whole source and with no file seen. -/
theorem reads_ofSource (name : String) (source : Bytes) (defines : List String) :
    (ofSource name source defines).Reads none ⟨[name], none⟩ [] ⟨defines.toFinset, ∅⟩
      ((Cursor.ofSource source).raw [name]) :=
  ⟨rfl, rfl, rfl, rfl, rfl⟩

/-- Neither the order nor the repetition of the names that are defined at first matters. -/
theorem outcome_of_same_defines (disk : Disk) (name : String) (source : Bytes)
    {defines others : List String} (same : ∀ word, word ∈ defines ↔ word ∈ others) :
    (ofSource name source defines).outcome disk = (ofSource name source others).outcome disk := by
  have names : defines.toFinset = others.toFinset := by
    ext word
    simp [same]
  -- A stream is read by the set of its names only.
  have reads := reads_ofSource name source defines
  rw [names] at reads
  exact reads.outcome_iff.mpr ((reads_ofSource name source others).outcome_iff.mp rfl)

end Preprocessor

/-- What splicing a source brings, from its start with no conditional open, and how it ends. -/
def Spliced (disk : Disk) (place : TextPlace) (scope : Scope) (source : Bytes)
    (out : List Emitted) (ending : Except Failure Token) : Prop :=
  ∃ result, Splices disk place [] scope ((Cursor.ofSource source).raw place.breadcrumb) out result ∧
    result.map Prod.snd = ending

/-- The stream of a source, or of a file that can be read, brings exactly what splicing the source or
the file brings, and ends as it does. -/
theorem Preprocessor.outcome_iff_spliced (disk : Disk) (defines : List String)
    (out : List Emitted) (ending : Except Failure Token) :
    (∀ name source, (ofSource name source defines).outcome disk = (out, ending) ↔
      Spliced disk ⟨[name], none⟩ ⟨defines.toFinset, ∅⟩ source out ending) ∧
    ∀ path, match disk.read path with
      | .error error => openFile disk path defines = .error (.unreadable path error.message none)
      | .ok source => ∃ stream, openFile disk path defines = .ok stream ∧
        (stream.outcome disk = (out, ending) ↔
          Spliced disk ⟨[path], Path.parent? path⟩
            ⟨defines.toFinset, {(Splicing.fileKey disk path).components}⟩ source out ending) := by
  refine ⟨fun name source => (reads_ofSource name source defines).outcome_iff, fun path => ?_⟩
  unfold openFile
  -- A file that cannot be read is no stream; one that can was seen from the start.
  cases disk.read path with
  | error error => rfl
  | ok source =>
    refine ⟨_, rfl, Reads.outcome_iff ⟨rfl, rfl, rfl, ?_, rfl⟩⟩
    simp [scope, ofPath_eq_fileKey]

/-- A directive brings nothing if nothing is reported, neither in front of it nor by it. -/
theorem Splices.silent {disk : Disk} {place : TextPlace} {opens opens' : List Conditional}
    {scope : Scope} {names : Finset String} {found : Token} {rest after : RawText}
    {out : List Emitted} {result : Except Failure (Scope × Token)}
    (directive : found.kind = .directive)
    (goes : Splicing.obey disk place scope opens found rest = ([], .goes opens' names after))
    (further : Splices disk place opens' { scope with names := names } after out result) :
    Splices disk place opens scope (.token [] found rest) out result :=
  .goes directive goes further

/-- The tokens of a file with a conditional around an include and another one behind it. -/
theorem reads_conditionals : Reads (Cursor.ofSource (Utf8.encode
      "#define N\n#ifdef N\n#include \"a\"\n#endif\n#undef N\n#ifndef N\ny\n#endif")).rest
    [(.directive, "define"), (.identifier, "N"), (.directive, "ifdef"), (.identifier, "N"),
      (.directive, "include"), (.string, "a"), (.directive, "endif"), (.directive, "undef"),
      (.identifier, "N"), (.directive, "ifndef"), (.identifier, "N"), (.identifier, "y"),
      (.directive, "endif")] [] := .of_scan 25 (by decide +kernel)

/-- A name is defined for the conditional that includes a file, and no longer for the next one. -/
theorem Preprocessor.outcome_iff_spliced_conditionals :
    let disk : Disk := { Disk.empty with files := [(["a"], Utf8.encode "x")] }
    let source :=
      "#define N\n#ifdef N\n#include \"a\"\n#endif\n#undef N\n#ifndef N\ny\n#endif"
    ∃ first second last : Token, first.content = (.identifier, "x") ∧
      second.content = (.identifier, "y") ∧ last.isEnd = true ∧
      (ofSource "main.adl" (Utf8.encode source) []).outcome disk =
        ([.token first, .token second], .ok last) := by
  intro disk source
  obtain ⟨spans, last, outer, ended⟩ := reads_conditionals.raw _ (by decide) ["main.adl"]
  have inside : ArgSchema.Reads (Cursor.ofSource (Utf8.encode "x")).rest [(.identifier, "x")] [] :=
    .of_scan 1 (by decide +kernel)
  obtain ⟨spans', last', inner, -⟩ := inside.raw _ (by simp) ["main.adl", "a"]
  -- The file that is included brings its one name, wherever it is included.
  have file : ∀ directory? scope, Splices disk ⟨["main.adl", "a"], directory?⟩ [] scope
      ((Cursor.ofSource (Utf8.encode "x")).raw ["main.adl", "a"])
      [.token ⟨.identifier, "x", spans' 0⟩] (.ok (scope, last')) := by
    intro directory? scope
    rw [inner]
    exact .token (by simp) .ending
  have read : disk.read "a" = .ok (Utf8.encode "x") := by decide +kernel
  have key : Splicing.fileKey disk "a" = .located ["a"] := by decide +kernel
  -- An inclusion is obeyed by its name, whatever stands around it.
  have entered : ∀ opens names directive quoted rest, directive.text = "include" →
      Splicing.obey disk ⟨["main.adl"], none⟩ ⟨names, ∅⟩ opens directive
        (.token [] ⟨.string, "a", quoted⟩ rest) =
      ([], .enters (.located ["a"]) ⟨["main.adl", "a"], Path.parent? "a"⟩ (Utf8.encode "x") rest) := by
    intro opens names directive quoted rest word
    simp [Splicing.obey, word, Splicing.withArgument, RawText.argument, Splicing.includeNamed,
      Splicing.includeFile, Splicing.includePath, read, key]
  have splices : ∃ left, Splices disk ⟨["main.adl"], none⟩ [] ⟨∅, ∅⟩
      ((Cursor.ofSource (Utf8.encode source)).raw ["main.adl"])
      [.token ⟨.identifier, "x", spans' 0⟩, .token ⟨.identifier, "y", spans 11⟩]
      (.ok (left, last)) := by
    rw [outer]
    apply Exists.intro
    -- The name is defined, and the first conditional stands open around the include.
    refine .silent rfl rfl ?_
    refine .silent rfl rfl ?_
    refine .enters rfl (entered _ _ _ _ _ rfl) (file _ _) ?_
    refine .silent rfl rfl ?_
    -- The definition is taken back, so the second conditional is open as well.
    refine .silent rfl rfl ?_
    refine .silent rfl rfl ?_
    refine .token (by simp) ?_
    refine .silent rfl rfl ?_
    exact .ending
  obtain ⟨left, splices⟩ := splices
  refine ⟨⟨.identifier, "x", spans' 0⟩, ⟨.identifier, "y", spans 11⟩, last, rfl, rfl, ended, ?_⟩
  exact ((outcome_iff_spliced disk [] _ _).1 "main.adl" _).mpr ⟨_, splices, rfl⟩

end ArgSchema
