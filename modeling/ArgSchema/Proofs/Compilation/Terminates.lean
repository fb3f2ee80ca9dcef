import ArgSchema.Proofs.Compilation.Passes
import ArgSchema.Proofs.Compilation.Sound
import ArgSchema.Proofs.Lexer.Scans
import ArgSchema.Proofs.Parser.Reached
import ArgSchema.Proofs.Preprocessor.Skips

/-! Termination: whatever is compiled, every loop on the way comes to its end. -/

namespace ArgSchema

/-- From whatever state they start, the loops of reading and parsing come to their ends. -/
structure LoopsEnd (disk : Disk) : Prop where
  /-- A turn of the search for a token takes bytes, or answers. -/
  scans : ∀ breadcrumb cursor, Cursor.Scans breadcrumb cursor
  /-- A skip drops no more tokens than there are, and stops at the directive that closes the text, at
  the end of the file, or at what cannot be read. -/
  skips : ∀ depth (lexer : Lexer), ∃ dropped later inner, dropped.length ≤ lexer.weight ∧
    lexer.Skipped depth dropped later inner (lexer.skipConditional depth)
  /-- No stream can have ever fewer files to open, or as many and ever less to read. -/
  shrinks : WellFounded fun later stream : Preprocessor => stream.Shrinks disk later
  /-- Taking a token carries out directives and leaves files in finitely many turns. -/
  pops : ∀ stream : Preprocessor, ∃ count, stream.PopsIn disk count
  /-- No rules can be applied forever. -/
  reductions : WellFounded fun next parser : Parser => parser.Reduces next
  /-- Rules and tokens cannot follow one another forever. -/
  turns : WellFounded fun later state : Parsing => Parsing.Turn disk state later
  /-- Where the loop is over, nothing follows. -/
  ends : ∀ (state : Parsing) parsed, state.Ends disk parsed → ∀ later, ¬Parsing.Turn disk state later

/-- Compiling a stream comes to its end, with the files that were opened at its start. -/
structure Preprocessor.Terminates (disk : Disk) (stream : Preprocessor) (start : List FileEvent) :
    Prop where
  /-- After any number of turns no file was opened twice, and an include of one that was opened does
  nothing, however its path is spelled. -/
  opens : ∀ count, let events := start ++ stream.history disk count
    Visited disk (stream.turns disk count) events ∧
      (events.filterMap FileEvent.location?).Nodup ∧
      ∀ directive name asked, (stream.turns disk count).Asks directive name asked →
        IsOpened disk events (asked.includePath name.text) →
        Skips disk (stream.turns disk count) name asked
  /-- Parsing is what turns of the loop lead to, and nothing can follow the last of them. -/
  parses : Parsing.Runs disk Parser.start stream (stream.parse disk)
  /-- In between, the stream is one that its turns lead to, and whatever spans come together are merged
  with at most one swap. -/
  reached : ∀ state, Parsing.Reached disk stream state →
    (∃ count, state.stream = stream.turns disk count) ∧
      ∀ first last, state.HasSpan first → state.HasSpan last →
        first.Ordered ∧ last.Ordered ∧ (first.through last).Ordered ∧
          ∃ swaps, swaps ≤ 1 ∧ Span.Merges first last swaps (first.through last)
  /-- Both passes over the tree end. -/
  passes : ∀ tree, (stream.parse disk).result = .ok tree → tree.PassesEnd
  /-- What compilation makes is what the passes leave of the tree. -/
  compiles : ∀ record breadcrumb made, (stream.compile disk record breadcrumb).result = .ok made →
    ∃ tree, (stream.parse disk).result = .ok tree ∧
      made = tree.buildSymbolTable.next.checkReferences.next

/-- The loops of reading and parsing come to their ends. -/
theorem loopsEnd (disk : Disk) : LoopsEnd disk where
  scans := Cursor.scans
  skips depth lexer := by
    obtain ⟨dropped, later, inner, skipped⟩ := lexer.exists_skipped depth
    -- Every token that is skipped takes a byte, so their number is bounded.
    have counted := skipped.gives.length_le
    exact ⟨dropped, later, inner, by omega, skipped⟩
  shrinks := Preprocessor.wellFounded_shrinks disk
  pops := Preprocessor.exists_popsIn disk
  reductions := Parser.wellFounded_reduces
  turns := Parsing.wellFounded_turn disk
  ends _ _ ends _ := ends.not_turn

/-- Compiling a stream that was not read from yet comes to its end. -/
theorem Preprocessor.Opens.terminates {disk : Disk} {stream : Preprocessor}
    (opens : stream.Opens disk) {start : List FileEvent} (visited : Visited disk stream start) :
    stream.Terminates disk start where
  opens count := by
    have later := visited.turns count
    exact ⟨later, later.opens_once, fun directive name asked asks => later.skips_opened asks⟩
  parses := stream.parse_runs disk
  reached state reached := by
    have spans := reached.spansOrdered opens
    refine ⟨reached.exists_turns, fun first last has has' => ?_⟩
    have ordered := has.ordered spans
    have ordered' := has'.ordered spans
    exact ⟨ordered, ordered', ordered.through ordered', Span.merges_through ordered ordered'⟩
  passes tree parsed := (parse_meant opens parsed).1.passesEnd
  compiles record breadcrumb made done := by
    -- A tree that is made went through both passes without an error.
    obtain ⟨registered, entered, -, rfl, -⟩ := Compilation.andThen_eq_ok done
    obtain ⟨tree, came, -, rfl, -⟩ := Compilation.andThen_eq_ok entered
    refine ⟨tree, ?_, rfl⟩
    cases parsed : (stream.parse disk).result with
    | error failure => simp [parsed, Compilation.fail] at came
    | ok other =>
      simp only [parsed, Compilation.finish] at came
      split at came <;> cases came
      rfl

/-- Compilation comes to its end for every source and every file, whatever is on the disk. -/
theorem compilation_terminates (disk : Disk) (defines : List String) :
    LoopsEnd disk ∧
    (∀ name source, let stream := Preprocessor.ofSource name source defines
      stream.Terminates disk [] ∧
        ∀ record, compileSource disk record name source defines = stream.compile disk record [name]) ∧
    ∀ path, match Preprocessor.openFile disk path defines with
      | .error failure => ∀ record,
        compileFile disk record path defines = Compilation.fail .parse record [path] failure
      | .ok stream =>
        (∃ location, disk.locate path = .ok location ∧
          stream.Terminates disk [.opened location]) ∧
        ∀ record, compileFile disk record path defines = stream.compile disk record [path] := by
  refine ⟨loopsEnd disk, fun name source => ?_, fun path => ?_⟩
  · exact ⟨(Preprocessor.Opens.source name source defines).terminates (.source name source defines),
      fun _ => rfl⟩
  · cases opened : Preprocessor.openFile disk path defines with
    | error failure => exact fun _ => by rw [compileFile, opened]
    | ok stream =>
      refine ⟨?_, fun _ => by rw [compileFile, opened]⟩
      -- The file was read, so its path leads to a location.
      cases read : disk.read path with
      | error error => simp [Preprocessor.openFile, read] at opened
      | ok source =>
        obtain ⟨location, located, -⟩ := Disk.locate_of_read read
        exact ⟨location, located, (Preprocessor.Opens.file opened).terminates (.file opened located)⟩

end ArgSchema
