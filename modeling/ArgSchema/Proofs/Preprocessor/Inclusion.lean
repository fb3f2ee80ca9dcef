import ArgSchema.Proofs.Lexer.Reads
import ArgSchema.Proofs.Preprocessor.History
import Mathlib.Data.List.Basic
import Mathlib.Data.List.Pairwise

/-! Inclusion: an include opens its file, fails, or does nothing, depending on what was asked for before. -/

namespace ArgSchema

namespace LibraryFile

/-- A marker is a path whose first step starts with a bracket. -/
theorem exists_components_marker (file : LibraryFile) :
    ∃ step rest, Path.components file.marker = String.ofList ('<' :: step) :: rest := by
  have chars : file.marker.toList = '<' :: (file.name.toList ++ ['>']) := by
    simp [marker]
  have relative : Path.isAbsolute file.marker = false := by
    rw [Path.isAbsolute, chars]
    rfl
  obtain ⟨piece, pieces, split⟩ : ∃ piece pieces,
      Path.splitSlashes ('<' :: (file.name.toList ++ ['>'])) = ('<' :: piece) :: pieces := by
    rw [Path.splitSlashes]
    split
    · exact ⟨_, _, rfl⟩
    · exact ⟨_, _, if_neg (by decide)⟩
  -- The first piece has the bracket, so it is not empty and is kept.
  have some : String.ofList ('<' :: piece) ≠ "" := fun empty => by
    have none := congrArg String.toList empty
    simp at none
  refine ⟨piece, (pieces.map String.ofList).filter (!Path.isIdle ·), ?_⟩
  simp only [Path.components, Path.pieces, chars, split, List.map_cons, relative, some, if_false,
    Bool.false_eq_true, List.singleton_append]

/-- No location is compared as equal to a marker. -/
theorem components_marker_ne (file : LibraryFile) (location : Location) :
    Path.components file.marker ≠ "/" :: location := by
  -- A marker starts with a name in brackets, and a location with the root.
  obtain ⟨step, rest, steps⟩ := file.exists_components_marker
  intro same
  have first := congrArg String.toList (List.cons.inj (steps.symm.trans same)).1
  simp at first

end LibraryFile

namespace Preprocessor

/-- The file that a path leads to was opened. -/
def IsOpened (disk : Disk) (events : List FileEvent) (path : String) : Prop :=
  ∃ location, disk.locate path = .ok location ∧ .opened location ∈ events

/-- A path is taken for that of a file which was seen, though its own file was not opened. -/
inductive Mistaken (disk : Disk) (events : List FileEvent) (path : String) : Prop
  /-- A file of the same key could not be read. -/
  | refused {key : FileKey} : .refused key ∈ events →
      key.components = (FileKey.ofPath disk path).components → Mistaken disk events path
  /-- The path leads nowhere and reads like the marker of a file that comes with the compiler. -/
  | marker {file : LibraryFile} {error : ReadError} : .used file ∈ events →
      disk.locate path = .error error → Path.components file.marker = Path.components path →
      Mistaken disk events path
  /-- The path leads nowhere and reads like the location of a file that was opened. -/
  | astray {location : Location} {error : ReadError} : .opened location ∈ events →
      disk.locate path = .error error → "/" :: location = Path.components path →
      Mistaken disk events path

variable {disk : Disk} {events : List FileEvent} {path : String}

/-- The key of a path is among those seen if its file was opened or the path is mistaken. -/
theorem isAmong_iff : (FileKey.ofPath disk path).isAmong (events.map FileEvent.key) = true ↔
    IsOpened disk events path ∨ Mistaken disk events path := by
  -- Keys are compared by their parts, so each event with the same parts is looked at in turn.
  have among : (FileKey.ofPath disk path).isAmong (events.map FileEvent.key) = true ↔
      ∃ event ∈ events, event.key.components = (FileKey.ofPath disk path).components := by
    simp [FileKey.isAmong]
  rw [among]
  constructor
  · rintro ⟨event, member, same⟩
    cases located : disk.locate path with
    | ok location =>
      -- Locations start at the root of the disk, so no marker reads like one.
      have key : FileKey.ofPath disk path = .located location := by rw [FileKey.ofPath, located]
      cases event with
      | opened other =>
        rw [key] at same
        obtain rfl := (List.cons.inj same).2
        exact .inl ⟨other, located, member⟩
      | refused other => exact .inr (.refused member same)
      | used file =>
        rw [key] at same
        exact absurd same (file.components_marker_ne location)
    -- A path that leads nowhere is its own key.
    | error error =>
      have key : FileKey.ofPath disk path = .unlocated path := by rw [FileKey.ofPath, located]
      cases event with
      | opened location =>
        rw [key] at same
        exact .inr (.astray member located same)
      | refused other => exact .inr (.refused member same)
      | used file =>
        rw [key] at same
        exact .inr (.marker member located same)
  -- Conversely each of these events has the key.
  · rintro (⟨location, located, member⟩ | mistaken)
    · exact ⟨_, member, by rw [FileKey.ofPath, located]; rfl⟩
    · cases mistaken with
      | refused member same => exact ⟨_, member, same⟩
      | marker member located same => exact ⟨_, member, by rw [FileKey.ofPath, located]; exact same⟩
      | astray member located same => exact ⟨_, member, by rw [FileKey.ofPath, located]; exact same⟩

/-- The path of a file that was opened is not mistaken. -/
theorem not_mistaken (distinct : Distinct (events.map FileEvent.key))
    (opened : IsOpened disk events path) : ¬Mistaken disk events path := by
  obtain ⟨location, located, member⟩ := opened
  intro mistaken
  cases mistaken with
  | refused other same =>
    -- The opened file and the refused one would share a key.
    rw [FileKey.ofPath, located] at same
    have symm : Std.Symm fun a b : FileEvent => a.key.components ≠ b.key.components :=
      ⟨fun _ _ different => different.symm⟩
    exact (List.pairwise_map.mp distinct).forall member other (by simp) same.symm
  | marker _ lost => cases located.symm.trans lost
  | astray _ lost => cases located.symm.trans lost

/-- The next turn of a stream carries out an include that names its file by a path. -/
structure Asks (stream : Preprocessor) (directive name : Token) (asked : Preprocessor) : Prop where
  /-- The directive is the next token. -/
  taken : stream.current.lexer.pop.result = .ok directive
  /-- It is a directive. -/
  kind : directive.kind = .directive
  /-- It is an include. -/
  text : directive.text = "include"
  /-- A name stands behind it, and the stream goes on behind the name. -/
  named : stream.afterToken.includeName? directive = some (name, asked)
  /-- The name is a path in quotes. -/
  quoted : name.kind = .string

namespace Asks

variable {stream asked : Preprocessor} {directive name : Token}

/-- The turn carries out nothing but the include. -/
theorem carryOut (asks : stream.Asks directive name asked) (disk : Disk) :
    asked.seen = stream.seen ∧ ∃ reports, stream.afterToken.carryOut disk directive =
      (asked.includeFile disk name).after reports := by
  -- The directive reads its name first, which is quoted, and then opens the file.
  obtain ⟨seen, reports, here⟩ := includeNamed_of_name disk asks.named
  refine ⟨seen.trans (seen_setCurrent _ _), reports, ?_⟩
  rw [if_pos asks.quoted] at here
  rw [Preprocessor.carryOut, asks.text]
  exact here

/-- The turn leaves what the include leaves, and what becomes of the file is recorded. -/
theorem turn_eq (asks : stream.Asks directive name asked) (disk : Disk) :
    stream.turn disk = (asked.includeFile disk name).next ∧
      stream.turnEvents disk = asked.fileEvents disk name := by
  -- The turn is the directive's, since a directive was taken.
  obtain ⟨-, reports, here⟩ := asks.carryOut disk
  constructor
  · rw [turn_of_directive asks.taken asks.kind, here]
    rfl
  · simp only [turnEvents, asks.taken, if_pos asks.kind, carryEvents, asks.text, Directive.ofName?,
      includeEvents, asks.named, if_pos asks.quoted]

/-- Behind an include that is carried out the stream goes on. -/
theorem pop_of_done (asks : stream.Asks directive name asked) {later : Preprocessor}
    (done : asked.includeFile disk name = .ok () later) :
    ∃ reports, stream.pop disk = (later.pop disk).after reports := by
  -- A directive brings no token, so the next one is asked for.
  obtain ⟨-, reports, here⟩ := asks.carryOut disk
  rw [done] at here
  have popped : stream.pop disk = _ := pop_of_carried asks.taken asks.kind (by rw [here]; rfl)
  rw [here] at popped
  exact ⟨_, popped⟩

/-- An include that fails fails the stream. -/
theorem pop_of_refused (asks : stream.Asks directive name asked) {why : Failure}
    {later : Preprocessor} (failed : asked.includeFile disk name = .fail why later) :
    (stream.pop disk).result = .error why := by
  -- The directive asks for the include, so carrying it out fails as the include does.
  obtain ⟨-, reports, here⟩ := asks.carryOut disk
  rw [failed] at here
  rw [Preprocessor.pop_of_refused asks.taken asks.kind (by rw [here]; rfl)]

/-- An include at the cursor of a stream without open includes. -/
theorem of_cursor {cursor behind stop : Cursor} {breadcrumb : Breadcrumb} {directory? : Option String}
    {conditionals : List Conditional} {seen : List FileKey} {defines : List String}
    (taken : cursor.nextToken breadcrumb = .ok directive behind)
    (kind : directive.kind = .directive) (text : directive.text = "include")
    (named : behind.nextToken breadcrumb = .ok name stop) (quoted : name.kind = .string) :
    Asks ⟨⟨⟨cursor, breadcrumb, [], false⟩, directory?, conditionals⟩, [], seen, defines, false⟩
      directive name
      ⟨⟨⟨stop, breadcrumb, [], false⟩, directory?, conditionals⟩, [], seen, defines, false⟩ := by
  -- Neither the directive nor its name ends the text, so both are taken.
  have inside : ∀ token : Token, token.kind = .directive ∨ token.kind = .string →
      (false || token.isEnd) = false := by
    rintro token (same | same) <;> simp [Token.isEnd, same]
  refine ⟨by simp only [current, List.headD_nil, Lexer.pop, taken]; rfl, kind, text, ?_, quoted⟩
  have accepted : namesInclude name.kind = true := by rw [quoted]; rfl
  simp only [includeName?, afterToken, onCurrent, current, List.headD_nil, Frame.pop, Lexer.pop, taken,
    Frame.argument, Reading.mapNext, Reading.andThen, Reading.ok, Reading.after, setCurrent,
    Frame.withLexer, inside directive (.inl kind), named, accepted, if_true,
    inside name (.inr quoted)]

end Asks

/-- The include does nothing, and the stream goes on behind it. -/
def Skips (disk : Disk) (stream : Preprocessor) (name : Token) (asked : Preprocessor) : Prop :=
  asked.includeFile disk name = .ok () asked ∧
    ∃ reports, stream.pop disk = (asked.pop disk).after reports

/-- The include reads its file, and the stream goes on inside the file. -/
def Enters (disk : Disk) (stream : Preprocessor) (name : Token) (asked : Preprocessor) : Prop :=
  let path := asked.includePath name.text
  -- What is read next is the included file's, from its first byte.
  ∃ source, disk.read path = .ok source ∧
    let inside := (asked.see (FileKey.ofPath disk path)).enter
      (Frame.ofSource source (asked.breadcrumb ++ [name.text]) (Path.parent? path))
    asked.includeFile disk name = .ok () inside ∧
      ∃ reports, stream.pop disk = (inside.pop disk).after reports

/-- The file of the include cannot be read, and the stream fails at its name. -/
def Refuses (disk : Disk) (stream : Preprocessor) (name : Token) (asked : Preprocessor) : Prop :=
  let path := asked.includePath name.text
  ∃ error, disk.read path = .error error ∧
    (stream.pop disk).result = .error (.unreadable path error.message (some name.span))

/-- Each include does nothing because its file was opened, reads its file now, fails because the file
cannot be read, or does nothing because its path is mistaken; and what a stream has seen are the files
that were opened, those that could not be read, and the markers of those that come with the compiler. -/
theorem include_settled {stream : Preprocessor} (visited : Visited disk stream events) :
    (∃ more, Visited disk (stream.pop disk).next (events ++ more)) ∧
    stream.seen = events.map FileEvent.key ∧ Distinct stream.seen ∧
    ∀ directive name asked, stream.Asks directive name asked →
      let path := asked.includePath name.text
      (IsOpened disk events path ∧ ¬Mistaken disk events path ∧ Skips disk stream name asked) ∨
      (¬IsOpened disk events path ∧ ¬Mistaken disk events path ∧
        Enters disk stream name asked) ∨
      (¬IsOpened disk events path ∧ ¬Mistaken disk events path ∧
        Refuses disk stream name asked) ∨
      (¬IsOpened disk events path ∧ Mistaken disk events path ∧ Skips disk stream name asked) := by
  obtain ⟨seen, distinct⟩ := visited.seen_eq
  -- Whether the include does anything is decided by its key, and the key by what became of files.
  refine ⟨exists_visited_pop disk stream events visited, seen, distinct, ?_⟩
  intro directive name asked asks path
  have among : (FileKey.ofPath disk path).isAmong (events.map FileEvent.key) = true ↔ _ := isAmong_iff
  rw [← seen, ← (asks.carryOut disk).1] at among
  rcases includeFile_cases disk name asked with ⟨known, here, -⟩ |
    ⟨fresh, error, unread, here, -⟩ | ⟨fresh, source, location, read, -, here, -⟩
  · have skips : Skips disk stream name asked := ⟨here, asks.pop_of_done here⟩
    rcases among.mp known with opened | mistaken
    · exact .inl ⟨opened, not_mistaken (seen ▸ distinct) opened, skips⟩
    · exact .inr (.inr (.inr ⟨fun opened => not_mistaken (seen ▸ distinct) opened mistaken,
        mistaken, skips⟩))
  · have neither := not_or.mp (mt among.mpr (Bool.eq_false_iff.mp fresh))
    exact .inr (.inr (.inl ⟨neither.1, neither.2, error, unread, asks.pop_of_refused here⟩))
  · have neither := not_or.mp (mt among.mpr (Bool.eq_false_iff.mp fresh))
    exact .inr (.inl ⟨neither.1, neither.2, source, read, here, asks.pop_of_done here⟩)

/-- The second include of a file that does not exist does nothing, though the first one fails. -/
theorem include_settled_twice :
    let disk : Disk := .empty
    let stream := ofSource "main.adl" (Utf8.encode "#include \"a\"\n#include \"a\"") []
    (∃ here, (stream.pop disk).result =
      .error (.unreadable "a" ReadError.notFound.message (some here))) ∧
    Visited disk (stream.turn disk) [.refused (.unlocated "a")] ∧
    ∃ directive name asked, (stream.turn disk).Asks directive name asked ∧ name.text = "a" ∧
      ¬IsOpened disk [.refused (.unlocated "a")] "a" ∧ Skips disk (stream.turn disk) name asked := by
  intro disk stream
  let line : Bytes := [35, 105, 110, 99, 108, 117, 100, 101, 32, 34, 97, 34]
  let whole := line ++ 10 :: line
  let reading (cursor : Cursor) (seen : List FileKey) : Preprocessor :=
    ⟨⟨⟨cursor, ["main.adl"], [], false⟩, none, []⟩, [], seen, [], false⟩
  let middle : Cursor := ⟨10 :: line, 1, 13, whole⟩
  have lost : disk.read "a" = .error .notFound := by decide +kernel
  have key : FileKey.ofPath disk "a" = .unlocated "a" := by decide +kernel
  -- The second include is read behind the first, at the line end between them.
  obtain ⟨directive, name, text, once⟩ : ∃ directive name, name.text = "a" ∧
      stream.Asks directive name (reading middle []) := by
    obtain ⟨_, directive⟩ := Cursor.exists_nextToken
      (.ofSource (Utf8.encode "#include \"a\"\n#include \"a\"")) ⟨whole, 1, 1, whole⟩
      ⟨whole.drop 8, 1, 9, whole⟩ .directive "include" (by decide +kernel) rfl (by decide)
      (by decide +kernel) (by decide +kernel) ["main.adl"]
    obtain ⟨_, name⟩ := Cursor.exists_nextToken ⟨whole.drop 8, 1, 9, whole⟩
      ⟨whole.drop 9, 1, 10, whole⟩ middle .string "a" (by decide +kernel) rfl (by decide)
      (by decide +kernel) (by decide +kernel) ["main.adl"]
    exact ⟨_, _, rfl, .of_cursor directive rfl rfl name rfl⟩
  obtain ⟨again, other, spelled, twice⟩ : ∃ directive name, name.text = "a" ∧
      (reading middle [.unlocated "a"]).Asks directive name
        (reading ⟨[], 2, 13, line⟩ [.unlocated "a"]) := by
    obtain ⟨_, directive⟩ := Cursor.exists_nextToken middle ⟨line, 2, 1, line⟩
      ⟨line.drop 8, 2, 9, line⟩ .directive "include" (by decide +kernel) rfl (by decide)
      (by decide +kernel) (by decide +kernel) ["main.adl"]
    obtain ⟨_, name⟩ := Cursor.exists_nextToken ⟨line.drop 8, 2, 9, line⟩
      ⟨line.drop 9, 2, 10, line⟩ ⟨[], 2, 13, line⟩ .string "a" (by decide +kernel) rfl (by decide)
      (by decide +kernel) (by decide +kernel) ["main.adl"]
    exact ⟨_, _, rfl, .of_cursor directive rfl rfl name rfl⟩
  -- Both names are looked for at one path.
  have path : (reading middle []).includePath name.text = "a" := by
    rw [text]
    decide +kernel
  have same : (reading ⟨[], 2, 13, line⟩ [.unlocated "a"]).includePath other.text = "a" := by
    rw [spelled]
    decide +kernel
  -- The first include enters the key of its file, and then it fails.
  obtain ⟨failed, refused⟩ : (reading middle []).includeFile disk name =
        .fail (.unreadable "a" ReadError.notFound.message (some name.span))
          (reading middle [.unlocated "a"]) ∧
      (reading middle []).fileEvents disk name = [.refused (.unlocated "a")] := by
    rcases includeFile_cases disk name (reading middle []) with
      ⟨known, -⟩ | ⟨-, error, unread, failed, refused⟩ | ⟨-, source, location, opened, -⟩
    · cases known
    · rw [path] at unread
      obtain rfl := Except.error.inj (lost.symm.trans unread)
      rw [path, key] at failed refused
      exact ⟨failed, refused⟩
    · rw [path, lost] at opened
      cases opened
  -- One turn takes the first include out, with its failure.
  obtain ⟨turned, events⟩ := once.turn_eq disk
  have behind : stream.turn disk = reading middle [.unlocated "a"] := by
    rw [turned, failed]
    rfl
  have visited : Visited disk (stream.turn disk) _ := (Visited.source "main.adl" _ []).turn
  rw [events, refused] at visited
  have asks : (stream.turn disk).Asks again other _ := behind.symm ▸ twice
  -- What was refused counts as opened from there on, so the law's last case is left.
  have mistaken : Mistaken disk [.refused (.unlocated "a")] "a" := .refused (.head _) (by rw [key])
  have settled := (include_settled visited).2.2.2 again other _ asks
  simp only [same] at settled
  refine ⟨⟨_, once.pop_of_refused failed⟩, visited, again, other, _, asks, spelled, ?_⟩
  rcases settled with ⟨-, sane, -⟩ | ⟨-, sane, -⟩ | ⟨-, sane, -⟩ | ⟨fresh, -, skips⟩
  · exact absurd mistaken sane
  · exact absurd mistaken sane
  · exact absurd mistaken sane
  · exact ⟨fresh, skips⟩

end Preprocessor

end ArgSchema
