import ArgSchema.Preprocessor.Stream
import ArgSchema.Proofs.Preprocessor.Raw
import Mathlib.Data.Finset.Basic

/-! Splicing: what files bring together, told by recursion over their texts and their includes. -/

namespace ArgSchema

/-- Something that a stream brings. -/
inductive Emitted where
  /-- A report. -/
  | report (diagnostic : Diagnostic)
  /-- A token. -/
  | token (token : Token)

/-- Where a text comes from. -/
structure TextPlace where
  /-- The file of the text and the files that include it. -/
  breadcrumb : Breadcrumb
  /-- Where relative includes start, if not in the working directory. -/
  directory? : Option String

/-- What all files share. -/
structure Scope where
  /-- Names that are defined. -/
  names : Finset String
  /-- Files that were opened or asked for, as they are compared. -/
  seen : Finset (List String)

/-- What a directive leads to. -/
inductive Deed where
  /-- The end of everything. -/
  | fails (why : Failure)
  /-- The rest of the text, with conditionals open and names defined. -/
  | goes (opens : List Conditional) (names : Finset String) (rest : RawText)
  /-- Another file, and behind it the rest of the text. -/
  | enters (key : FileKey) (place : TextPlace) (source : Bytes) (rest : RawText)

/-- A deed goes on in a text, in front of it or behind some of its tokens. -/
def Deed.Stays (raw : RawText) : Deed → Prop
  | .fails _ => True
  | .goes _ _ rest => rest = raw ∨ raw.Onward rest
  | .enters .. => False

namespace Splicing

/-- Goes on with the argument of a directive, if it is of the right kind. -/
def withArgument (directive : Token) (expected : String) (accepts : TokenKind → Bool)
    (opens : List Conditional) (names : Finset String) (raw : RawText)
    (f : Token → RawText → List Diagnostic × Deed) : List Diagnostic × Deed :=
  match raw.argument directive expected accepts with
  | (reports, .error why) => (reports, .fails why)
  | (reports, .ok (none, rest)) => (reports, .goes opens names rest)
  | (reports, .ok (some name, rest)) => (reports ++ (f name rest).1, (f name rest).2)

/-- The path of an include, relative to the directory of the text. -/
def includePath (place : TextPlace) (name : String) : String :=
  match place.directory? with
  | some directory => Path.join directory name
  | none => name

/-- What a file is known by: where its path leads, or the path itself if it leads nowhere. -/
def fileKey (disk : Disk) (path : String) : FileKey :=
  match disk.locate path with
  | .ok location => .located location
  | .error _ => .unlocated path

/-- Includes a file by its path. -/
def includeFile (disk : Disk) (place : TextPlace) (scope : Scope) (opens : List Conditional)
    (name : Token) (rest : RawText) : List Diagnostic × Deed :=
  let path := includePath place name.text
  let key := fileKey disk path
  if key.components ∈ scope.seen then ([], .goes opens scope.names rest)
  else match disk.read path with
    -- The splice ends here, so it no longer matters what was seen.
    | .error error => ([], .fails (.unreadable path error.message (some name.span)))
    | .ok source =>
      ([], .enters key ⟨place.breadcrumb ++ [name.text], Path.parent? path⟩ source rest)

/-- Includes a file that comes with the compiler. -/
def includeLibrary (place : TextPlace) (scope : Scope) (opens : List Conditional) (name : Token)
    (rest : RawText) : List Diagnostic × Deed :=
  match LibraryFile.all.find? (·.name = name.text) with
  | none =>
    ([.located (.directive (.unknownLibrary name.text)) name.span], .goes opens scope.names rest)
  | some file =>
    let marker := "<" ++ file.name ++ ">"
    let key := FileKey.unlocated marker
    if key.components ∈ scope.seen then ([], .goes opens scope.names rest)
    else ([], .enters key ⟨place.breadcrumb ++ [marker], none⟩ (Utf8.encode file.source) rest)

/-- Includes what a name in quotes or a bare name says. -/
def includeNamed (disk : Disk) (place : TextPlace) (scope : Scope) (opens : List Conditional)
    (name : Token) (rest : RawText) : List Diagnostic × Deed :=
  if name.kind = .string then includeFile disk place scope opens name rest
  else includeLibrary place scope opens name rest

/-- Adds a name to those that are defined. -/
def define (scope : Scope) (opens : List Conditional) (name : Token) (rest : RawText) :
    List Diagnostic × Deed :=
  if name.text ∈ scope.names then
    ([.warning (.duplicateDefine name.text) name.span], .goes opens scope.names rest)
  else ([], .goes opens (insert name.text scope.names) rest)

/-- Takes a name from those that are defined. -/
def undefine (scope : Scope) (opens : List Conditional) (name : Token) (rest : RawText) :
    List Diagnostic × Deed :=
  if name.text ∈ scope.names then ([], .goes opens (scope.names.erase name.text) rest)
  else ([.warning (.missingDefine name.text) name.span], .goes opens scope.names rest)

/-- The report that a conditional is not closed in its text. -/
def unclosed (conditional : Conditional) : Diagnostic :=
  .located (.directive (.unterminatedConditional conditional.directive)) conditional.span

/-- Opens a conditional in its text, or drops what stands in it. -/
def startConditional (directive : Token) (wanted : Bool) (scope : Scope)
    (opens : List Conditional) (name : Token) (rest : RawText) : List Diagnostic × Deed :=
  let conditional : Conditional := ⟨directive.text, directive.span⟩
  if decide (name.text ∈ scope.names) = wanted then
    ([], .goes (conditional :: opens) scope.names rest)
  else match rest.skip 0 with
    | .error why => ([], .fails why)
    | .ok (closed, after) =>
      (if closed then [] else [unclosed conditional], .goes opens scope.names after)

/-- Closes the innermost conditional of a text. -/
def endConditional (directive : Token) (scope : Scope) (opens : List Conditional)
    (rest : RawText) : List Diagnostic × Deed :=
  match opens with
  | [] => ([.located (.directive .unmatchedEndif) directive.span], .goes [] scope.names rest)
  | _ :: outer => ([], .goes outer scope.names rest)

/-- What a directive reports and leads to. -/
def obey (disk : Disk) (place : TextPlace) (scope : Scope) (opens : List Conditional)
    (directive : Token) (raw : RawText) : List Diagnostic × Deed :=
  -- A name is a word; only an inclusion can take a quoted one.
  let named := withArgument directive "identifier" (· = .identifier) opens scope.names raw
  if directive.text = "include" then
    withArgument directive "string or built-in identifier"
      (fun kind => kind = .string || kind = .identifier) opens scope.names raw
      (includeNamed disk place scope opens)
  else if directive.text = "define" ∨ directive.text = "def" then named (define scope opens)
  else if directive.text = "undefine" ∨ directive.text = "undef" then named (undefine scope opens)
  else if directive.text = "ifdef" then named (startConditional directive true scope opens)
  else if directive.text = "ifndef" then named (startConditional directive false scope opens)
  else if directive.text = "endif" then endConditional directive scope opens raw
  else ([.located (.directive (.unknown directive.text)) directive.span],
    .goes opens scope.names raw)

end Splicing

open Splicing (obey)

/-- A text in its place, with conditionals open in it, brings tokens and reports, and then it ends or
fails; at its end it leaves what all files share. -/
inductive Splices (disk : Disk) : TextPlace → List Conditional → Scope → RawText → List Emitted →
    Except Failure (Scope × Token) → Prop
  /-- A failure ends everything. -/
  | failure {place opens scope reports why} :
      Splices disk place opens scope (.failure reports why) (reports.map .report) (.error why)
  /-- At the end of a text its open conditionals are reported in order of opening. -/
  | ending {place opens scope reports last} :
      Splices disk place opens scope (.ending reports last)
        ((reports ++ opens.reverse.map Splicing.unclosed).map .report) (.ok (scope, last))
  /-- A token that is no directive is brought as it is. -/
  | token {place opens scope reports found rest out result} : found.kind ≠ .directive →
      Splices disk place opens scope rest out result →
      Splices disk place opens scope (.token reports found rest)
        (reports.map .report ++ .token found :: out) result
  /-- A directive may fail. -/
  | fails {place opens scope reports found rest more why} : found.kind = .directive →
      obey disk place scope opens found rest = (more, .fails why) →
      Splices disk place opens scope (.token reports found rest) ((reports ++ more).map .report)
        (.error why)
  /-- A directive may change what is open and defined. -/
  | goes {place opens scope reports found rest more opens' names after out result} :
      found.kind = .directive →
      obey disk place scope opens found rest = (more, .goes opens' names after) →
      Splices disk place opens' { scope with names := names } after out result →
      Splices disk place opens scope (.token reports found rest)
        ((reports ++ more).map .report ++ out) result
  /-- A file that is included for the first time stands in the place of its include. -/
  | enters {place opens scope reports found rest more key inner source after out left last out'
      result} : found.kind = .directive →
      obey disk place scope opens found rest = (more, .enters key inner source after) →
      Splices disk inner [] { scope with seen := insert key.components scope.seen }
        ((Cursor.ofSource source).raw inner.breadcrumb) out (.ok (left, last)) →
      Splices disk place opens left after out' result →
      Splices disk place opens scope (.token reports found rest)
        ((reports ++ more).map .report ++ out ++ out') result
  /-- A file that is included may fail. -/
  | cut {place opens scope reports found rest more key inner source after out why} :
      found.kind = .directive →
      obey disk place scope opens found rest = (more, .enters key inner source after) →
      Splices disk inner [] { scope with seen := insert key.components scope.seen }
        ((Cursor.ofSource source).raw inner.breadcrumb) out (.error why) →
      Splices disk place opens scope (.token reports found rest)
        ((reports ++ more).map .report ++ out) (.error why)

namespace Splicing

variable {disk : Disk} {place : TextPlace} {scope : Scope} {opens : List Conditional}
  {directive : Token} {raw : RawText} {more : List Diagnostic}

/-- Going on with an argument stays in the text if each argument does. -/
theorem stays_withArgument {expected : String} {accepts : TokenKind → Bool}
    {f : Token → RawText → List Diagnostic × Deed} {names : Finset String}
    (stays : ∀ name rest, (f name rest).2.Stays rest) :
    (withArgument directive expected accepts opens names raw f).2.Stays raw := by
  unfold withArgument
  split
  · exact trivial
  · next reports rest taken => exact .inr (RawText.onward_argument taken)
  · next reports name rest taken =>
    have onward := RawText.onward_argument taken
    have given := stays name rest
    -- The argument was taken already, and what is done goes on behind it.
    generalize (f name rest).2 = deed at given
    cases deed with
    | fails why => exact trivial
    | goes opens names after =>
      rcases given with same | further
      · exact .inr (same ▸ onward)
      · exact .inr (onward.trans further)
    | enters key inner source after => exact given

section Directives

variable {name : Token} {rest : RawText}

/-- Defining a name goes on behind it. -/
theorem stays_define : (define scope opens name rest).2.Stays rest := by
  unfold define
  split <;> exact .inl rfl

/-- Taking a definition back goes on behind the name. -/
theorem stays_undefine : (undefine scope opens name rest).2.Stays rest := by
  unfold undefine
  split <;> exact .inl rfl

/-- A conditional goes on behind its name, or behind the text that is dropped. -/
theorem stays_startConditional {wanted : Bool} :
    (startConditional directive wanted scope opens name rest).2.Stays rest := by
  -- The text is left as it is, or it is skipped to the end of the conditional.
  unfold startConditional
  dsimp only
  split
  · exact .inl rfl
  · split
    · exact trivial
    · next closed after skipped => exact .inr (RawText.onward_skip skipped)

/-- Closing a conditional goes on behind it. -/
theorem stays_endConditional : (endConditional directive scope opens raw).2.Stays raw := by
  unfold endConditional
  split <;> exact .inl rfl

end Directives

/-- A directive that includes no file goes on in the same text. -/
theorem stays_obey (other : directive.text ≠ "include") :
    (obey disk place scope opens directive raw).2.Stays raw := by
  unfold obey
  dsimp only
  -- Each of the other directives stays in the text, and so does one that is not known.
  rw [if_neg other]
  split
  · exact stays_withArgument fun _ _ => stays_define
  split
  · exact stays_withArgument fun _ _ => stays_undefine
  -- The two conditionals differ in what they want only.
  split
  · exact stays_withArgument fun _ _ => stays_startConditional
  split
  · exact stays_withArgument fun _ _ => stays_startConditional
  split
  · exact stays_endConditional
  · exact .inl rfl

/-- What a deed leaves to be read, and what it enters, if it does. -/
def Bounded (disk : Disk) (scope : Scope) (raw : RawText) : Deed → Prop
  | .fails _ => True
  | .goes _ _ rest => rest.count ≤ raw.count
  | .enters key _ _ rest => rest.count ≤ raw.count ∧ key.components ∉ scope.seen ∧
    key ∈ Preprocessor.openable disk

/-- What stays in a text leaves no more of it to be read. -/
theorem bounded_of_stays {deed : Deed} (stays : deed.Stays raw) : Bounded disk scope raw deed := by
  -- No file is entered, and what is left of the text is no longer.
  cases deed with
  | fails why => exact trivial
  | goes opens names rest =>
    rcases stays with rfl | onward
    · exact Nat.le_refl _
    · exact onward.count_le
  | enters key inner source rest => exact stays.elim

/-- A file that is entered by its path can be opened and was not seen. -/
theorem bounded_includeFile {name : Token} :
    Bounded disk scope raw (includeFile disk place scope opens name raw).2 := by
  unfold includeFile
  dsimp only
  split
  · exact Nat.le_refl _
  · next fresh =>
    split
    · exact trivial
    · next source opened =>
      refine ⟨Nat.le_refl _, fresh, ?_⟩
      -- A file that was read stands among the files of the disk.
      obtain ⟨location, located, member⟩ := Disk.locate_of_read opened
      obtain ⟨file, stored, same⟩ := List.mem_map.mp member
      have key : fileKey disk (includePath place name.text) = .located file.1 := by
        simp [fileKey, located, same]
      rw [key]
      exact List.mem_append_left _ (List.mem_map.mpr ⟨file, stored, rfl⟩)

/-- A library file that is entered can be opened and was not seen. -/
theorem bounded_includeLibrary {name : Token} :
    Bounded disk scope raw (includeLibrary place scope opens name raw).2 := by
  -- A library file is entered only if it was not used before.
  unfold includeLibrary
  split
  · -- A name without a library file is only reported.
    exact Nat.le_refl _
  · next file found =>
    dsimp only
    split
    · exact Nat.le_refl _
    · next fresh =>
      refine ⟨Nat.le_refl _, fresh, List.mem_append_right _ ?_⟩
      exact List.mem_map.mpr ⟨file, List.mem_of_find?_eq_some found, rfl⟩

/-- An include leaves the text behind its name, and enters only files that can be opened and were not
seen. -/
theorem bounded_includeNamed {name : Token} :
    Bounded disk scope raw (includeNamed disk place scope opens name raw).2 := by
  -- The name is that of a file or of a library.
  unfold includeNamed
  split
  · exact bounded_includeFile
  · exact bounded_includeLibrary

/-- Going on with an argument leaves no more to be read. -/
theorem bounded_withArgument {expected : String} {accepts : TokenKind → Bool}
    {f : Token → RawText → List Diagnostic × Deed} {names : Finset String}
    (bounded : ∀ name rest, Bounded disk scope rest (f name rest).2) :
    Bounded disk scope raw (withArgument directive expected accepts opens names raw f).2 := by
  unfold withArgument
  split
  · exact trivial
  · next reports rest taken => exact (RawText.onward_argument taken).count_le
  · next reports name rest taken =>
    have fewer := (RawText.onward_argument taken).count_le
    have given := bounded name rest
    -- The argument was taken already, so still less is left.
    generalize (f name rest).2 = deed at given
    cases deed with
    | fails why => exact trivial
    | goes opens names after => exact Nat.le_trans given fewer
    | enters key inner source after => exact ⟨Nat.le_trans given.1 fewer, given.2⟩

/-- A directive leaves no more to be read, and enters only files that can be opened and were not. -/
theorem bounded_obey : Bounded disk scope raw (obey disk place scope opens directive raw).2 := by
  -- Of the directives only an include leaves the text.
  by_cases includes : directive.text = "include"
  · unfold obey
    rw [if_pos includes]
    exact bounded_withArgument fun _ _ => bounded_includeNamed
  · exact bounded_of_stays (stays_obey includes)

/-- Keys of the files that could be entered and were not seen. -/
def unseen (disk : Disk) (scope : Scope) : Nat :=
  (Preprocessor.openable disk).countP (·.components ∉ scope.seen)

/-- Seeing more files leaves no more to enter. -/
theorem unseen_le (disk : Disk) {scope later : Scope} (grows : scope.seen ⊆ later.seen) :
    unseen disk later ≤ unseen disk scope := by
  -- What is not seen later was not seen before.
  refine List.countP_mono_left fun key _ fresh => ?_
  simp only [decide_eq_true_eq] at fresh ⊢
  exact fun seen => fresh (grows seen)

/-- Seeing a file that could be entered leaves fewer to enter. -/
theorem unseen_insert_lt {key : FileKey} (fresh : key.components ∉ scope.seen)
    (member : key ∈ Preprocessor.openable disk) :
    unseen disk { scope with seen := insert key.components scope.seen } < unseen disk scope := by
  -- What is still to enter is counted among what was to enter before, and the key is not counted.
  have counted : unseen disk { scope with seen := insert key.components scope.seen } =
      ((Preprocessor.openable disk).filter (·.components ∉ scope.seen)).countP
        (·.components ≠ key.components) := by
    rw [List.countP_filter]
    refine List.countP_congr fun other _ => ?_
    simp [not_or]
  have all : unseen disk scope =
      ((Preprocessor.openable disk).filter (·.components ∉ scope.seen)).length :=
    List.countP_eq_length_filter
  rw [counted, all]
  refine List.countP_lt_length_iff.mpr ⟨key, ?_, by simp⟩
  exact List.mem_filter.mpr ⟨member, by simpa using fresh⟩

end Splicing

namespace Splices

open Splicing

variable {disk : Disk} {place : TextPlace} {opens : List Conditional} {scope : Scope}
  {raw : RawText} {out : List Emitted}

/-- Files that were seen stay seen. -/
theorem seen_grows {result : Except Failure (Scope × Token)}
    (splices : Splices disk place opens scope raw out result) {left : Scope} {last : Token}
    (ended : result = .ok (left, last)) : scope.seen ⊆ left.seen := by
  induction splices generalizing left last with
  | failure => cases ended
  | ending =>
    cases ended
    exact Finset.Subset.refl _
  | token other rest ih => exact ih ended
  | fails => cases ended
  | goes directive obeyed rest ih => exact ih ended
  -- The file that is entered counts as seen within it and behind it.
  | enters directive obeyed inner rest ihInner ih =>
    exact (Finset.subset_insert _ _).trans ((ihInner rfl).trans (ih ended))
  | cut => cases ended

/-- Every text can be spliced, whatever files there are. -/
theorem exists_of (disk : Disk) (place : TextPlace) (opens : List Conditional) (scope : Scope)
    (raw : RawText) : ∃ out result, Splices disk place opens scope raw out result := by
  cases raw with
  | failure reports why => exact ⟨_, _, .failure⟩
  | ending reports last => exact ⟨_, _, .ending⟩
  | token reports found rest =>
    -- A directive is obeyed first, and may enter a file that was not seen before.
    by_cases directive : found.kind = .directive
    · have bounded : Bounded disk scope rest (obey disk place scope opens found rest).2 :=
        bounded_obey
      obtain ⟨more, deed, obeyed⟩ :
          ∃ more deed, obey disk place scope opens found rest = (more, deed) := ⟨_, _, rfl⟩
      rw [obeyed] at bounded
      cases deed with
      | fails why => exact ⟨_, _, .fails directive obeyed⟩
      | goes opens' names after =>
        obtain ⟨out, result, splices⟩ :=
          exists_of disk place opens' { scope with names := names } after
        exact ⟨_, _, .goes directive obeyed splices⟩
      | enters key inner source after =>
        obtain ⟨shorter, fresh, member⟩ := bounded
        have fewer := unseen_insert_lt fresh member
        obtain ⟨out, result, splices⟩ := exists_of disk inner []
          { scope with seen := insert key.components scope.seen }
          ((Cursor.ofSource source).raw inner.breadcrumb)
        -- What comes behind the inclusion is spliced only if the file was read to its end.
        cases result with
        | error why => exact ⟨_, _, .cut directive obeyed splices⟩
        | ok ended =>
          obtain ⟨left, last⟩ := ended
          have kept := unseen_le disk (splices.seen_grows rfl)
          obtain ⟨out', result', splices'⟩ := exists_of disk place opens left after
          exact ⟨_, _, .enters directive obeyed splices splices'⟩
    · -- Any other token shortens the text.
      obtain ⟨out, result, splices⟩ := exists_of disk place opens scope rest
      exact ⟨_, _, .token directive splices⟩
-- An inclusion leaves fewer files unseen, and every other step a shorter text.
termination_by (unseen disk scope, raw.count)
decreasing_by
  · exact .right _ (Nat.lt_succ_of_le bounded)
  · exact .left _ _ fewer
  · exact .left _ _ (Nat.lt_of_le_of_lt kept fewer)
  · exact .right _ (Nat.lt_succ_self _)

end Splices

end ArgSchema
