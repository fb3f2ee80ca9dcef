import ArgSchema.Proofs.Compilation.Counts

/-! Suppression: classes that are dropped from the start take their warnings out of the record, and
change nothing else. -/

namespace ArgSchema

/-- Whether a diagnostic is a warning of certain classes. -/
def Diagnostic.isOf (kinds : List WarningClass) (diagnostic : Diagnostic) : Bool :=
  diagnostic.warningClass?.any kinds.contains

/-- What is of certain classes is a warning. -/
theorem Diagnostic.severity_of_isOf {kinds : List WarningClass} {diagnostic : Diagnostic}
    (listed : diagnostic.isOf kinds = true) : diagnostic.severity = .warning := by
  -- Only a warning has a class, and an error has none to be listed.
  unfold isOf at listed
  unfold severity
  cases kind : diagnostic.warningClass? with
  | none => simp [kind] at listed
  | some kind => rfl

namespace Diagnostics

/-- The record that drops certain classes from the start. -/
def dropping (kinds : List WarningClass) : Diagnostics := kinds.foldl suppress .empty

/-- A record is another one without the warnings of certain classes, which it also drops from here
on. -/
structure Masks (kinds : List WarningClass) (masked full : Diagnostics) : Prop where
  /-- The warnings of these classes are missing, and nothing else. -/
  entries : masked.entries = full.entries.filter (!·.isOf kinds)
  /-- These classes are dropped in addition to those that the other record drops. -/
  suppressed : ∀ kind, masked.isSuppressed kind = true ↔
    kind ∈ kinds ∨ full.isSuppressed kind = true

namespace Masks

variable {kinds : List WarningClass} {masked full : Diagnostics}

/-- What is of the classes is admitted by neither record, and what is not by both or none. -/
theorem admits (masks : masked.Masks kinds full) (diagnostic : Diagnostic) :
    masked.admits diagnostic = (full.admits diagnostic && !diagnostic.isOf kinds) := by
  unfold Diagnostics.admits Diagnostic.isOf
  cases diagnostic.warningClass? with
  | none => rfl
  | some kind =>
    -- The class is dropped from one record if it is from the other, or if it is given.
    have dropped := masks.suppressed kind
    rw [Bool.eq_iff_iff]
    simp only [Bool.not_eq_true', Bool.and_eq_true, Option.any_some, List.contains_iff_mem,
      Bool.eq_false_iff, ne_eq, dropped, not_or, and_comm]

/-- A report enters both records, or only the full one if it is of the classes, or none. -/
theorem push (masks : masked.Masks kinds full) (diagnostic : Diagnostic) :
    (masked.push diagnostic).Masks kinds (full.push diagnostic) := by
  have admitted := masks.admits diagnostic
  unfold Diagnostics.push
  cases known : full.admits diagnostic with
  | false =>
    -- What the full record does not admit is in neither.
    rw [known, Bool.false_and] at admitted
    simpa [admitted] using masks
  | true =>
    rw [known, Bool.true_and] at admitted
    cases listed : diagnostic.isOf kinds with
    | false =>
      rw [listed, Bool.not_false] at admitted
      simp only [admitted, if_true]
      exact ⟨by simp [masks.entries, listed], masks.suppressed⟩
    | true =>
      -- Only the full record has this warning, and it is one of those that are missing.
      rw [listed, Bool.not_true] at admitted
      simp only [admitted, if_true, Bool.false_eq_true, if_false]
      exact ⟨by simp [masks.entries, listed], masks.suppressed⟩

/-- A class that is dropped in the middle is dropped from both records. -/
theorem suppress (masks : masked.Masks kinds full) (kind : WarningClass) :
    (masked.suppress kind).Masks kinds (full.suppress kind) := by
  -- Suppressing adds the same kind on both sides.
  refine ⟨by simpa using masks.entries, fun other => ?_⟩
  have grown := fun record : Diagnostics => @isSuppressed_apply record other (.suppress kind)
  simp only [apply] at grown
  rw [grown, grown, masks.suppressed, or_assoc]

/-- An event does the same to both records. -/
theorem apply (masks : masked.Masks kinds full) (event : Event) :
    (masked.apply event).Masks kinds (full.apply event) := by
  cases event with
  | report diagnostic => exact masks.push diagnostic
  | suppress kind => exact masks.suppress kind

/-- Events do the same to both records. -/
theorem applyAll (masks : masked.Masks kinds full) (events : List Event) :
    (masked.applyAll events).Masks kinds (full.applyAll events) := by
  -- By induction on the events, with the law for one of them as the step.
  induction events generalizing masked full with
  | nil => exact masks
  | cons event rest ih => exact ih (masks.apply event)

/-- Reports do the same to both records. -/
theorem pushAll (masks : masked.Masks kinds full) (reports : List Diagnostic) :
    (masked.pushAll reports).Masks kinds (full.pushAll reports) := by
  -- By induction on the reports, with the law for one of them as the step.
  induction reports generalizing masked full with
  | nil => exact masks
  | cons report rest ih => exact ih (masks.push report)

/-- Classes that are dropped from the start are missing from the record of what follows. -/
theorem dropping (kinds : List WarningClass) :
    (Diagnostics.dropping kinds).Masks kinds Diagnostics.empty := by
  have entries : ∀ record : Diagnostics, (kinds.foldl Diagnostics.suppress record).entries =
      record.entries := by
    induction kinds with
    | nil => exact fun _ => rfl
    | cons kind rest ih => exact fun record => (ih _).trans (record.entries_suppress kind)
  -- Which classes are dropped is known of events, and these are as many events.
  have same : Diagnostics.dropping kinds = Diagnostics.empty.applyAll (kinds.map .suppress) := by
    rw [Diagnostics.dropping, Diagnostics.applyAll, List.foldl_map]
    rfl
  refine ⟨entries .empty, fun kind => ?_⟩
  rw [same, isSuppressed_applyAll]
  simp [Diagnostics.empty, isSuppressed]

end Masks

/-- A record lacks the warnings of certain classes that another has, and agrees with it in all else. -/
structure Lacks (kinds : List WarningClass) (masked full : Diagnostics) : Prop where
  /-- The entries are the others in their order, without those of the classes. -/
  entries : masked.entries = full.entries.filter (!·.isOf kinds)
  /-- The errors are the same in the same order. -/
  errors : masked.entries.filter (·.severity = .error) = full.entries.filter (·.severity = .error)
  /-- As many errors are counted. -/
  errorCount : masked.errorCount = full.errorCount
  /-- Warnings that are missing are not counted. -/
  warningCount : masked.warningCount + full.entries.countP (·.isOf kinds) = full.warningCount

namespace Masks

variable {kinds : List WarningClass} {masked full : Diagnostics}

/-- What is missing are warnings, so all errors are there, and counts differ by what is missing. -/
theorem lacks (masks : masked.Masks kinds full) : masked.Lacks kinds full := by
  have errors : masked.entries.filter (·.severity = .error) =
      full.entries.filter (·.severity = .error) := by
    rw [masks.entries, List.filter_filter]
    refine List.filter_congr fun entry _ => ?_
    -- What is of the classes is a warning, and no error is missing.
    cases listed : entry.isOf kinds with
    | false => rw [Bool.not_false, Bool.and_true]
    | true => simp [Diagnostic.severity_of_isOf listed]
  refine ⟨masks.entries, errors, ?_, ?_⟩
  · simp only [Diagnostics.errorCount, List.countP_eq_length_filter, errors]
  · -- The entries of the classes are warnings, and count among them.
    have missing : (full.entries.filter (·.isOf kinds)).countP (·.severity = .warning) =
        full.entries.countP (·.isOf kinds) := by
      rw [List.countP_filter]
      refine List.countP_congr fun entry _ => ?_
      rw [Bool.and_eq_true, decide_eq_true_eq]
      exact ⟨And.right, fun listed => ⟨Diagnostic.severity_of_isOf listed, listed⟩⟩
    simp only [Diagnostics.warningCount, masks.entries, ← missing]
    rw [List.countP_eq_countP_filter_add full.entries _ (·.isOf kinds), Nat.add_comm]

/-- Both records have errors or neither has. -/
theorem hasErrors (masks : masked.Masks kinds full) : masked.hasErrors = full.hasErrors := by
  rw [Diagnostics.hasErrors, Diagnostics.hasErrors, masks.lacks.errorCount]

end Masks

end Diagnostics

/-- What the parser and the passes leave behind if they go on whatever they report. -/
structure Analysis where
  /-- Everything that was reported. -/
  record : Diagnostics
  /-- The tree with its tables and links, or the failure that ended the analysis. -/
  result : Except Failure Tree

namespace Analysis

/-- Goes on with a pass over the tree. -/
def andThen (analysis : Analysis) (pass : Tree → Reading Tree Unit) : Analysis :=
  match analysis.result with
  | .error _ => analysis
  | .ok tree =>
    let reading := pass tree
    ⟨analysis.record.pushAll reading.reports, reading.result.map fun _ => reading.next⟩

/-- Two analyses have the same outcome, and one lacks the warnings of certain classes. -/
structure Lacks (kinds : List WarningClass) (masked full : Analysis) : Prop where
  /-- The outcome is the same: the failure, or the tree with its tables and links. -/
  result : masked.result = full.result
  /-- The record lacks these warnings and no more. -/
  record : masked.record.Lacks kinds full.record

variable {kinds : List WarningClass} {masked full : Analysis}

/-- A pass has the same outcome in both analyses, since it does not look at the record. -/
theorem masks_andThen (records : masked.record.Masks kinds full.record)
    (results : masked.result = full.result) (pass : Tree → Reading Tree Unit) :
    (masked.andThen pass).record.Masks kinds (full.andThen pass).record ∧
      (masked.andThen pass).result = (full.andThen pass).result := by
  unfold andThen
  rw [results]
  cases full.result with
  | error => exact ⟨records, results⟩
  -- The same tree is given to the pass, so that it reports the same.
  | ok tree => exact ⟨records.pushAll _, rfl⟩

end Analysis

/-- Parses a stream and runs both passes over its tree, whatever is reported on the way. -/
def Preprocessor.analyse (disk : Disk) (record : Diagnostics) (stream : Preprocessor) : Analysis :=
  let parsed := stream.parse disk
  let analysis : Analysis := ⟨record.applyAll parsed.events, parsed.result⟩
  (analysis.andThen Tree.buildSymbolTable).andThen Tree.checkReferences

/-- Dropping classes of warnings from the start takes the warnings of these classes out of what a
stream's analysis records, and has no other effect: the outcome is the same, with the same tree,
tables and links, the other entries are the same in the same order, and they are counted. -/
theorem Preprocessor.analyse_dropping (disk : Disk) (stream : Preprocessor)
    (kinds : List WarningClass) :
    (stream.analyse disk (.dropping kinds)).Lacks kinds (stream.analyse disk .empty) := by
  -- Parsing brings the same events and the same tree, and so do the passes over the tree.
  have parsed := (Diagnostics.Masks.dropping kinds).applyAll (stream.parse disk).events
  obtain ⟨registered, same⟩ := @Analysis.masks_andThen kinds ⟨_, (stream.parse disk).result⟩
    ⟨_, (stream.parse disk).result⟩ parsed rfl Tree.buildSymbolTable
  obtain ⟨resolved, same⟩ := Analysis.masks_andThen registered same Tree.checkReferences
  exact ⟨same, resolved.lacks⟩

namespace Compilation

/-- Two compilations have the same outcome, and one lacks the warnings of certain classes. -/
structure Lacks (kinds : List WarningClass) (masked full : Compilation) : Prop where
  /-- The outcome is the same: the phase that found errors, or the checked tree. -/
  result : masked.result = full.result
  /-- The record lacks these warnings and no more. -/
  record : masked.record.Lacks kinds full.record

/-- A compilation has the same outcome as another so far, and records as much but for certain
classes. -/
def Masks (kinds : List WarningClass) (masked full : Compilation) : Prop :=
  masked.record.Masks kinds full.record ∧ masked.result = full.result

section Masks

variable {kinds : List WarningClass} {masked full : Diagnostics}

/-- A phase stops in both compilations or in neither, since only errors stop it. -/
theorem masks_finish (records : masked.Masks kinds full) (phase : Phase) (tree : Tree) :
    (finish phase masked tree).Masks kinds (finish phase full tree) := by
  refine ⟨records, ?_⟩
  simp only [finish, records.hasErrors]

/-- A failure is recorded in both compilations. -/
theorem masks_fail (records : masked.Masks kinds full) (phase : Phase) (breadcrumb : Breadcrumb)
    (failure : Failure) :
    (fail phase masked breadcrumb failure).Masks kinds (fail phase full breadcrumb failure) :=
  ⟨records.push _, rfl⟩

/-- Going on with a phase has the same outcome in both compilations. -/
theorem Masks.andThen {masked full : Compilation} (masks : masked.Masks kinds full)
    (breadcrumb : Breadcrumb) (phase : Phase) (pass : Tree → Reading Tree Unit) :
    (masked.andThen breadcrumb phase pass).Masks kinds (full.andThen breadcrumb phase pass) := by
  obtain ⟨records, results⟩ := masks
  unfold Compilation.andThen
  -- What the phase does depends on the tree alone, which both compilations share.
  rw [results]
  cases full.result with
  | error => exact ⟨records, results⟩
  | ok tree =>
    dsimp only
    cases (pass tree).result with
    | error failure => exact masks_fail (records.pushAll _) phase breadcrumb failure
    | ok => exact masks_finish (records.pushAll _) phase _

/-- A stream is compiled with the same outcome. -/
theorem masks_compile (records : masked.Masks kinds full) (disk : Disk) (breadcrumb : Breadcrumb)
    (stream : Preprocessor) :
    (stream.compile disk masked breadcrumb).Masks kinds (stream.compile disk full breadcrumb) := by
  -- Both passes go on behind the parser, which comes to the same end.
  refine Masks.andThen (Masks.andThen ?_ _ _ _) _ _ _
  cases (stream.parse disk).result with
  | error failure => exact masks_fail (records.applyAll _) .parse breadcrumb failure
  | ok tree => exact masks_finish (records.applyAll _) .parse tree

end Masks

/-- Dropping classes of warnings from the start takes the warnings of these classes out of what a
compilation of a source or a file records, and the compilation comes to the same end. -/
theorem compile_dropping (disk : Disk) (name : String) (source : Bytes) (path : String)
    (defines : List String) (kinds : List WarningClass) :
    (compileSource disk (.dropping kinds) name source defines).Lacks kinds
        (compileSource disk .empty name source defines) ∧
      (compileFile disk (.dropping kinds) path defines).Lacks kinds
        (compileFile disk .empty path defines) := by
  have start := Diagnostics.Masks.dropping kinds
  constructor
  · obtain ⟨records, same⟩ := masks_compile start disk [name] (.ofSource name source defines)
    exact ⟨same, records.lacks⟩
  · unfold compileFile
    -- A file that cannot be opened is recorded whatever is dropped.
    cases Preprocessor.openFile disk path defines with
    | error failure => exact ⟨rfl, (start.push _).lacks⟩
    | ok stream =>
      obtain ⟨records, same⟩ := masks_compile start disk [path] stream
      exact ⟨same, records.lacks⟩

end Compilation

end ArgSchema
