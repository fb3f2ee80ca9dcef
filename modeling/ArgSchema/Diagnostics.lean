import ArgSchema.Diagnostic.Render

/-! The record of everything reported during one compilation. -/

namespace ArgSchema

/-- Something that happens to the record while a phase runs. -/
inductive Event where
  /-- A problem is reported. -/
  | report (diagnostic : Diagnostic)
  /-- A class of warnings is dropped from here on. -/
  | suppress (kind : WarningClass)
deriving DecidableEq, Repr

/-- Problems in the order they were reported, and the classes of warnings that are dropped. -/
structure Diagnostics where
  /-- Recorded problems. -/
  entries : List Diagnostic
  /-- Classes of warnings that are no longer recorded. -/
  suppressed : List WarningClass
deriving Repr

namespace Diagnostics

/-- A record without entries that drops nothing. -/
def empty : Diagnostics := ⟨[], []⟩

/-- Whether a class of warnings is dropped. -/
def isSuppressed (record : Diagnostics) (kind : WarningClass) : Bool :=
  record.suppressed.contains kind

/-- Whether a diagnostic would be recorded; errors always are. -/
def admits (record : Diagnostics) (diagnostic : Diagnostic) : Bool :=
  match diagnostic.warningClass? with
  | some kind => !record.isSuppressed kind
  | none => true

/-- The record with one more problem, unless it is a suppressed warning. -/
def push (record : Diagnostics) (diagnostic : Diagnostic) : Diagnostics :=
  if record.admits diagnostic then { record with entries := record.entries ++ [diagnostic] }
  else record

/-- The record that drops one more class of warnings from now on. -/
def suppress (record : Diagnostics) (kind : WarningClass) : Diagnostics :=
  if record.isSuppressed kind then record
  else { record with suppressed := record.suppressed ++ [kind] }

/-- The record after an event. -/
def apply (record : Diagnostics) : Event → Diagnostics
  | .report diagnostic => record.push diagnostic
  | .suppress kind => record.suppress kind

/-- The record after a phase's events, in order. -/
def applyAll (record : Diagnostics) (events : List Event) : Diagnostics :=
  events.foldl apply record

/-- The record after several reports, in order. -/
def pushAll (record : Diagnostics) (reports : List Diagnostic) : Diagnostics :=
  reports.foldl push record

/-- Number of entries. -/
def size (record : Diagnostics) : Nat := record.entries.length

/-- Number of warnings. -/
def warningCount (record : Diagnostics) : Nat :=
  record.entries.countP (·.severity = .warning)

/-- Number of errors. -/
def errorCount (record : Diagnostics) : Nat :=
  record.entries.countP (·.severity = .error)

/-- Whether an error was recorded. -/
def hasErrors (record : Diagnostics) : Bool := 0 < record.errorCount

/-- The text of every entry. -/
def render (palette : Palette) (record : Diagnostics) : String :=
  String.join (record.entries.map (·.render palette))

end Diagnostics

end ArgSchema
