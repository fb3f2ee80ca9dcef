import ArgSchema.Compilation
import ArgSchema.Proofs.Compilation.Record
import ArgSchema.Proofs.Parser.Refinement

/-! Counts of errors: a compilation has a tree exactly if nothing that it recorded is an error. -/

namespace ArgSchema

namespace Diagnostics

variable (record : Diagnostics)

/-- Errors are always recorded, and warnings are never counted as errors. -/
theorem errorCount_push (diagnostic : Diagnostic) : (record.push diagnostic).errorCount =
    record.errorCount + if diagnostic.severity = .error then 1 else 0 := by
  -- Only warnings have a class, and only what has a class can be turned off.
  have admitted : diagnostic.severity = .error → record.admits diagnostic = true := by
    intro error
    unfold Diagnostic.severity at error
    cases kind : diagnostic.warningClass? with
    | none => exact admits_of_classless kind
    | some found => simp [kind] at error
  unfold push errorCount
  by_cases error : diagnostic.severity = .error
  · simp [admitted error, List.countP_append, error]
  · split <;> simp [List.countP_append, error]

/-- A record is free of errors after a report if it was so before and the report is none. -/
theorem errorCount_push_eq_zero {diagnostic : Diagnostic} :
    (record.push diagnostic).errorCount = 0 ↔
      record.errorCount = 0 ∧ diagnostic.severity ≠ .error := by
  rw [errorCount_push]
  split <;> simp [*]

/-- A record is free of errors after reports if it was so before and none of them is an error. -/
theorem errorCount_pushAll_eq_zero {reports : List Diagnostic} :
    (record.pushAll reports).errorCount = 0 ↔
      record.errorCount = 0 ∧ ∀ report ∈ reports, report.severity ≠ .error := by
  -- By induction on the reports, each of which counts by itself.
  induction reports generalizing record with
  | nil => simp [pushAll]
  | cons report rest ih =>
    rw [pushAll, List.foldl_cons, ← pushAll, ih, errorCount_push_eq_zero, and_assoc,
      List.forall_mem_cons]

/-- A record is free of errors after an event if it was so before and the event reports none. -/
theorem errorCount_apply_eq_zero {event : Event} :
    (record.apply event).errorCount = 0 ↔ record.errorCount = 0 ∧ event.isError = false := by
  -- A report may count; a suppression only masks what comes later.
  cases event with
  | report diagnostic => simp [apply, errorCount_push_eq_zero, Event.isError]
  | suppress kind => simp [apply, errorCount, Event.isError]

/-- A record is free of errors after events if it was so before and none of them reports one. -/
theorem errorCount_applyAll_eq_zero {events : List Event} :
    (record.applyAll events).errorCount = 0 ↔
      record.errorCount = 0 ∧ ∀ event ∈ events, event.isError = false := by
  -- By induction on the events, each of which counts by itself.
  induction events generalizing record with
  | nil => simp [applyAll]
  | cons event rest ih =>
    rw [applyAll, List.foldl_cons, ← applyAll, ih, errorCount_apply_eq_zero, and_assoc,
      List.forall_mem_cons]

/-- A record has errors unless it counts none. -/
theorem hasErrors_eq_false : record.hasErrors = false ↔ record.errorCount = 0 := by
  simp [hasErrors]

end Diagnostics

/-- A failure is an error. -/
theorem Failure.severity_diagnostic (failure : Failure) (breadcrumb : Breadcrumb) :
    (failure.diagnostic breadcrumb).severity = .error := by
  -- Whatever stops a compilation is an error, located or not.
  cases failure with
  | unreadable path message span? => cases span? <;> rfl
  | lexical => rfl
  | tree => rfl

namespace Compilation

/-- A compilation has a tree exactly if its record is free of errors. -/
def Decided (compilation : Compilation) : Prop :=
  (∃ tree, compilation.result = .ok tree) ↔ compilation.record.errorCount = 0

/-- A phase that came to its end decides. -/
theorem decided_finish (phase : Phase) (record : Diagnostics) (tree : Tree) :
    (finish phase record tree).Decided := by
  unfold Decided finish
  cases errors : record.hasErrors with
  | true =>
    -- A phase that recorded errors gives no tree, so the count must not be zero.
    have some : record.errorCount ≠ 0 := fun none => by
      rw [(record.hasErrors_eq_false).mpr none] at errors
      cases errors
    simpa using some
  | false => simpa using (record.hasErrors_eq_false).mp errors

/-- A phase that failed decides, since the failure is recorded. -/
theorem decided_fail (phase : Phase) (record : Diagnostics) (breadcrumb : Breadcrumb)
    (failure : Failure) : (fail phase record breadcrumb failure).Decided := by
  unfold Decided fail
  simp [Diagnostics.errorCount_push_eq_zero, failure.severity_diagnostic]

/-- Going on with a phase decides, or leaves what was decided. -/
theorem Decided.andThen {compilation : Compilation} (decided : compilation.Decided)
    (breadcrumb : Breadcrumb) (phase : Phase) (pass : Tree → Reading Tree Unit) :
    (compilation.andThen breadcrumb phase pass).Decided := by
  unfold Compilation.andThen
  -- An earlier failure stays; otherwise the phase itself fails or finishes.
  cases compilation.result with
  | error => exact decided
  | ok tree =>
    simp only
    cases (pass tree).result with
    | error failure => exact decided_fail _ _ _ failure
    | ok => exact decided_finish _ _ _

end Compilation

end ArgSchema
