import ArgSchema.Diagnostics

/-! Laws of the record: what an event enters, what all events enter, and what is no longer entered. -/

namespace ArgSchema

/-- The diagnostic that an event reports. -/
def Event.report? : Event → Option Diagnostic
  | .report diagnostic => some diagnostic
  | .suppress _ => none

namespace Diagnostics

variable {record : Diagnostics} {entry : Diagnostic} {kind : WarningClass}

/-- Dropping a class keeps what was recorded. -/
@[simp] theorem entries_suppress (record : Diagnostics) (kind : WarningClass) :
    (record.suppress kind).entries = record.entries := by
  unfold suppress
  split <;> rfl

/-- What belongs to no class is always recorded. -/
theorem admits_of_classless (classless : entry.warningClass? = none) : record.admits entry = true := by
  rw [admits, classless]

/-- An event enters the diagnostic that it reports, if that is admitted, and nothing else. -/
theorem entries_apply (record : Diagnostics) (event : Event) :
    (∃ diagnostic, event = .report diagnostic ∧ record.admits diagnostic = true ∧
        (record.apply event).entries = record.entries ++ [diagnostic]) ∨
      (record.apply event).entries = record.entries ∧
        ∀ diagnostic, event = .report diagnostic → record.admits diagnostic = false := by
  -- A suppression changes what is admitted later, but no entry.
  cases event with
  | suppress kind => exact .inr ⟨record.entries_suppress kind, by simp⟩
  | report diagnostic =>
    simp only [apply, push]
    cases admitted : record.admits diagnostic with
    | true => exact .inl ⟨diagnostic, rfl, admitted, rfl⟩
    | false => exact .inr ⟨rfl, by simp [admitted]⟩

/-- An event drops the class that it suppresses, and no other. -/
theorem isSuppressed_apply (event : Event) :
    (record.apply event).isSuppressed kind = true ↔
      record.isSuppressed kind = true ∨ .suppress kind = event := by
  -- A report drops nothing, and a suppression drops its class.
  cases event with
  | report diagnostic =>
    simp only [apply, push]
    split <;> simp [isSuppressed]
  | suppress other =>
    simp only [apply, suppress, Event.suppress.injEq]
    split
    · -- A class that is dropped already is not noted again.
      next dropped =>
      refine ⟨.inl, ?_⟩
      rintro (already | rfl)
      · exact already
      · exact dropped
    · simp [isSuppressed]

/-- A class is dropped once it is suppressed. -/
theorem isSuppressed_applyAll (events : List Event) :
    (record.applyAll events).isSuppressed kind = true ↔
      record.isSuppressed kind = true ∨ .suppress kind ∈ events := by
  -- By induction on the events.
  induction events generalizing record with
  | nil => simp [applyAll]
  | cons event rest ih =>
    rw [applyAll, List.foldl_cons, ← applyAll, ih, isSuppressed_apply, List.mem_cons, or_assoc]

/-- Events enter nothing but what they report, and all that they report and belongs to no class. -/
theorem entries_applyAll (record : Diagnostics) (events : List Event) :
    ∃ added, (record.applyAll events).entries = record.entries ++ added ∧
      ∀ entry : Diagnostic, (entry ∈ added → .report entry ∈ events) ∧
        (.report entry ∈ events → entry.warningClass? = none → entry ∈ added) := by
  -- By induction on the events, each of which enters its diagnostic or nothing.
  induction events generalizing record with
  | nil => exact ⟨[], by simp [applyAll], by simp⟩
  | cons event rest ih =>
    obtain ⟨added, entries, known⟩ := ih (record.apply event)
    have whole : (record.applyAll (event :: rest)).entries = (record.apply event).entries ++ added :=
      entries
    rcases record.entries_apply event with ⟨diagnostic, rfl, -, grown⟩ | ⟨same, refused⟩
    · -- The first event enters its diagnostic in front of what the rest enters.
      refine ⟨diagnostic :: added, by rw [whole, grown, List.append_assoc]; rfl,
        fun entry => ⟨fun member => ?_, fun member classless => ?_⟩⟩
      · rcases List.mem_cons.mp member with rfl | member
        · exact .head _
        · exact .tail _ ((known entry).1 member)
      · rcases List.mem_cons.mp member with first | later
        · exact Event.report.inj first ▸ .head _
        · exact .tail _ ((known entry).2 later classless)
    · -- The first event enters nothing, and so it reports nothing that belongs to no class.
      refine ⟨added, by rw [whole, same],
        fun entry => ⟨fun member => .tail _ ((known entry).1 member), fun member classless => ?_⟩⟩
      rcases List.mem_cons.mp member with first | later
      · cases (admits_of_classless classless).symm.trans (refused entry first.symm)
      · exact (known entry).2 later classless

/-- Of what belongs to no class everything that is reported is entered, in order. -/
theorem filter_applyAll {keeps : Diagnostic → Bool}
    (classless : ∀ entry : Diagnostic, keeps entry = true → entry.warningClass? = none)
    (record : Diagnostics) (events : List Event) :
    (record.applyAll events).entries.filter keeps =
      record.entries.filter keeps ++ (events.filterMap Event.report?).filter keeps := by
  -- By induction on the events; what is counted has no class, so it is always entered.
  induction events generalizing record with
  | nil => simp [applyAll]
  | cons event rest ih =>
    rw [applyAll, List.foldl_cons, ← applyAll, ih]
    cases event with
    | suppress kind => rw [List.filterMap_cons_none rfl, apply, entries_suppress]
    | report diagnostic =>
      simp only [apply, push, List.filterMap_cons, Event.report?]
      split
      · rw [List.filter_append, List.append_assoc, ← List.filter_append, List.singleton_append]
      · -- What is not admitted has a class, so it is none of those that are counted.
        next refused =>
        have other : ¬keeps diagnostic = true :=
          fun kept => refused (admits_of_classless (classless diagnostic kept))
        rw [List.filter_cons_of_neg other]

/-- What is recorded was recorded before, or is reported. -/
theorem mem_applyAll {events : List Event} (member : entry ∈ (record.applyAll events).entries) :
    entry ∈ record.entries ∨ .report entry ∈ events := by
  -- The record only grows, and what it grows by comes from the events.
  obtain ⟨added, entries, known⟩ := record.entries_applyAll events
  rw [entries] at member
  exact (List.mem_append.mp member).imp_right (known entry).1

/-- What was recorded stays recorded. -/
theorem mem_applyAll_of_mem {events : List Event} (member : entry ∈ record.entries) :
    entry ∈ (record.applyAll events).entries := by
  -- The record only grows.
  obtain ⟨added, entries, -⟩ := record.entries_applyAll events
  rw [entries]
  exact List.mem_append_left _ member

/-- Of a class that is dropped nothing more is recorded. -/
theorem mem_of_isSuppressed {events : List Event} (dropped : record.isSuppressed kind = true)
    (of : entry.warningClass? = some kind) (member : entry ∈ (record.applyAll events).entries) :
    entry ∈ record.entries := by
  -- By induction on the events: a class that is dropped stays dropped.
  induction events generalizing record with
  | nil => exact member
  | cons event rest ih =>
    have earlier := ih ((isSuppressed_apply event).mpr (.inl dropped)) member
    rcases record.entries_apply event with ⟨diagnostic, rfl, admitted, grown⟩ | ⟨same, -⟩
    · rw [grown] at earlier
      rcases List.mem_append.mp earlier with earlier | new
      · exact earlier
      · -- The entry was admitted, though its class was dropped.
        rw [← List.mem_singleton.mp new, admits, of] at admitted
        simp [dropped] at admitted
    · rwa [same] at earlier

/-- Reports of a class are recorded unless it is dropped. -/
theorem mem_applyAll_reports {reports : List Diagnostic} (of : entry.warningClass? = some kind) :
    entry ∈ (record.applyAll (reports.map .report)).entries ↔
      entry ∈ record.entries ∨ entry ∈ reports ∧ record.isSuppressed kind = false := by
  induction reports generalizing record with
  | nil => simp [applyAll]
  | cons report rest ih =>
    -- No report changes what is dropped.
    have same : (record.push report).isSuppressed kind = record.isSuppressed kind := by
      unfold push
      split <;> rfl
    have pushed : entry ∈ (record.push report).entries ↔
        entry ∈ record.entries ∨ entry = report ∧ record.isSuppressed kind = false := by
      unfold push
      by_cases equal : entry = report
      · subst equal
        simp only [admits, of]
        split <;> simp_all
      · split <;> simp [equal]
    rw [List.map_cons, applyAll, List.foldl_cons, ← applyAll, apply, ih, pushed, same,
      List.mem_cons, or_assoc, ← or_and_right]

end Diagnostics

end ArgSchema
