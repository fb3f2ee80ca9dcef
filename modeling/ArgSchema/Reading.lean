import ArgSchema.Diagnostic.Basic

/-! Answers of token streams: reports, a value or a failure, and the stream that is left. -/

namespace ArgSchema

/-- What a stream answers when it is asked for something. -/
structure Reading (stream value : Type) where
  /-- Problems found on the way. -/
  reports : List Diagnostic
  /-- What was asked for, or what makes it impossible to have. -/
  result : Except Failure value
  /-- The stream afterwards, also behind a failure. -/
  next : stream

namespace Reading

variable {stream value : Type}

/-- An answer without reports. -/
def ok (found : value) (next : stream) : Reading stream value := ⟨[], .ok found, next⟩

/-- A failure without reports. -/
def fail (failure : Failure) (next : stream) : Reading stream value :=
  ⟨[], .error failure, next⟩

/-- The answer with more reports in front. -/
def after (reading : Reading stream value) (reports : List Diagnostic) : Reading stream value :=
  { reading with reports := reports ++ reading.reports }

/-- The answer with another stream behind it. -/
def mapNext {other : Type} (f : stream → other) (reading : Reading stream value) :
    Reading other value :=
  ⟨reading.reports, reading.result, f reading.next⟩

/-- Goes on with the value of an answer, unless it is a failure. -/
def andThen {other : Type} (reading : Reading stream value)
    (f : value → stream → Reading stream other) : Reading stream other :=
  match reading.result with
  | .ok found => (f found reading.next).after reading.reports
  | .error failure => ⟨reading.reports, .error failure, reading.next⟩

end Reading

end ArgSchema
