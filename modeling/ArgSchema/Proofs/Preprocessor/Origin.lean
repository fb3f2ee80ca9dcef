import ArgSchema.Proofs.Preprocessor.Frames

/-! Where tokens come from: each token of a stream was read from the text of some file. -/

namespace ArgSchema

/-- A property that every token read from a text has. -/
def Cursor.Brings (P : Token → Prop) : Prop :=
  ∀ breadcrumb cursor token, (Cursor.nextToken breadcrumb cursor).result = .ok token → P token

variable {P : Token → Prop}

namespace Lexer

/-- The tokens that were put back have a property. -/
def Holds (P : Token → Prop) (lexer : Lexer) : Prop := ∀ token ∈ lexer.pushed, P token

/-- At the start of a source no token was put back. -/
theorem holds_ofSource (source : Bytes) (breadcrumb : Breadcrumb) :
    (ofSource source breadcrumb).Holds P := by
  simp [Holds, ofSource]

/-- Putting back a token that has the property keeps it. -/
theorem Holds.push {lexer : Lexer} (holds : lexer.Holds P) {token : Token} (fits : P token) :
    (lexer.push token).Holds P := by
  simpa [Holds, Lexer.push, fits] using holds

/-- Taking a token brings one with the property, and keeps it. -/
theorem Holds.pop (brings : Cursor.Brings P) {lexer : Lexer} (holds : lexer.Holds P) :
    lexer.pop.next.Holds P ∧ ∀ token, lexer.pop.result = .ok token → P token := by
  unfold Lexer.pop
  cases back : lexer.pushed with
  -- Without a token that was put back the next one is read.
  | nil =>
    refine ⟨?_, fun token taken => brings _ _ _ taken⟩
    simp [Holds, Reading.mapNext]
  -- Otherwise it is the first that was put back, which has the property.
  | cons first rest =>
    have known : ∀ token ∈ first :: rest, P token := by simpa [Holds, back] using holds
    refine ⟨fun token member => known token (by simpa [Reading.ok] using .inr member), ?_⟩
    rintro token taken
    cases taken
    exact known _ (by simp)

/-- That the tokens put back have the property stays whatever a stream does with the file. -/
theorem Holds.stays (brings : Cursor.Brings P) : Lexer.Stays (Lexer.Holds P) where
  start := holds_ofSource
  pop holds := (holds.pop brings).1
  back holds taken := (holds.pop brings).1.push ((holds.pop brings).2 _ taken)

end Lexer

namespace Preprocessor

/-- The tokens that were put back in any file have a property. -/
structure Holds (P : Token → Prop) (stream : Preprocessor) : Prop where
  /-- In the root file. -/
  root : stream.root.lexer.Holds P
  /-- In the included files. -/
  includes : ∀ frame ∈ stream.includes, frame.lexer.Holds P

variable {stream : Preprocessor} {disk : Disk}

/-- The tokens that were put back have a property if those of every file do. -/
theorem holds_iff : stream.Holds P ↔ stream.All (Lexer.Holds P) :=
  ⟨fun holds => ⟨holds.root, holds.includes⟩, fun all => ⟨all.root, all.includes⟩⟩

/-- In a stream that was not read from, no token was put back. -/
theorem Opens.holds (opens : Opens disk stream) : stream.Holds P :=
  holds_iff.mpr (opens.all Lexer.holds_ofSource)

namespace Holds

/-- Taking a token brings one with the property, and keeps it. -/
theorem pop (brings : Cursor.Brings P) (disk : Disk) (holds : stream.Holds P) :
    (stream.pop disk).next.Holds P ∧ ∀ token, (stream.pop disk).result = .ok token → P token := by
  obtain ⟨kept, last⟩ := (holds_iff.mp holds).pop (Lexer.Holds.stays brings) disk
  refine ⟨holds_iff.mpr kept, fun token taken => ?_⟩
  -- The last step takes the token from a file, which brings one with the property.
  obtain ⟨earlier, all, step⟩ := last token taken
  exact (all.current.pop brings).2 token step.taken

/-- Each token of a stream has the property. -/
theorem drain (brings : Cursor.Brings P) (holds : stream.Holds P) :
    ∀ token ∈ (stream.drain disk).tokens.map (·.2), P token := by
  -- By induction on the tokens of the stream, whose pushed tokens have the property at each step.
  fun_induction Preprocessor.drain disk stream with
  | case1 => simp
  | case2 => simp
  | case3 stream token taken inside rest ih =>
    obtain ⟨kept, fits⟩ := holds.pop brings disk
    intro other member
    simp only [List.map_cons, List.mem_cons] at member
    rcases member with rfl | member
    · -- The first token has the property, and the others by induction.
      exact fits _ taken
    · exact ih kept other member

end Holds

end Preprocessor

end ArgSchema
