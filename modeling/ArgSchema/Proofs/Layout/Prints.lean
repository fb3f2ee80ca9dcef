import ArgSchema.Proofs.Grammar.Spelled
import ArgSchema.Proofs.Lexer.Literals

/-! Printed phrases: texts that are read as the tokens of a phrase, and how they are put together. -/

namespace ArgSchema

/-- What a token says that is neither a directive nor the end of a text. -/
def IsPlain (content : TokenKind × String) : Prop :=
  content.1 ≠ .directive ∧ content.1 ≠ .endOfFile

/-- Bytes in front of others are read as tokens that make a phrase. -/
def Prints (Phrase : List Token → Prop) (text rest : Bytes) : Prop :=
  ∃ contents, Reads (text ++ rest) contents rest ∧ (∀ content ∈ contents, IsPlain content) ∧
    ∀ tokens : List Token, tokens.map Token.content = contents → Phrase tokens

/-- A token of some kind. -/
def Mark (kind : TokenKind) (tokens : List Token) : Prop :=
  ∃ token, tokens = [token] ∧ token.kind = kind

/-- One phrase behind another. -/
def Then (First Second : List Token → Prop) (tokens : List Token) : Prop :=
  ∃ front back, tokens = front ++ back ∧ First front ∧ Second back

namespace Prints

variable {Phrase Other : List Token → Prop} {text more rest : Bytes}

/-- What makes a phrase makes all phrases that the phrase is. -/
theorem imp (prints : Prints Phrase text rest) (implies : ∀ tokens, Phrase tokens → Other tokens) :
    Prints Other text rest := by
  obtain ⟨contents, reads, plain, phrase⟩ := prints
  exact ⟨contents, reads, plain, fun tokens same => implies tokens (phrase tokens same)⟩

/-- A text behind another makes one phrase behind another. -/
theorem append (first : Prints Phrase text (more ++ rest)) (second : Prints Other more rest) :
    Prints (Then Phrase Other) (text ++ more) rest := by
  -- The front is read in front of the back, which is then read in front of the rest.
  obtain ⟨contents, reads, plain, phrase⟩ := first
  obtain ⟨contents', reads', plain', phrase'⟩ := second
  refine ⟨contents ++ contents', ?_, fun content member => ?_, fun tokens same => ?_⟩
  · rw [List.append_assoc]
    exact reads.append reads'
  · exact (List.mem_append.mp member).elim (plain content) (plain' content)
  · -- Tokens of the whole text are those of the front and then those of the back.
    obtain ⟨front, back, rfl, before, behind⟩ := List.map_eq_append_iff.mp same
    exact ⟨front, back, rfl, phrase front before, phrase' back behind⟩

/-- Blanks in front of a phrase are skipped. -/
theorem blank (prints : Prints Phrase text rest) {b : UInt8} (space : isBlank b = true) :
    Prints Phrase (b :: text) rest := by
  obtain ⟨contents, reads, plain, phrase⟩ := prints
  exact ⟨contents, .blank space reads, plain, phrase⟩

/-- Nothing is printed as nothing. -/
theorem none (phrase : Phrase []) : Prints Phrase [] rest :=
  ⟨[], .none, nofun, fun _ same => List.map_eq_nil_iff.mp same ▸ phrase⟩

/-- A token is a phrase. -/
theorem token {kind : TokenKind} {name : String} (reads : Reads (text ++ rest) [(kind, name)] rest)
    (plain : IsPlain (kind, name))
    (phrase : ∀ token : Token, token.kind = kind → token.text = name → Phrase [token]) :
    Prints Phrase text rest := by
  -- A single token has the kind and text that were read.
  refine ⟨_, reads, by simpa using plain, fun tokens same => ?_⟩
  obtain ⟨token, rfl, given⟩ := List.map_eq_singleton_iff.mp same
  obtain ⟨kind, name⟩ := Prod.mk.inj given
  exact phrase token kind name

/-- A byte of punctuation is printed as its token. -/
theorem mark {b : UInt8} {kind : TokenKind} {name : String}
    (found : ∀ rest, Lexeme.recognize b rest = Lexeme.plain kind name 0)
    (start : isBlank b = false) (plain : IsPlain (kind, name)) (rest : Bytes) :
    Prints (Mark kind) [b] rest :=
  .token (.one start (found rest)) plain fun token same _ => ⟨token, rfl, same⟩

end Prints

namespace Grammar

/-- Repetitions are printed one by one, if each leaves what stands in front of it alone. -/
theorem Sequence.prints {α : Type} {Phrase : α → List Token → Prop} {text : α → Bytes}
    (Fits : Bytes → Prop) (leads : ∀ item rest, Fits rest → Fits (text item ++ rest))
    {items : List α}
    (each : ∀ item ∈ items, ∀ rest, Fits rest → Prints (Phrase item) (text item) rest)
    {rest : Bytes} (fits : Fits rest) :
    Prints (Sequence Phrase items) (items.flatMap text) rest ∧ Fits (items.flatMap text ++ rest) := by
  -- From the back: each text has to fit in front of those behind it.
  induction items with
  | nil => exact ⟨.none .none, fits⟩
  | cons item items ih =>
    obtain ⟨more, behind⟩ := ih fun other member => each other (by simp [member])
    rw [List.flatMap_cons, List.append_assoc]
    refine ⟨?_, leads item _ behind⟩
    refine ((each item (by simp) _ behind).append more).imp ?_
    rintro _ ⟨front, back, rfl, first, others⟩
    exact .cons first others

/-- A value is printed as a token that stands for it. -/
theorem Value.prints {leaf : NodeKind} (written : leaf.Written) {rest : Bytes}
    (apart : Apart rest) : Prints (Value leaf) (Utf8.encode (Layout.valueText leaf)) rest := by
  obtain ⟨token, spelled, named⟩ := written
  unfold Token.Spelled at spelled
  unfold Token.value? at named
  -- One case for each kind of value, read back by the lexer as that kind.
  cases kind : token.kind <;> simp only [kind] at spelled named <;> cases named
  case reference category property =>
    exact .token (reads_reference spelled.2.1 spelled.1 spelled.2.2 apart.stops) ⟨nofun, nofun⟩
      fun token kind name => .token (by simp [Token.value?, kind, name])
  case string =>
    exact .token (reads_string _ rest) ⟨nofun, nofun⟩
      fun token kind name => .token (by simp [Token.value?, kind, name])
  case regex =>
    exact .token (reads_regex spelled rest) ⟨nofun, nofun⟩
      fun token kind name => .token (by simp [Token.value?, kind, name])
  case snippet =>
    exact .token (reads_snippet spelled rest) ⟨nofun, nofun⟩
      fun token kind name => .token (by simp [Token.value?, kind, name])
  -- A number's text may differ from what was read, but its value does not.
  case number number =>
    obtain ⟨text, reads⟩ := reads_integer spelled.1 spelled.2 apart
    exact .token reads ⟨nofun, nofun⟩
      fun token kind _ => .token (by simp [Token.value?, kind])
  case decimal number =>
    obtain ⟨text, reads⟩ := reads_decimal spelled.1 spelled.2 apart
    exact .token reads ⟨nofun, nofun⟩
      fun token kind _ => .token (by simp [Token.value?, kind])
  case boolean truth =>
    obtain ⟨text, reads⟩ := reads_boolean truth rest
    exact .token reads ⟨nofun, nofun⟩
      fun token kind _ => .token (by simp [Token.value?, kind])

end Grammar

end ArgSchema
