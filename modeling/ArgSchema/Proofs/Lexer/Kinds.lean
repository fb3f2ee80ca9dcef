import ArgSchema.Proofs.Lexer.Literals

/-! Kinds of lexemes: a slash starts comments, quotes start quoted text, and nothing starts the end. -/

namespace ArgSchema

/-- A kind of token that neither is quoted nor ends a text. -/
def TokenKind.Bare (kind : TokenKind) : Prop :=
  kind ≠ .string ∧ kind ≠ .regex ∧ kind ≠ .endOfFile

instance : DecidablePred TokenKind.Bare := fun _ => inferInstanceAs (Decidable (_ ∧ _ ∧ _))

namespace Lexeme

/-- A lexeme that is no comment, and no token but a bare one. -/
def Bare (lexeme : Lexeme) : Prop :=
  lexeme.content ≠ .comment ∧
    ∀ kind text warning?, lexeme.content = .token kind text warning? → kind.Bare

/-- A bare token is bare. -/
theorem bare_token {lexeme : Lexeme} {kind : TokenKind} {text : String}
    {warning? : Option Warning} (content : lexeme.content = .token kind text warning?)
    (bare : kind.Bare) : lexeme.Bare := by
  -- The content is the token's, so it is no comment.
  refine ⟨fun comment => ?_, fun kind' text' warning?' given => ?_⟩
  · rw [content] at comment
    cases comment
  · rw [content] at given
    cases given
    exact bare

/-- A name is bare. -/
theorem bare_named (category : Category) (text : String) (tail : Nat) (rest : Bytes) :
    (named category text tail rest).Bare := by
  -- A name alone is of its category's kind, and one in front of a property is a reference.
  have alone : (nameKind category).Bare := by cases category <;> decide
  have property : ∀ name, (TokenKind.reference category name).Bare := fun _ =>
    ⟨by rintro ⟨⟩, by rintro ⟨⟩, by rintro ⟨⟩⟩
  unfold named
  repeat' split
  all_goals first
    | exact bare_token rfl alone
    | exact bare_token rfl (property _)
    | exact ⟨by rintro ⟨⟩, by rintro _ _ _ ⟨⟩⟩

/-- A number is bare. -/
theorem bare_number (negative : Bool) (before : Nat) (bytes : Bytes) :
    (number negative before bytes).Bare := by
  have whole : ∀ digits, (integer negative digits).1.Bare := by
    intro digits
    rw [integer_eq]
    exact ⟨by rintro ⟨⟩, by rintro ⟨⟩, by rintro ⟨⟩⟩
  have decimal : ∀ digits places, (fraction negative digits places).1.Bare := by
    intro digits places
    unfold fraction
    simp only
    split <;> exact ⟨by rintro ⟨⟩, by rintro ⟨⟩, by rintro ⟨⟩⟩
  -- Whatever the digits and the dot decide, one of the two literals is read.
  refine bare_token rfl ?_
  simp only
  repeat' split
  all_goals first | exact decimal _ _ | exact whole _

/-- What starts with a dash is bare. -/
theorem bare_dash (rest : Bytes) : (dash rest).Bare := by
  -- Behind two dashes a label or a negative number is read.
  have double : ∀ rest, (doubleDash rest).Bare := by
    intro rest
    unfold doubleDash
    repeat' split
    all_goals first
      | exact bare_named _ _ _ _
      | exact bare_number _ _ _
      | exact ⟨by rintro ⟨⟩, by rintro _ _ _ ⟨⟩⟩
  unfold dash
  simp only
  repeat' split
  all_goals first
    | exact bare_named _ _ _ _
    | exact double _
    | exact ⟨by rintro ⟨⟩, by rintro _ _ _ ⟨⟩⟩

/-- What starts with an angle bracket is bare. -/
theorem bare_angle (rest : Bytes) : (angle rest).Bare := by
  -- A type or a reference, or nothing that is a token.
  unfold angle
  simp only
  repeat' split
  all_goals first | exact bare_named _ _ _ _ | exact ⟨by rintro ⟨⟩, by rintro _ _ _ ⟨⟩⟩

/-- What starts with a dot is bare. -/
theorem bare_dot (rest : Bytes) : (dot rest).Bare := by
  -- Dots or a property, or nothing that is a token.
  unfold dot
  split
  · exact bare_token rfl (by decide)
  · split
    · exact bare_token rfl (by decide)
    · exact ⟨by rintro ⟨⟩, by rintro _ _ _ ⟨⟩⟩

/-- What starts with a parenthesis is bare. -/
theorem bare_parenthesis (rest : Bytes) : (parenthesis rest).Bare := by
  -- A truth value, or nothing that is a token.
  unfold parenthesis
  simp only
  repeat' split
  all_goals first
    | exact bare_token rfl (by decide)
    | exact ⟨by rintro ⟨⟩, by rintro _ _ _ ⟨⟩⟩

/-- What starts with a plus sign is bare. -/
theorem bare_plus (rest : Bytes) : (plus rest).Bare := by
  -- A snippet, or nothing that is a token.
  unfold plus
  repeat' split
  all_goals first
    | exact bare_token rfl (by decide)
    | exact ⟨by rintro ⟨⟩, by rintro _ _ _ ⟨⟩⟩

/-- What starts with a sigil is bare. -/
theorem bare_sigil {kind : TokenKind} (bare : kind.Bare) (mark : Char) (rest : Bytes) :
    (sigil kind mark rest).Bare := by
  -- With a name behind it, the sign makes a token of its kind.
  unfold sigil
  simp only
  split
  · exact ⟨by rintro ⟨⟩, by rintro _ _ _ ⟨⟩⟩
  · exact bare_token rfl bare

/-- A mark is bare. -/
theorem bare_mark {b : UInt8} {kind : TokenKind} (mark : punctuation? b = some kind)
    (text : String) : (plain kind text 0).Bare := by
  -- The marks are looked up in a table of kinds, and none of them is a quotation.
  refine bare_token rfl ?_
  unfold punctuation? at mark
  repeat' split at mark
  all_goals cases mark
  all_goals decide

/-- Of two lexemes one is chosen. -/
theorem bare_ite {test : Prop} [Decidable test] {yes no : Lexeme} (first : yes.Bare)
    (second : no.Bare) : (if test then yes else no).Bare := by
  split
  · exact first
  · exact second

/-- What starts neither with a slash nor with quotes is bare. -/
theorem bare_recognize {first : UInt8} {rest : Bytes} (slash : first ≠ byte '/')
    (string : first ≠ byte '"') (regex : ¬(first = byte 'r' ∧ rest.head? = some (byte '"'))) :
    (recognize first rest).Bare := by
  have word : ∀ first rest, (word first rest).Bare := fun _ _ => bare_named _ _ _ _
  unfold recognize
  -- The first byte is put to the tests in this order.
  rw [if_neg slash]
  refine bare_ite (bare_dash rest) ?_
  refine bare_ite (bare_angle rest) ?_
  refine bare_ite (bare_dot rest) ?_
  rw [if_neg string, if_neg regex]
  refine bare_ite (bare_parenthesis rest) ?_
  refine bare_ite (bare_plus rest) ?_
  refine bare_ite (bare_number false 0 _) ?_
  refine bare_ite (bare_sigil (by decide) '#' rest) ?_
  refine bare_ite (bare_sigil (by decide) '@' rest) ?_
  cases mark : punctuation? first with
  | some kind => exact bare_mark mark _
  | none => exact bare_ite (word first rest) ⟨by rintro ⟨⟩, by rintro _ _ _ ⟨⟩⟩

/-- A slash starts a comment or nothing. -/
theorem slash_ne_token (rest : Bytes) (kind : TokenKind) (text : String)
    (warning? : Option Warning) : (slash rest).content ≠ .token kind text warning? := by
  -- A slash starts comments and malformed text only.
  intro content
  unfold slash at content
  repeat' split at content
  all_goals cases content

/-- Quoted text is no comment. -/
theorem quotation_ne_comment (kind : TokenKind) (tail : Nat) (rest : Bytes) :
    (quotation kind tail rest).content ≠ .comment := by
  unfold quotation
  split <;> rintro ⟨⟩

/-- Quoted text that is a token is closed, and the token has its text. -/
theorem closed_of_quotation {kind given : TokenKind} {tail : Nat} {rest : Bytes} {text : String}
    {warning? : Option Warning}
    (content : (quotation kind tail rest).content = .token given text warning?) :
    given = kind ∧ ∃ value length, quoted (kind = .regex) rest = .closed value length ∧
      text = Utf8.decodeLossy value ∧ (quotation kind tail rest).length = length + tail + 1 := by
  unfold quotation at *
  -- Only quotes that are closed make a token.
  split at content
  · next value length closed =>
    cases content
    refine ⟨rfl, value, length, closed, rfl, ?_⟩
    rw [Nat.add_comm length]
    rfl
  · cases content
  · cases content

/-- A lexeme starts with a slash, it is quoted text, or it is bare. -/
theorem cases_recognize (first : UInt8) (rest : Bytes) :
    (first = byte '/' ∧ recognize first rest = slash rest) ∨
      (first = byte '"' ∧ recognize first rest = quotation .string 0 rest) ∨
      (∃ more, first = byte 'r' ∧ rest = byte '"' :: more ∧
        recognize first rest = quotation .regex 1 more) ∨
      (recognize first rest).Bare := by
  -- The first bytes that open comments and quotes come first, then everything else.
  by_cases slash : first = byte '/'
  · exact .inl ⟨slash, if_pos slash⟩
  · by_cases string : first = byte '"'
    · subst string
      exact .inr (.inl ⟨rfl, rfl⟩)
    · by_cases regex : first = byte 'r' ∧ rest.head? = some (byte '"')
      · obtain ⟨rfl, quote⟩ := regex
        obtain ⟨more, rfl⟩ := List.head?_eq_some_iff.mp quote
        exact .inr (.inr (.inl ⟨more, rfl, rfl, rfl⟩))
      · exact .inr (.inr (.inr (bare_recognize slash string regex)))

/-- Only a slash starts a comment. -/
theorem slash_of_comment {first : UInt8} {rest : Bytes}
    (content : (recognize first rest).content = .comment) : first = byte '/' := by
  -- Quotes are no comment, and what is bare is none either.
  rcases cases_recognize first rest with ⟨slash, -⟩ | ⟨-, read⟩ | ⟨more, -, -, read⟩ | bare
  · exact slash
  · rw [read] at content
    exact absurd content (quotation_ne_comment _ _ _)
  · rw [read] at content
    exact absurd content (quotation_ne_comment _ _ _)
  · exact absurd content bare.1

/-- No token that is recognized ends a text. -/
theorem ne_endOfFile_of_token {first : UInt8} {rest : Bytes} {kind : TokenKind} {text : String}
    {warning? : Option Warning} (content : (recognize first rest).content = .token kind text warning?) :
    kind ≠ .endOfFile := by
  rintro rfl
  -- Comments are no tokens, and quotes have the kind that they were read for.
  rcases cases_recognize first rest with ⟨-, read⟩ | ⟨-, read⟩ | ⟨more, -, -, read⟩ | bare
  · rw [read] at content
    exact slash_ne_token _ _ _ _ content
  · rw [read] at content
    cases (closed_of_quotation content).1
  · rw [read] at content
    cases (closed_of_quotation content).1
  · exact (bare.2 _ _ _ content).2.2 rfl

/-- A byte from 128 on starts no token. -/
theorem recognize_high {first : UInt8} (high : 0x80 ≤ first) (rest : Bytes) :
    recognize first rest = unexpected 0 first rest := by
  -- Every test of the first byte asks for one below 128.
  have other : ∀ {c : Char}, byte c < 0x80 → first ≠ byte c := ne_byte_of_high high
  have name : isNameByte first = false := Bool.eq_false_iff.mpr fun name =>
    absurd (small_of_isNameByte name) (UInt8.not_lt.mpr high)
  have digit : ¬isDigit first = true := fun digit => by
    rw [isNameByte_of_isDigit digit] at name
    cases name
  have start : ¬isNameStart first = true := fun start => by
    rw [isNameByte_of_isNameStart start] at name
    cases name
  have mark : punctuation? first = none := by
    unfold punctuation?
    rw [if_neg (other (by decide)), if_neg (other (by decide)), if_neg (other (by decide)),
      if_neg (other (by decide)), if_neg (other (by decide))]
  unfold recognize
  rw [if_neg (other (by decide)), if_neg (other (by decide)), if_neg (other (by decide)),
    if_neg (other (by decide)), if_neg (other (by decide)),
    if_neg fun raw => other (by decide) raw.1, if_neg (other (by decide)),
    if_neg (other (by decide)), if_neg digit, if_neg (other (by decide)),
    if_neg (other (by decide)), mark]
  exact if_neg start

/-- A token starts with a byte below 128. -/
theorem small_of_token {first : UInt8} {rest : Bytes} {kind : TokenKind} {text : String}
    {warning? : Option Warning}
    (content : (recognize first rest).content = .token kind text warning?) : first < 0x80 := by
  -- Otherwise the byte would be refused as one that starts no token.
  refine UInt8.not_le.mp fun high => ?_
  rw [recognize_high high] at content
  cases content

end Lexeme

end ArgSchema
