import ArgSchema.Proofs.Lexer.Names
import ArgSchema.Proofs.Text.Digits

/-! Literals: they read back from the way they are written. -/

namespace ArgSchema

namespace Lexeme

/-- Digits are stored as one byte each, which reading takes for digits of the same value. -/
theorem bytes_of_digits {chars : List Char} (digits : AreDigits chars) :
    ∃ bytes, Utf8.encode (String.ofList chars) = bytes ∧ bytes.length = chars.length ∧
      (∀ b ∈ bytes, isDigit b = true) ∧
      digitsValue bytes = Nat.ofDigitChars 10 chars 0 := by
  -- A digit is one byte, whose value is counted from that of zero.
  have code : ∀ c ∈ chars, c.toNat < 128 ∧ isDigit (UInt8.ofNat c.toNat) = true ∧
      (UInt8.ofNat c.toNat).toNat - (byte '0').toNat = c.toNat - '0'.toNat := by
    intro c member
    have digit := digits c member
    simp only [Char.isDigit, Bool.and_eq_true, decide_eq_true_eq, ge_iff_le] at digit
    have low : 48 ≤ c.toNat := digit.1
    have high : c.toNat ≤ 57 := digit.2
    have same := Utf8.toNat_ofNat_byte (show c.toNat < 256 by omega)
    refine ⟨by omega, ?_, by rw [same]; rfl⟩
    simp only [isDigit, Bool.and_eq_true, decide_eq_true_eq, UInt8.le_iff_toNat_le, same]
    exact ⟨low, high⟩
  -- So the text is stored one byte for each digit.
  have stored : Utf8.encode (String.ofList chars) =
      chars.map fun c => UInt8.ofNat c.toNat := by
    rw [Utf8.encode_ofList, List.map_eq_flatMap]
    exact List.flatMap_congr fun c member => Utf8.encodeChar_ascii (code c member).1
  refine ⟨_, stored, List.length_map _, fun b member => ?_, ?_⟩
  · obtain ⟨c, inside, rfl⟩ := List.mem_map.mp member
    exact (code c inside).2.1
  · unfold digitsValue Nat.ofDigitChars
    rw [List.foldl_map]
    exact List.foldl_ext _ _ _ fun value c member => by rw [(code c member).2.2, Nat.mul_comm]

/-- A digit is recognized as the start of a number. -/
theorem recognize_digit {first : UInt8} (digit : isDigit first = true) (rest : Bytes) :
    recognize first rest = number false 0 (first :: rest) := by
  -- What starts a number starts nothing else.
  have other : ∀ {c : Char}, isDigit (byte c) = false → first ≠ byte c := by
    rintro c apart rfl
    rw [digit] at apart
    cases apart
  unfold recognize
  rw [if_neg (other (by decide)), if_neg (other (by decide)), if_neg (other (by decide)),
    if_neg (other (by decide)), if_neg (other (by decide)),
    if_neg fun raw => other (by decide) raw.1, if_neg (other (by decide)),
    if_neg (other (by decide)), if_pos digit]

/-- No blank is a digit. -/
theorem isBlank_of_isDigit {b : UInt8} (digit : isDigit b = true) : isBlank b = false := by
  -- Each of the four blanks is asked.
  cases blank : isBlank b with
  | false => rfl
  | true =>
    simp only [isBlank, Bool.or_eq_true, decide_eq_true_eq] at blank
    rcases blank with ((rfl | rfl) | rfl) | rfl <;> cases digit

/-- Digits are recognized as a number, and behind three dashes as a negative one. -/
theorem recognize_number (negative : Bool) {digits : Bytes} (some : digits ≠ [])
    (all : ∀ b ∈ digits, isDigit b = true) :
    ∃ first body, Utf8.encode (if negative then "---" else "") ++ digits = first :: body ∧
      isBlank first = false ∧ ∃ dashes, body.length = dashes + digits.length - 1 ∧
        ∀ after, recognize first (body ++ after) = number negative dashes (digits ++ after) := by
  obtain ⟨digit, more, rfl⟩ := List.exists_cons_of_ne_nil some
  have first := all digit (by simp)
  cases negative with
  -- A number without a sign starts with its first digit.
  | false =>
    refine ⟨digit, more, rfl, isBlank_of_isDigit first, 0, by simp, fun after => ?_⟩
    exact recognize_digit first _
  -- A negative one starts with three dashes, behind which a digit stands.
  | true =>
    refine ⟨byte '-', byte '-' :: byte '-' :: digit :: more, rfl, by decide, 3, by simp; omega,
      fun after => ?_⟩
    have found : recognize (byte '-') (byte '-' :: byte '-' :: digit :: more ++ after) =
        doubleDash (byte '-' :: (digit :: more ++ after)) := rfl
    have begins : (digit :: more ++ after).head?.any isDigit = true := first
    rw [found, doubleDash, if_pos rfl, if_pos begins]

/-- A digit is a byte that names go on with. -/
theorem isNameByte_of_isDigit {b : UInt8} (digit : isDigit b = true) : isNameByte b = true := by
  simp [isNameByte, digit]

/-- Nothing that leaves a number alone starts with a digit. -/
theorem not_digit_of_stops {rest : Bytes} (stops : Stops rest) :
    ∀ b ∈ rest.head?, isDigit b = false := by
  intro b member
  -- A digit would belong to a name, and none goes on here.
  cases digit : isDigit b with
  | false => rfl
  | true =>
    have name := isNameByte_of_isDigit digit
    rw [(stops b member).1] at name
    cases name

/-- What was read as a literal is a token that takes `before` bytes and then some others. -/
def literal (given : TokenKind × String × Option Warning) (before length : Nat) : Lexeme :=
  ⟨.token given.1 given.2.1 given.2.2, before + length - 1⟩

/-- Digits are read as an integer if neither a digit nor a dot and a digit follows them. -/
theorem number_whole (negative : Bool) (before : Nat) {digits rest : Bytes}
    (all : ∀ b ∈ digits, isDigit b = true) (stop : ∀ b ∈ rest.head?, isDigit b = false)
    (dot : ∀ after, rest = byte '.' :: after → after.head?.any isDigit = false) :
    number negative before (digits ++ rest) =
      literal (integer negative digits) before digits.length := by
  -- The digits go as far as they can, and no dot with digits follows them.
  have taken := takeWhile_append_stop all stop
  unfold number
  simp only [taken, List.drop_left]
  split
  · -- A dot behind the digits would have to be followed by another.
    next mark after =>
    rw [if_neg]
    · rfl
    · rintro ⟨rfl, digit⟩
      rw [dot after rfl] at digit
      cases digit
  · rfl

/-- A dot behind a number that nothing is joined to is one of several. -/
theorem not_digit_of_dots {rest : Bytes} (apart : Apart rest) {after : Bytes}
    (same : rest = byte '.' :: after) : after.head?.any isDigit = false := by
  rw [apart.dots after same]
  rfl

/-- Digits, a dot and digits are read as a decimal. -/
theorem number_places (negative : Bool) (before : Nat) {whole places : Bytes}
    (all : ∀ b ∈ whole ++ places, isDigit b = true) (some : places ≠ []) {rest : Bytes}
    (stop : ∀ b ∈ rest.head?, isDigit b = false) :
    number negative before (whole ++ byte '.' :: (places ++ rest)) =
      literal (fraction negative whole places) before (whole.length + 1 + places.length) := by
  have digits : ∀ b ∈ whole, isDigit b = true := fun b member => all b (by simp [member])
  have digits' : ∀ b ∈ places, isDigit b = true := fun b member => all b (by simp [member])
  have taken : (whole ++ byte '.' :: (places ++ rest)).takeWhile isDigit = whole :=
    takeWhile_append_stop digits (by simp; decide)
  have taken' := takeWhile_append_stop digits' stop
  -- There is a digit behind the dot.
  have begins : (places ++ rest).head?.any isDigit = true := by
    obtain ⟨digit, more, rfl⟩ := List.exists_cons_of_ne_nil some
    exact digits' digit (by simp)
  unfold number
  simp only [taken, List.drop_left, begins, and_self, if_true, taken']
  rfl

/-- Digits that nothing is joined to are an integer. -/
theorem number_integer (negative : Bool) (dashes : Nat) {digits : Bytes}
    (all : ∀ b ∈ digits, isDigit b = true) {rest : Bytes} (apart : Apart rest)
    {value : Int}
    (same : (if negative then -digitsValue digits else digitsValue digits : Int) = value)
    (low : leastInteger ≤ value) (high : value ≤ greatestInteger) :
    ∃ text, number negative dashes (digits ++ rest) =
      plain (.number value) text (dashes + digits.length - 1) := by
  rw [number_whole negative dashes all (not_digit_of_stops apart.stops) fun _ =>
    not_digit_of_dots apart]
  -- A value in range is added up without being clamped.
  have found : accumulate? negative digits = some value := by
    rw [accumulate?_eq, signed, same]
    exact fits?_of_mem low high
  unfold literal integer
  simp only [found]
  exact ⟨_, rfl⟩

/-- Digits, a dot and digits are a decimal. -/
theorem number_fraction (negative : Bool) (dashes : Nat) {whole places : Bytes}
    (all : ∀ b ∈ whole ++ places, isDigit b = true) (some : places ≠ []) {rest : Bytes}
    (stops : Stops rest) {value : Binary64}
    (same : Binary64.ofDecimal negative ⟨digitsValue (whole ++ places), places.length⟩ = value)
    (finite : value.isInfinite = false) :
    ∃ text, number negative dashes (whole ++ byte '.' :: (places ++ rest)) =
      plain (.decimal value) text (dashes + (whole.length + 1 + places.length) - 1) := by
  -- All digits count as one number, of which the places are a part.
  rw [number_places negative dashes all some (not_digit_of_stops stops)]
  unfold literal fraction
  simp only [same, finite, Bool.false_eq_true, if_false]
  exact ⟨_, rfl⟩

end Lexeme

/-- A text is read from quotes. -/
theorem reads_string (text : String) (rest : Bytes) :
    Reads (Utf8.encode (Layout.quotedText text) ++ rest) [(.string, text)] rest := by
  -- A quote, the characters one by one, and a quote.
  have stored : Utf8.encode (Layout.quotedText text) = byte '"' ::
      ((text.toList.flatMap fun c => Utf8.encode (Layout.escaped c)) ++ [byte '"']) := by
    rw [Layout.quotedText, Utf8.encode_append, Utf8.encode_append, Utf8.encode_join,
      List.flatMap_map]
    rfl
  rw [stored]
  refine .one (by decide) ?_
  rw [List.append_assoc, List.singleton_append]
  have found : ∀ bytes, Lexeme.recognize (byte '"') bytes = Lexeme.quotation .string 0 bytes :=
    fun _ => rfl
  have cooked : decide (TokenKind.string = .regex) = false := rfl
  have read : Utf8.decodeLossy (text.toList.flatMap String.utf8EncodeChar) = text :=
    Utf8.decodeLossy_encode text
  rw [found, Lexeme.quotation, cooked, Lexeme.quoted_text]
  simp only [read, Nat.zero_add, List.length_append, List.length_singleton]

/-- A regular expression is read from quotes behind an `r`. -/
theorem reads_regex {text : String} (raw : Lexeme.RawText (Utf8.encode text)) (rest : Bytes) :
    Reads (Utf8.encode (Layout.regexText text) ++ rest) [(.regex, text)] rest := by
  have stored : Utf8.encode (Layout.regexText text) = byte 'r' :: (byte '"' ::
      ((Utf8.encode text).flatMap Lexeme.rawEscape ++ [byte '"'])) := by
    -- What is written for a character is what is written for its bytes.
    have inner : (Utf8.encode text).flatMap Lexeme.rawEscape =
        text.toList.flatMap fun c => (String.utf8EncodeChar c).flatMap Lexeme.rawEscape :=
      List.flatMap_assoc
    rw [Layout.regexText, Utf8.encode_append, Utf8.encode_append, Utf8.encode_join,
      List.flatMap_map, List.flatMap_congr fun c _ => Lexeme.encode_regexChar c, inner]
    rfl
  rw [stored]
  refine .one (by decide) ?_
  rw [List.cons_append, List.append_assoc, List.singleton_append]
  have found : ∀ bytes, Lexeme.recognize (byte 'r') (byte '"' :: bytes) =
      Lexeme.quotation .regex 1 bytes := fun _ => rfl
  have kept : decide (TokenKind.regex = .regex) = true := rfl
  rw [found, Lexeme.quotation, kept, Lexeme.quoted_rawEscape raw]
  simp only [Utf8.decodeLossy_encode, List.length_cons, List.length_append, List.length_nil]
  rw [Nat.add_comm]

/-- An integer in range is read from its digits, and from behind three dashes if it is negative. -/
theorem reads_integer {value : Int} (low : leastInteger ≤ value) (high : value ≤ greatestInteger)
    {rest : Bytes} (apart : Apart rest) :
    ∃ text, Reads (Utf8.encode (Layout.integerText value) ++ rest) [(.number value, text)] rest := by
  -- A negative number is written as dashes and the digits of its magnitude.
  obtain ⟨negative, magnitude, written, same⟩ : ∃ (negative : Bool) (magnitude : Nat),
      Layout.integerText value = (if negative then "---" else "") ++
        String.ofList (Nat.toDigits 10 magnitude) ∧
      (if negative then -magnitude else magnitude : Int) = value := by
    unfold Layout.integerText
    cases value with
    | ofNat magnitude => exact ⟨false, magnitude, rfl, rfl⟩
    | negSucc magnitude => exact ⟨true, magnitude + 1, if_pos (Int.negSucc_lt_zero _), rfl⟩
  -- The magnitude's digits are bytes that give it back,
  obtain ⟨digits, stored, length, all, sum⟩ :=
    Lexeme.bytes_of_digits (areDigits_toDigits magnitude)
  have some : digits ≠ [] := by
    rintro rfl
    exact Nat.toDigits_ne_nil (List.length_eq_zero_iff.mp length.symm)
  rw [Nat.ofDigitChars_ten_toDigits] at sum
  -- and the number is read as far as they go.
  obtain ⟨first, body, shape, start, dashes, count, found⟩ :=
    Lexeme.recognize_number negative some all
  obtain ⟨text, number⟩ := Lexeme.number_integer negative dashes all apart
    (by rw [sum]; exact same) low high
  refine ⟨text, ?_⟩
  rw [written, Utf8.encode_append, stored, shape]
  refine .one start ?_
  rw [found, number, count]

/-- A finite number is read from its digits, and from behind three dashes if it is negative. -/
theorem reads_decimal {value : Binary64} (number : value.isNaN = false)
    (finite : value.isInfinite = false) {rest : Bytes} (apart : Apart rest) :
    ∃ text, Reads (Utf8.encode (Layout.decimalText value) ++ rest) [(.decimal value, text)]
      rest := by
  -- A number that is neither infinite nor none is finite.
  have bounded : value.IsFinite := by
    have above := of_decide_eq_false number
    have other := of_decide_eq_false finite
    exact Nat.lt_of_le_of_ne (Nat.not_lt.mp above) other
  obtain ⟨whole, places, written, areDigits, some, some', same⟩ := Layout.decimalText_spec bounded
  obtain ⟨front, stored, length, _, _⟩ := Lexeme.bytes_of_digits
    (fun c member => areDigits c (List.mem_append_left _ member) : AreDigits whole)
  obtain ⟨back, stored', length', _, _⟩ := Lexeme.bytes_of_digits
    (fun c member => areDigits c (List.mem_append_right _ member) : AreDigits places)
  obtain ⟨digits, both, _, all, sum⟩ := Lexeme.bytes_of_digits areDigits
  rw [String.ofList_append, Utf8.encode_append, stored, stored'] at both
  subst both
  -- There is a digit on either side of the point.
  have filled : front ≠ [] := by
    rintro rfl
    exact some (List.length_eq_zero_iff.mp length.symm)
  have filled' : back ≠ [] := by
    rintro rfl
    exact some' (List.length_eq_zero_iff.mp length'.symm)
  obtain ⟨first, body, shape, start, dashes, count, found⟩ :=
    Lexeme.recognize_number value.isNegative filled
      fun b member => all b (List.mem_append_left _ member)
  obtain ⟨text, read⟩ := Lexeme.number_fraction value.isNegative dashes all filled' apart.stops
    (by rw [sum, length']; exact same) finite
  -- The point is one more byte between the digits.
  have bytes : Utf8.encode (Layout.decimalText value) = first :: (body ++ byte '.' :: back) := by
    have point : String.ofList (whole ++ '.' :: places) =
        String.ofList whole ++ ("." ++ String.ofList places) := by
      refine String.toList_inj.mp ?_
      simp
    rw [written, point, Utf8.encode_append, Utf8.encode_append, Utf8.encode_append, stored, stored',
      ← List.append_assoc, shape]
    rfl
  refine ⟨text, ?_⟩
  rw [bytes]
  refine .one start ?_
  rw [List.append_assoc, found, List.cons_append, read]
  congr 1
  have positive := List.length_pos_iff.mpr filled
  simp only [List.length_append, List.length_cons]
  omega

/-- A truth value is read from parentheses. -/
theorem reads_boolean (value : Bool) (rest : Bytes) :
    ∃ text, Reads (Utf8.encode (Layout.valueText (.boolean value)) ++ rest)
      [(.boolean value, text)] rest := by
  have found : ∀ bytes, Lexeme.recognize (byte '(') bytes = Lexeme.parenthesis bytes :=
    fun _ => rfl
  -- The word ends at the closing parenthesis, whatever follows.
  have word : ∀ {bytes : Bytes}, (∀ b ∈ bytes, (b ≠ byte ')' && !isBlank b) = true) →
      (bytes ++ byte ')' :: rest).takeWhile (fun b => b ≠ byte ')' && !isBlank b) = bytes :=
    fun all => takeWhile_append_stop all (by simp)
  cases value with
  -- Both words are read in the same way.
  | true =>
    have read : Utf8.decodeLossy [byte 't', byte 'r', byte 'u', byte 'e'] = "true" :=
      Utf8.decodeLossy_encode "true"
    -- The word is taken up to the parenthesis.
    have taken := @word [byte 't', byte 'r', byte 'u', byte 'e'] (List.all_eq_true.mp rfl)
    refine ⟨"true", @Reads.one (byte '(')
      [byte 't', byte 'r', byte 'u', byte 'e', byte ')'] rest _ _ (by decide) ?_⟩
    rw [found, Lexeme.parenthesis]
    simp only [List.cons_append, List.nil_append] at taken ⊢
    simp only [taken, read]
    rfl
  | false =>
    have read : Utf8.decodeLossy [byte 'f', byte 'a', byte 'l', byte 's', byte 'e'] = "false" :=
      Utf8.decodeLossy_encode "false"
    have taken := @word [byte 'f', byte 'a', byte 'l', byte 's', byte 'e'] (List.all_eq_true.mp rfl)
    refine ⟨"false", @Reads.one (byte '(')
      [byte 'f', byte 'a', byte 'l', byte 's', byte 'e', byte ')'] rest _ _ (by decide) ?_⟩
    rw [found, Lexeme.parenthesis]
    simp only [List.cons_append, List.nil_append] at taken ⊢
    simp only [taken, read]
    rfl

/-- A piece of code is read from between its marks. -/
theorem reads_snippet {code : String} (fits : Lexeme.IsCode (Utf8.encode code)) (rest : Bytes) :
    Reads (Utf8.encode (Layout.valueText (.snippet code)) ++ rest) [(.snippet, code)] rest := by
  -- The marks are two plus signs and a bracket, and the same at the end.
  have stored : Utf8.encode (Layout.valueText (.snippet code)) =
      byte '+' :: (byte '+' :: byte '\x7b' :: (Utf8.encode code ++ Lexeme.closing)) := by
    rw [Layout.valueText, Utf8.encode_append, Utf8.encode_append]
    rfl
  rw [stored]
  refine .one (by decide) ?_
  rw [List.cons_append, List.cons_append, List.append_assoc]
  have found : ∀ bytes, Lexeme.recognize (byte '+') bytes = Lexeme.plus bytes := fun _ => rfl
  rw [found, Lexeme.plus, if_pos (by rfl)]
  simp only [List.drop_succ_cons, List.drop_zero, fits rest, List.take_left,
    Utf8.decodeLossy_encode]
  simp [Lexeme.closing]

end ArgSchema
