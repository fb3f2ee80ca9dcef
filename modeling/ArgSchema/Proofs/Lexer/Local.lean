import ArgSchema.Proofs.Lexer.Literals
import ArgSchema.Proofs.Lexer.Snippets

/-! Locality: a token is recognized from its own bytes, whatever parted bytes follow them. -/

namespace ArgSchema

/-- Bytes that part the token in front of them from the next: none, or a blank or a slash first. -/
def Parted (rest : Bytes) : Prop := ∀ b ∈ rest.head?, isBlank b = true ∨ b = byte '/'

/-- Parted bytes leave names and numbers in front of them alone. -/
theorem Parted.apart {rest : Bytes} (parted : Parted rest) : Apart rest := by
  cases rest with
  | nil => exact apart_nil
  | cons b rest =>
    -- Blanks and slashes are no bytes of names, no quotes and no dots.
    have first := parted b rfl
    simp only [isBlank, Bool.or_eq_true, decide_eq_true_eq] at first
    rcases first with (((rfl | rfl) | rfl) | rfl) | rfl <;>
      exact apart_cons (by decide) (by decide) (by decide) rest

/-- Parted bytes start with a byte below 128. -/
theorem Parted.small {rest : Bytes} (parted : Parted rest) : ∀ b ∈ rest.head?, b < 0x80 := by
  -- A blank is ASCII.
  intro b member
  have first := parted b member
  simp only [isBlank, Bool.or_eq_true, decide_eq_true_eq] at first
  rcases first with (((rfl | rfl) | rfl) | rfl) | rfl <;> decide

/-- Bytes that do not end with a line end. -/
def Solid (bytes : Bytes) : Prop := bytes.getLast? ≠ some (byte '\n')

/-- What ends with solid bytes is solid, and so is what ends in front of nothing. -/
theorem Solid.append {front back : Bytes} (first : Solid front) (second : Solid back) :
    Solid (front ++ back) := by
  -- The last byte is that of the back, or of the front if the back is empty.
  unfold Solid at *
  rw [List.getLast?_append]
  cases last : back.getLast? with
  | none => simpa using first
  | some b => simpa [last] using second

/-- Bytes none of which is a line end are solid. -/
theorem solid_of_forall {bytes : Bytes} (all : ∀ b ∈ bytes, b ≠ byte '\n') : Solid bytes :=
  fun last => all _ (List.mem_of_getLast? last) rfl

/-- Bytes of names are solid. -/
theorem solid_takeWhile {P : UInt8 → Bool} (line : P (byte '\n') = false) (bytes : Bytes) :
    Solid (bytes.takeWhile P) := by
  -- Every byte that was taken passes the test, which a line end does not.
  refine solid_of_forall fun b member => ?_
  rintro rfl
  have fits : P (byte '\n') = true := List.all_eq_true.mp List.all_takeWhile _ member
  rw [line] at fits
  cases fits

namespace Lexeme

/-- If bytes are read as a token, then they start with the token's own bytes, and it is the same with
parted bytes behind these; `before` counts the token's bytes in front of the ones that are read. -/
def Local (before : Nat) (read : Bytes → Lexeme) (rest : Bytes) : Prop :=
  ∀ kind text warning?, (read rest).content = .token kind text warning? →
    ∃ body after, rest = body ++ after ∧ (read rest).length = before + body.length ∧ Solid body ∧
      ∀ other, Parted other → read (body ++ other) = read rest

namespace Local

variable {before : Nat} {read inner : Bytes → Lexeme} {rest back : Bytes}

/-- What is not read as a token has nothing to show. -/
theorem of_not_token
    (other : ∀ kind text warning?, (read rest).content ≠ .token kind text warning?) :
    Local before read rest :=
  fun kind text warning? found => absurd found (other kind text warning?)

/-- A token that takes certain bytes whatever follows them is read from these. -/
theorem of_closed (front : Bytes) (same : ∀ other, read (front ++ other) = read (front ++ back))
    (length : (read (front ++ back)).length = before + front.length) (solid : Solid front) :
    Local before read (front ++ back) :=
  fun _ _ _ _ => ⟨front, back, rfl, length, solid, fun other _ => same other⟩

/-- What reads on behind some bytes is local if reading on is; only the next byte may be looked at. -/
theorem behind (front : Bytes) (local' : Local (before + front.length) inner back) (solid : Solid front)
    (same : ∀ next : Bytes, next.head? = back.head? ∨ Parted next →
      read (front ++ next) = inner next) : Local before read (front ++ back) := by
  intro kind text warning? found
  rw [same back (.inl rfl)] at found ⊢
  obtain ⟨body, after, rfl, length, tail, kept⟩ := local' kind text warning? found
  refine ⟨front ++ body, after, (List.append_assoc ..).symm, ?_, solid.append tail, ?_⟩
  · rw [length, List.length_append]
    omega
  · intro other parted
    -- The byte behind the front is the same, unless the token has no more bytes.
    have head : (body ++ other).head? = (body ++ after).head? ∨ Parted (body ++ other) := by
      cases body with
      | nil => exact .inr parted
      | cons b more => exact .inl rfl
    rw [List.append_assoc, same _ head, kept other parted]

end Local

/-- Bytes that were taken are taken again if what follows them does not fit. -/
theorem takeWhile_again {P : UInt8 → Bool} {bytes other : Bytes}
    (stop : ∀ b ∈ other.head?, P b = false) :
    (bytes.takeWhile P ++ other).takeWhile P = bytes.takeWhile P :=
  takeWhile_append_stop (fun b member => List.all_eq_true.mp List.all_takeWhile b member) stop

/-- Bytes that were taken start with the byte that fits. -/
theorem head?_taken {P Q : UInt8 → Bool} (fits : ∀ {b}, P b = true → Q b = true) {bytes : Bytes}
    (start : bytes.head?.any P = true) (other : Bytes) :
    (bytes.takeWhile Q ++ other).head? = bytes.head? := by
  -- The first byte fits, so it is among those that were taken.
  cases bytes with
  | nil => cases start
  | cons b rest =>
    have first : P b = true := start
    rw [List.takeWhile_cons_of_pos (fits first)]
    rfl

/-- What is read with a byte is read behind it. -/
theorem Local.uncons {read : Bytes → Lexeme} {b : UInt8} {rest : Bytes}
    (local' : Local 0 read (b :: rest)) : Local 1 (fun next => read (b :: next)) rest := by
  intro kind text warning? found
  obtain ⟨body, after, same, length, solid, kept⟩ := local' kind text warning? found
  cases body with
  | nil =>
    -- A token has at least one byte.
    simp only [Lexeme.length, List.length_nil] at length
    omega
  | cons first body =>
    obtain ⟨rfl, rfl⟩ := List.cons.inj same
    refine ⟨body, after, rfl, by rw [length, List.length_cons]; omega, ?_, kept⟩
    intro last
    refine solid ?_
    cases body with
    | nil => cases last
    | cons c more => rwa [List.getLast?_cons_cons]

/-- The bytes behind a name decide whether it is part of a reference. -/
theorem local_named (category : Category) (text : String) (tail : Nat) (rest : Bytes) :
    Local (tail + 1) (named category text tail) rest := by
  have alone : ∀ {rest}, named category text tail rest = plain (nameKind category) text tail →
      Local (tail + 1) (named category text tail) rest := by
    intro rest same kind text warning? found
    -- A name alone takes no more bytes.
    refine ⟨[], rest, rfl, by rw [same]; rfl, by simp [Solid], fun other parted => ?_⟩
    rw [List.nil_append, named_apart parted.apart, same]
  -- With one more byte, the name goes on behind a dot that no second dot follows.
  have equation : ∀ dot after, named category text tail (dot :: after) =
      if dot = byte '.' ∧ after.head? ≠ some (byte '.') then
        if after.head?.any isNameStart then
          plain (.reference category (Utf8.decodeLossy (after.takeWhile isNameByte))) text
            (tail + 1 + (after.takeWhile isNameByte).length)
        else malformedWord .missingProperty (tail + 1) after
      else plain (nameKind category) text tail := fun _ _ => rfl
  cases rest with
  | nil => exact alone rfl
  | cons dot after =>
    by_cases joined : dot = byte '.' ∧ after.head? ≠ some (byte '.')
    · by_cases start : after.head?.any isNameStart = true
      · -- A reference takes the dot and the property behind it.
        intro kind text' warning? found
        refine ⟨dot :: after.takeWhile isNameByte, after.dropWhile isNameByte, ?_, ?_, ?_, ?_⟩
        · rw [List.cons_append, List.takeWhile_append_dropWhile]
        · rw [equation, if_pos joined, if_pos start, List.length_cons]
          simp only [Lexeme.length, plain]
          omega
        · have solid : Solid [dot] := by
            rw [joined.1]
            exact (by decide : [byte '.'].getLast? ≠ some (byte '\n'))
          exact solid.append (solid_takeWhile (by decide) after)
        · intro other parted
          have head := head?_taken isNameByte_of_isNameStart start other
          have taken := @takeWhile_again isNameByte after other fun b member =>
            (parted.apart.stops b member).1
          rw [List.cons_append, equation, equation, head, taken, if_pos joined, if_pos joined,
            if_pos start, if_pos start]
      -- A dot without a name behind it is malformed, and no token.
      · refine .of_not_token ?_
        rw [equation, if_pos joined, if_neg start]
        rintro _ _ _ ⟨⟩
    · exact alone (by rw [equation, if_neg joined])

/-- Bytes start with some that fit, behind which one that does not fit follows. -/
theorem exists_taken (P : UInt8 → Bool) (bytes : Bytes) :
    ∃ front back, bytes = front ++ back ∧ (∀ b ∈ front, P b = true) ∧
      ∀ b ∈ back.head?, P b = false := by
  -- The prefix is taken as long as the test holds, so it fails at the byte behind.
  refine ⟨bytes.takeWhile P, bytes.dropWhile P, List.takeWhile_append_dropWhile.symm,
    fun b member => List.all_eq_true.mp List.all_takeWhile b member, fun b member => ?_⟩
  have stop := List.head?_dropWhile_not P bytes
  rw [Option.mem_def.mp member] at stop
  exact stop

/-- Bytes of names are solid. -/
theorem solid_of_name {name : Bytes} (all : ∀ b ∈ name, isNameByte b = true) : Solid name := by
  -- A line end is no byte of a name.
  refine solid_of_forall fun b member => ?_
  rintro rfl
  exact absurd (all _ member) (by decide)

/-- Nothing but a digit that stands first is a digit that stands first. -/
theorem head_of_digits {front : Bytes} (some : front ≠ []) (all : ∀ b ∈ front, isDigit b = true)
    (rest : Bytes) : (front ++ rest).head?.any isDigit = true := by
  obtain ⟨digit, more, rfl⟩ := List.exists_cons_of_ne_nil some
  exact all digit (by simp)

/-- A digit that stands first is one of the digits that were taken. -/
theorem digits_ne_nil {front back : Bytes} (stop : ∀ b ∈ back.head?, isDigit b = false)
    (start : (front ++ back).head?.any isDigit = true) : front ≠ [] := by
  -- Without digits in front, what stands behind would start with one.
  rintro rfl
  cases back with
  | nil => cases start
  | cons b rest =>
    have digit : isDigit b = true := start
    rw [stop b rfl] at digit
    cases digit

/-- A number goes as far as its digits, and over a dot only if a digit follows it. -/
theorem local_number (negative : Bool) (before : Nat) (otherwise : Bytes → Lexeme) {bytes : Bytes}
    (start : bytes.head?.any isDigit = true) :
    Local before (fun bytes => if bytes.head?.any isDigit then number negative before bytes
      else otherwise bytes) bytes := by
  -- Whatever parted bytes follow, a digit is none of them, so the digits end where they do.
  have parted : ∀ {other}, Parted other → ∀ b ∈ other.head?, isDigit b = false := fun parted =>
    not_digit_of_stops parted.apart.stops
  obtain ⟨whole, back, rfl, digits, stop⟩ := exists_taken isDigit bytes
  have some := digits_ne_nil stop start
  have name : ∀ {list : Bytes}, (∀ b ∈ list, isDigit b = true) → Solid list := fun all =>
    solid_of_name fun b member => isNameByte_of_isDigit (all b member)
  have begins := head_of_digits some digits
  have size := List.length_pos_iff.mpr some
  by_cases joined : ∃ after, back = byte '.' :: after ∧ after.head?.any isDigit = true
  · obtain ⟨after, rfl, digit⟩ := joined
    obtain ⟨places, rest, rfl, digits', stop'⟩ := exists_taken isDigit after
    have some' := digits_ne_nil stop' digit
    have all : ∀ b ∈ whole ++ places, isDigit b = true := fun b member =>
      (List.mem_append.mp member).elim (digits b) (digits' b)
    intro kind text warning? _
    -- The token takes the digits, the dot and the digits behind it.
    refine ⟨whole ++ byte '.' :: places, rest, by simp, ?_, ?_, fun other apart => ?_⟩
    · simp only [begins, if_true]
      rw [number_places negative before all some' stop', List.length_append, List.length_cons]
      simp only [Lexeme.length, literal]
      omega
    · have dot : Solid [byte '.'] := by unfold Solid; decide
      exact (name digits).append (dot.append (name digits'))
    · rw [List.append_assoc, List.cons_append]
      simp only [begins, if_true]
      rw [number_places negative before all some' stop',
        number_places negative before all some' (parted apart)]
  · have dot : ∀ after, back = byte '.' :: after → after.head?.any isDigit = false :=
      fun after same => Bool.eq_false_iff.mpr fun digit => joined ⟨after, same, digit⟩
    intro kind text warning? _
    -- The token takes the digits, and what stands behind them makes no difference.
    refine ⟨whole, back, rfl, ?_, name digits, fun other apart => ?_⟩
    · simp only [begins, if_true]
      rw [number_whole negative before digits stop dot]
      simp only [Lexeme.length, literal]
      omega
    · simp only [begins, if_true]
      rw [number_whole negative before digits stop dot,
        number_whole negative before digits (parted apart) fun _ => not_digit_of_dots apart.apart]

/-- Neither the byte that stood behind a name nor parted bytes go on with it. -/
theorem stops_of_next {back next : Bytes} (stop : ∀ b ∈ back.head?, isNameByte b = false)
    (same : next.head? = back.head? ∨ Parted next) : ∀ b ∈ next.head?, isNameByte b = false := by
  -- What follows is as it was, or it parts.
  rcases same with same | parted
  · rwa [same]
  · exact fun b member => (parted.apart.stops b member).1

/-- A name behind two dashes, or a negative number behind three. -/
theorem local_doubleDash (rest : Bytes) : Local 2 doubleDash rest := by
  -- Behind the dashes there is a third one, a long label or nothing that fits.
  cases rest with
  | nil => exact .of_not_token (by rintro _ _ _ ⟨⟩)
  | cons b after =>
    by_cases dashed : b = byte '-'
    · -- Three dashes stand in front of a negative number.
      have third : ∀ next, doubleDash (b :: next) = if next.head?.any isDigit then
          number true 3 next else malformedWord .invalidNumber 2 next := fun next => if_pos dashed
      by_cases digit : after.head?.any isDigit = true
      · exact .behind [b] (local_number true 3 (malformedWord .invalidNumber 2) digit)
          (solid_of_name (by simp [dashed]; decide)) fun next _ => third next
      · refine .of_not_token ?_
        rw [third, if_neg digit]
        rintro _ _ _ ⟨⟩
    -- A long label goes as far as its name bytes, and may become a reference.
    · by_cases start : isLonglabelStart b = true
      · obtain ⟨more, back, rfl, all, stop⟩ := exists_taken isNameByte after
        have name : ∀ c ∈ b :: more, isNameByte c = true := by
          simpa using ⟨isNameByte_of_isLonglabelStart start, all⟩
        have fits : isLetter b || isDigit b || decide (b = byte '_') := start
        have given := local_named .longlabel (Utf8.decodeLossy (b :: more))
          (1 + (b :: more).length) back
        -- Both dashes and the name's bytes are in front of what a reference takes.
        rw [show 1 + (b :: more).length + 1 = 2 + (b :: more).length by omega] at given
        refine .behind (b :: more) given (solid_of_name name) fun next same => ?_
        have taken := takeWhile_append_stop name (stops_of_next stop same)
        rw [List.cons_append, doubleDash, if_neg dashed, if_pos fits, ← List.cons_append]
        simp only [taken, List.drop_left]
      -- What starts no label leaves it empty, or is a wrong byte.
      · refine .of_not_token ?_
        have fits : ¬(isLetter b || isDigit b || decide (b = byte '_')) = true := start
        rw [doubleDash, if_neg dashed, if_neg fits]
        split <;> rintro _ _ _ ⟨⟩

/-- A character behind one dash, or what starts with more dashes. -/
theorem local_dash (rest : Bytes) : Local 1 dash rest := by
  cases rest with
  | nil => exact .of_not_token (by rintro _ _ _ ⟨⟩)
  | cons b after =>
    -- A dash is followed by a blank, by another dash, by a short label, or by none of these.
    by_cases blank : isBlank b = true
    · refine .of_not_token ?_
      rw [dash, if_pos blank]
      rintro _ _ _ ⟨⟩
    -- The second dash is taken, and what is behind it is that of a double one.
    · by_cases dashed : b = byte '-'
      · exact .behind [b] (local_doubleDash after)
          (solid_of_name (by simp [dashed]; decide)) fun next _ => by
            rw [List.singleton_append, dash, if_neg blank, if_pos dashed]
      · by_cases start : isShortlabel b = true
        -- The label is its one byte and the name bytes behind it.
        · have fits : isLetter b || isDigit b || decide (b = byte '?') := start
          have shape : ∀ next, dash (b :: next) = if (next.takeWhile isNameByte).isEmpty then
              named .shortlabel (Utf8.decodeLossy [b]) 1 next
            else malformed (.shortlabelTooLong (Utf8.decodeLossy (b :: next.takeWhile isNameByte)))
              (1 + (next.takeWhile isNameByte).length) := by
            intro next
            rw [dash, if_neg blank, if_neg dashed, if_pos fits]
          -- A short label is one byte: if more bytes of a name follow, it is none.
          by_cases single : (after.takeWhile isNameByte).isEmpty = true
          · have stop : ∀ c ∈ after.head?, isNameByte c = false := by
              intro c member
              cases after with
              | nil => cases member
              | cons d more =>
                obtain rfl := Option.some.inj member
                cases name : isNameByte d with
                | false => rfl
                | true => simp [List.takeWhile_cons_of_pos name] at single
            -- The label is no line end, so the slice can be cut off behind it.
            have solid : Solid [b] := by
              refine solid_of_forall fun c member line => ?_
              rw [List.mem_singleton.mp member] at line
              subst line
              cases start
            refine .behind [b] (local_named .shortlabel (Utf8.decodeLossy [b]) 1 after) solid
              fun next same => ?_
            -- With the same byte or a parted one behind it, no name goes on.
            have taken : next.takeWhile isNameByte = [] :=
              @takeWhile_append_stop isNameByte [] next (by simp) (stops_of_next stop same)
            rw [List.singleton_append, shape, taken]
            rfl
          · refine .of_not_token ?_
            rw [shape, if_neg single]
            rintro _ _ _ ⟨⟩
        · refine .of_not_token ?_
          have fits : ¬(isLetter b || isDigit b || decide (b = byte '?')) = true := start
          rw [dash, if_neg blank, if_neg dashed, if_neg fits]
          rintro _ _ _ ⟨⟩

end Lexeme

end ArgSchema
