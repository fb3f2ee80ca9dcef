import ArgSchema.Proofs.Lexer.Lines

/-! Contained lexemes: what is recognized in front of a line end does not depend on what follows it. -/

namespace ArgSchema

namespace Lexeme

/-- Whether the end of a lexeme was found. -/
def IsClosed (lexeme : Lexeme) : Prop :=
  match lexeme.content with
  | .unclosed _ | .unclosedComment _ => False
  | _ => True

/-- What is read from some bytes is read whatever follows them, takes no more than these bytes, and
is not reported up to the last of them; `before` counts the bytes in front of the ones that are read. -/
structure Contained (before : Nat) (read : Bytes → Lexeme) (rest : Bytes) : Prop where
  /-- What follows makes no difference. -/
  same : ∀ more, read (rest ++ more) = read rest
  /-- The lexeme ends with the bytes at the latest. -/
  inside : (read rest).length ≤ before + rest.length
  /-- A report ends in front of the last byte. -/
  short : ∀ problem marked, (read rest).content = .malformed problem marked →
    marked < before + rest.length

namespace Contained

variable {before : Nat} {read inner : Bytes → Lexeme} {rest : Bytes}

/-- What reads like something contained is contained. -/
theorem of_agree (contained : Contained before inner rest)
    (agree : ∀ more, read (rest ++ more) = inner (rest ++ more)) : Contained before read rest := by
  -- Both readers give the same on this rest, with anything behind it.
  have here := agree []
  rw [List.append_nil] at here
  refine ⟨fun more => by rw [agree, here, contained.same], ?_, fun problem marked content => ?_⟩
  · rw [here]
    exact contained.inside
  · rw [here] at content
    exact contained.short problem marked content

/-- What reads on behind some bytes is contained if reading on is; only the next byte may be looked at. -/
theorem behind (front : Bytes) (inner : Bytes → Lexeme)
    (contained : Contained (before + front.length) inner rest)
    (ends : EndsLine rest) (same : ∀ next : Bytes, next.head? = rest.head? →
      read (front ++ next) = inner next) : Contained before read (front ++ rest) := by
  -- All there is to look at is the same with more bytes behind.
  have here := same rest rfl
  refine ⟨fun more => ?_, ?_, fun problem marked content => ?_⟩
  · rw [List.append_assoc, same _ (ends.head?_append more), contained.same, here]
  · rw [here, List.length_append, ← Nat.add_assoc]
    exact contained.inside
  · rw [here] at content
    rw [List.length_append, ← Nat.add_assoc]
    exact contained.short problem marked content

/-- Of two ways to read one is chosen by bytes in front of the line end. -/
theorem ite {test : Bytes → Prop} [DecidablePred test] (steady : ∀ more, test (rest ++ more) ↔ test rest)
    (first : test rest → Contained before read rest)
    (second : ¬test rest → Contained before inner rest) :
    Contained before (fun next => if test next then read next else inner next) rest := by
  -- The test does not look behind the line end, so the same way is chosen whatever follows.
  by_cases given : test rest
  · exact (first given).of_agree fun more => if_pos ((steady more).mpr given)
  · exact (second given).of_agree fun more => if_neg (mt (steady more).mp given)

/-- Of two ways to read one is chosen by what stands in front. -/
theorem choose {test : Prop} [Decidable test] (first : test → Contained before read rest)
    (second : ¬test → Contained before inner rest) :
    Contained before (fun next => if test then read next else inner next) rest :=
  @ite _ _ _ _ (fun _ => test) _ (fun _ => Iff.rfl) first second

/-- What is read with a byte in front is read behind it. -/
theorem uncons {b : UInt8} (contained : Contained before read (b :: rest)) :
    Contained (before + 1) (fun next => read (b :: next)) rest := by
  -- The bytes in front count one more, and those behind one fewer.
  have total : before + 1 + rest.length = before + (b :: rest).length := by
    rw [List.length_cons]
    omega
  refine ⟨contained.same, ?_, fun problem marked content => ?_⟩
  · rw [total]
    exact contained.inside
  · rw [total]
    exact contained.short problem marked content

/-- A token that does not depend on what follows is contained. -/
theorem of_plain {kind : TokenKind} {text : String} {tail : Nat} (found : read rest = plain kind text tail)
    (same : ∀ more, read (rest ++ more) = read rest) (inside : tail < before + rest.length) :
    Contained before read rest := by
  -- A token is no malformed text, so no report has to end early.
  refine ⟨same, by rw [found]; exact inside, fun _ _ content => ?_⟩
  rw [found] at content
  cases content

/-- What is reported whole is contained if it ends in front of the last byte. -/
theorem of_malformed {problem : LexicalProblem} {tail : Nat}
    (found : read rest = malformed problem tail) (same : ∀ more, read (rest ++ more) = read rest)
    (inside : tail + 1 < before + rest.length) : Contained before read rest := by
  -- The reader's answer is given, so there is nothing to look up in it but its length.
  refine ⟨same, by rw [found]; exact Nat.le_of_lt inside, fun _ _ content => ?_⟩
  rw [found] at content
  cases content
  exact inside

end Contained

section Readers

variable {rest : Bytes} (ends : EndsLine rest)

include ends

/-- What is skipped up to a blank is skipped up to the line end at the latest. -/
theorem contained_malformedWord (problem : LexicalProblem) (tail : Nat) :
    Contained (tail + 1) (malformedWord problem tail) rest := by
  -- The line end is a blank, so the word ends in front of it.
  have less := ends.length_takeWhile_lt (P := (!isBlank ·)) (by decide)
  refine ⟨fun more => ?_, ?_, ?_⟩
  · simp only [malformedWord, ends.takeWhile_append (P := (!isBlank ·)) (by decide)]
  · simp only [malformedWord, Lexeme.length]
    omega
  · rintro _ _ ⟨⟩
    have some := ends.length_pos
    omega

/-- A name alone or in a reference. -/
theorem contained_named (category : Category) (text : String) (tail : Nat) :
    Contained (tail + 1) (named category text tail) rest := by
  -- The rest has a byte, and only a dot lets the name go on.
  obtain ⟨dot, after, rfl⟩ := List.exists_cons_of_ne_nil ends.ne_nil
  have shape : ∀ after, named category text tail (dot :: after) =
      if dot = byte '.' ∧ after.head? ≠ some (byte '.') then
        if after.head?.any isNameStart then
          plain (.reference category (Utf8.decodeLossy (after.takeWhile isNameByte))) text
            (tail + 1 + (after.takeWhile isNameByte).length)
        else malformedWord .missingProperty (tail + 1) after
      else plain (nameKind category) text tail := fun _ => rfl
  by_cases dotted : dot = byte '.'
  · have lasts : EndsLine after := ends.tail (by rw [dotted]; decide)
    -- The bytes of a property end before the line does.
    have taken := lasts.takeWhile_append (P := isNameByte) (by decide)
    have less := lasts.length_takeWhile_lt (P := isNameByte) (by decide)
    refine .behind [dot] _ ?_ lasts fun next _ => shape next
    rw [List.length_singleton]
    refine .ite (fun more => by rw [lasts.head?_append]) (fun _ => ?_) fun _ => ?_
    · refine .ite (fun more => by rw [lasts.head?_append]) (fun _ => ?_) fun _ => ?_
      · -- A reference takes the property behind the dot.
        exact .of_plain rfl (fun more => by simp only [taken]) (by omega)
      · exact contained_malformedWord lasts .missingProperty (tail + 1)
    · exact .of_plain rfl (fun _ => rfl) (by omega)
  -- Without a dot the name is taken as it is, whatever follows.
  · have alone : ∀ after, named category text tail (dot :: after) = plain (nameKind category) text tail :=
      fun after => by rw [shape, if_neg fun joined => dotted joined.1]
    exact .of_plain (alone after) (fun more => (alone _).trans (alone after).symm) (by omega)

/-- A byte that cannot stand where it does. -/
theorem contained_unexpected (tail : Nat) (found : UInt8) :
    Contained (tail + 1) (unexpected tail found) rest := by
  refine (contained_malformedWord ends (.unexpectedCharacter
    ((Utf8.readChar found (rest.take 3)).1.getD '\uFFFD')) tail).of_agree fun more => ?_
  -- Only the character that starts with the byte is looked at.
  rw [unexpected, List.take_succ_cons, Utf8.decodeParts, ← ends.readChar_take found 3 more]
  rfl

/-- A number that starts with a digit. -/
theorem contained_number (negative : Bool) (before : Nat) (start : rest.head?.any isDigit = true) :
    Contained before (number negative before) rest := by
  obtain ⟨whole, back, rfl, digits, lasts, stop⟩ := ends.exists_taken (P := isDigit) (by decide)
  have size := List.length_pos_iff.mpr (digits_ne_nil stop start)
  -- A number is a token of as many bytes as are taken.
  have token : ∀ {rest : Bytes} (value length),
      (∀ more, number negative before (rest ++ more) = literal value before length) →
      0 < length → length ≤ rest.length → Contained before (number negative before) rest := by
    intro rest value length same some fits
    refine Contained.of_agree (?_ : Contained before (fun _ => literal value before length) rest) same
    refine ⟨fun _ => rfl, ?_, ?_⟩
    · simp only [Lexeme.length, literal]
      omega
    · rintro _ _ ⟨⟩
  -- The byte behind a dot decides whether the dot belongs to the number.
  by_cases joined : ∃ after, back = byte '.' :: after ∧ after.head?.any isDigit = true
  · obtain ⟨after, rfl, digit⟩ := joined
    obtain ⟨places, rest, rfl, digits', last, stop'⟩ :=
      (lasts.tail (by decide)).exists_taken (P := isDigit) (by decide)
    have all : ∀ b ∈ whole ++ places, isDigit b = true := fun b member =>
      (List.mem_append.mp member).elim (digits b) (digits' b)
    refine token (fraction negative whole places)
      (whole.length + 1 + places.length) (fun more => ?_) (by omega) ?_
    · rw [List.append_assoc, List.cons_append, List.append_assoc]
      exact number_places negative before all (digits_ne_nil stop' digit)
        (by rwa [last.head?_append])
    · simp only [List.length_append, List.length_cons]
      omega
  -- With no digit behind it the dot is left, and so is the line end.
  · have dot : ∀ after, back = byte '.' :: after → after.head?.any isDigit = false :=
      fun after same => Bool.eq_false_iff.mpr fun digit => joined ⟨after, same, digit⟩
    refine token (integer negative whole) whole.length (fun more => ?_) size (by simp)
    rw [List.append_assoc]
    refine number_whole negative before digits (by rwa [lasts.head?_append]) fun after same => ?_
    obtain ⟨first, rest, rfl⟩ := List.exists_cons_of_ne_nil lasts.ne_nil
    obtain ⟨rfl, rfl⟩ := List.cons.inj same
    have head := (lasts.tail (by decide)).head?_append more
    exact (congrArg (Option.any isDigit) head).trans (dot rest rfl)

/-- What starts with two dashes. -/
theorem contained_doubleDash : Contained 2 doubleDash rest := by
  obtain ⟨b, after, rfl⟩ := List.exists_cons_of_ne_nil ends.ne_nil
  -- The next byte tells whether a number, a name or nothing was meant.
  by_cases dashed : b = byte '-'
  · have lasts : EndsLine after := ends.tail (by rw [dashed]; decide)
    refine .behind [b] (fun next => if next.head?.any isDigit then number true 3 next
      else malformedWord .invalidNumber 2 next) ?_ lasts fun next _ => if_pos dashed
    refine .ite (fun more => by rw [lasts.head?_append]) (fun start => ?_) fun _ => ?_
    · exact contained_number lasts true 3 start
    · exact contained_malformedWord lasts .invalidNumber 2
  -- Behind two dashes a name is a long label, and it ends before the line does.
  · by_cases start : isLonglabelStart b = true
    · obtain ⟨more, back, rfl, all, lasts, stop⟩ :=
        (ends.tail (by rintro rfl; cases start)).exists_taken (P := isNameByte) (by decide)
      have name : ∀ c ∈ b :: more, isNameByte c = true := by
        simpa using ⟨isNameByte_of_isLonglabelStart start, all⟩
      have fits : isLetter b || isDigit b || decide (b = byte '_') := start
      have given := contained_named lasts .longlabel (Utf8.decodeLossy (b :: more))
        (1 + (b :: more).length)
      rw [show 1 + (b :: more).length + 1 = 2 + (b :: more).length by omega] at given
      refine .behind (b :: more) _ given lasts fun next same => ?_
      have taken := takeWhile_append_stop name (by rwa [same])
      rw [List.cons_append, doubleDash, if_neg dashed, if_pos fits, ← List.cons_append]
      simp only [taken, List.drop_left]
    · have fits : ¬(isLetter b || isDigit b || decide (b = byte '_')) = true := start
      -- Otherwise the label is empty, or it starts with a wrong byte.
      by_cases blank : isBlank b = true
      · have nameless : ∀ after, doubleDash (b :: after) = malformed .emptyLonglabel 1 := fun after => by
          rw [doubleDash, if_neg dashed, if_neg fits, if_pos blank]
        refine .of_malformed (nameless after) (fun more => (nameless _).trans (nameless after).symm) ?_
        rw [List.length_cons]
        omega
      · have lasts : EndsLine after := ends.tail (by
          rintro rfl
          exact blank rfl)
        refine .behind [b] _ (contained_unexpected lasts 2 b) lasts fun next _ => ?_
        rw [List.singleton_append, doubleDash, if_neg dashed, if_neg fits, if_neg blank]

/-- What starts with a dash. -/
theorem contained_dash : Contained 1 dash rest := by
  obtain ⟨b, after, rfl⟩ := List.exists_cons_of_ne_nil ends.ne_nil
  -- A dash is followed by a blank, by another dash, by a short label, or by none of these.
  by_cases blank : isBlank b = true
  · have nameless : ∀ after, dash (b :: after) = malformed .emptyShortlabel 0 := fun after => if_pos blank
    exact .of_malformed (nameless after) (fun more => (nameless _).trans (nameless after).symm) (by simp)
  -- Any other byte stands in front of the line end, so the rest ends a line too.
  · have lasts : EndsLine after := ends.tail (by
      rintro rfl
      exact blank rfl)
    by_cases dashed : b = byte '-'
    · refine .behind [b] _ (contained_doubleDash lasts) lasts fun next _ => ?_
      rw [List.singleton_append, dash, if_neg blank, if_pos dashed]
    · by_cases start : isShortlabel b = true
      · have fits : isLetter b || isDigit b || decide (b = byte '?') := start
        -- A line ends before a name could go on, so one byte of it or more is counted alike.
        have taken := lasts.takeWhile_append (P := isNameByte) (by decide)
        have less := lasts.length_takeWhile_lt (P := isNameByte) (by decide)
        refine .behind [b] (fun next => if (next.takeWhile isNameByte).isEmpty then
            named .shortlabel (Utf8.decodeLossy [b]) 1 next
          else malformed (.shortlabelTooLong (Utf8.decodeLossy (b :: next.takeWhile isNameByte)))
            (1 + (next.takeWhile isNameByte).length)) ?_ lasts fun next _ => ?_
        · refine .ite (fun more => by rw [taken]) (fun _ => ?_) fun _ => ?_
          · exact contained_named lasts .shortlabel (Utf8.decodeLossy [b]) 1
          · refine .of_malformed rfl (fun more => by simp only [taken]) ?_
            rw [List.length_singleton]
            omega
        · rw [List.singleton_append, dash, if_neg blank, if_neg dashed, if_pos fits]
      -- The byte is reported, and it stands in front of the line end.
      · have fits : ¬(isLetter b || isDigit b || decide (b = byte '?')) = true := start
        refine .behind [b] _ (contained_unexpected lasts 1 b) lasts fun next _ => ?_
        rw [List.singleton_append, dash, if_neg blank, if_neg dashed, if_neg fits]

/-- A name in angle brackets. -/
theorem contained_angle : Contained 1 angle rest := by
  -- The name is cut off first, as its test fails at a line end.
  obtain ⟨name, back, rfl, all, lasts, stop⟩ :=
    ends.exists_taken (P := fun b => b ≠ byte '>' && !isBlank b) (by decide)
  refine .behind name (fun next => if next.head? = some (byte '>') then
      if name.isEmpty then malformed .emptyType 1
      else named .type (Utf8.decodeLossy name) (name.length + 1) (next.drop 1)
    else malformed .unterminatedType name.length) ?_ lasts fun next same => ?_
  · -- The name ends at the closing bracket, or at a blank that makes it unclosed.
    refine .ite (fun more => by rw [lasts.head?_append]) (fun closed => ?_) fun _ => ?_
    · obtain ⟨b, after, rfl⟩ := List.exists_cons_of_ne_nil lasts.ne_nil
      obtain rfl := Option.some.inj closed
      have last : EndsLine after := lasts.tail (by decide)
      have some := last.length_pos
      cases empty : name.isEmpty with
      | true => exact .of_malformed rfl (fun _ => rfl) (by rw [List.length_cons]; omega)
      | false =>
        -- Behind the bracket the name may go on as a reference.
        have given := contained_named last .type (Utf8.decodeLossy name) (name.length + 1)
        rw [show name.length + 1 + 1 = 1 + name.length + [byte '>'].length by simp; omega] at given
        exact .behind [byte '>'] _ given last fun next _ => rfl
    · have some := lasts.length_pos
      exact .of_malformed rfl (fun _ => rfl) (by omega)
  -- The name is the same with more behind it, as it ends before the line does.
  · have taken := takeWhile_append_stop all (by rwa [same])
    unfold angle
    simp only [taken, List.drop_left]

/-- Three dots, or a property behind one. -/
theorem contained_dot : Contained 1 dot rest := by
  -- The tests look at two bytes at most, and a line end is none of those they ask for.
  refine .ite (fun more => ends.take_two_append more (by decide)) (fun dots => ?_) fun _ => ?_
  · -- The dots are bytes in front of the line end.
    have two := congrArg List.length dots
    simp only [List.length_take, List.length_cons, List.length_nil] at two
    exact .of_plain rfl (fun _ => rfl) (by omega)
  · refine .ite (fun more => by rw [ends.head?_append]) (fun _ => ?_) fun _ => ?_
    · have taken := ends.takeWhile_append (P := isNameByte) (by decide)
      have less := ends.length_takeWhile_lt (P := isNameByte) (by decide)
      exact .of_plain rfl (fun more => by simp only [taken]) (by omega)
    · exact contained_unexpected ends 0 (byte '.')

/-- A truth value in parentheses. -/
theorem contained_parenthesis : Contained 1 parenthesis rest := by
  obtain ⟨word, back, rfl, all, lasts, stop⟩ :=
    ends.exists_taken (P := fun b => b ≠ byte ')' && !isBlank b) (by decide)
  have room := lasts.length_pos
  refine .behind word (fun next => if next.head? = some (byte ')') then
      if Utf8.decodeLossy word = "true" then
        plain (.boolean true) (Utf8.decodeLossy word) (word.length + 1)
      else if Utf8.decodeLossy word = "false" then
        plain (.boolean false) (Utf8.decodeLossy word) (word.length + 1)
      else malformed (.invalidBoolean (Utf8.decodeLossy word)) (word.length + 1)
    else malformed (.invalidBoolean (Utf8.decodeLossy word)) word.length) ?_ lasts fun next same => ?_
  · refine .ite (fun more => by rw [lasts.head?_append]) (fun closed => ?_) fun _ => ?_
    · obtain ⟨b, after, rfl⟩ := List.exists_cons_of_ne_nil lasts.ne_nil
      obtain rfl := Option.some.inj closed
      -- The line end is still to come behind the parenthesis.
      have last := (lasts.tail (by decide)).length_pos
      rw [List.length_cons] at room
      refine .choose (fun _ => ?_) fun _ => .choose (fun _ => ?_) fun _ => ?_
      · exact .of_plain rfl (fun _ => rfl) (by rw [List.length_cons]; omega)
      · exact .of_plain rfl (fun _ => rfl) (by rw [List.length_cons]; omega)
      · exact .of_malformed rfl (fun _ => rfl) (by rw [List.length_cons]; omega)
    · exact .of_malformed rfl (fun _ => rfl) (by omega)
  -- The word is the same with more behind it.
  · have taken := takeWhile_append_stop all (by rwa [same])
    unfold parenthesis
    simp only [taken, List.drop_left]

/-- A name behind a sigil. -/
theorem contained_sigil (kind : TokenKind) (mark : Char) : Contained 1 (sigil kind mark) rest := by
  -- The name ends in front of the line end.
  have taken := ends.takeWhile_append (P := isNameByte) (by decide)
  refine .ite (fun more => by rw [taken]) (fun _ => ?_) fun _ => ?_
  · exact contained_malformedWord ends (.missingName mark) 0
  · have less := ends.length_takeWhile_lt (P := isNameByte) (by decide)
    exact .of_plain rfl (fun more => by simp only [taken]) (by omega)

/-- A bare word. -/
theorem contained_word (first : UInt8) : Contained 1 (word first) rest := by
  -- The name ends in front of the line end, and what is read behind it decides the rest.
  obtain ⟨name, back, rfl, all, lasts, stop⟩ := ends.exists_taken (P := isNameByte) (by decide)
  have given := contained_named lasts (if Utf8.decodeLossy (first :: name) = "meta" then .metadata
    else .identifier) (Utf8.decodeLossy (first :: name)) name.length
  rw [Nat.add_comm] at given
  refine .behind name _ given lasts fun next same => ?_
  have taken := takeWhile_append_stop all (by rwa [same])
  unfold word
  simp only [taken, List.length_cons, Nat.add_sub_cancel, List.drop_left]

end Readers

/-- A comment is contained if it is the same whatever follows and ends with the bytes. -/
theorem Contained.of_comment {before : Nat} {read : Bytes → Lexeme} {rest : Bytes} {tail : Nat}
    (found : read rest = ⟨.comment, tail⟩) (same : ∀ more, read (rest ++ more) = read rest)
    (inside : tail < before + rest.length) : Contained before read rest := by
  -- A comment is no malformed text, so no report has to end early.
  refine ⟨same, by rw [found]; exact inside, fun _ _ content => ?_⟩
  rw [found] at content
  cases content

/-- Quoted text that ends. -/
theorem contained_quotation (kind : TokenKind) (tail : Nat) {rest : Bytes}
    (closed : (quotation kind tail rest).IsClosed) : Contained (tail + 1) (quotation kind tail) rest := by
  have ended : quoted (kind = .regex) rest ≠ .endless := by
    intro endless
    rw [quotation, endless] at closed
    exact closed
  -- What ends the text stands in it, so bytes behind it are not looked at.
  obtain ⟨body, last, after, rfl, ends, kept⟩ := exists_of_ended ended
  -- So quoting comes to the same whatever follows.
  have same : ∀ more, quoted (kind = .regex) (body ++ last :: after ++ more) =
      quoted (kind = .regex) (body ++ last :: after) := by
    intro more
    rw [List.append_assoc]
    exact kept _
  cases found : quoted (kind = .regex) (body ++ last :: after) with
  -- The quotes with all that is in them.
  | closed value length =>
    rw [found] at ends same
    have read : quotation kind tail (body ++ last :: after) =
        plain kind (Utf8.decodeLossy value) (tail + length) := by
      rw [quotation, found]
    refine .of_plain read (fun more => ?_) ?_
    · rw [quotation, quotation, same, found]
    · rw [ends.2, List.length_append, List.length_cons]
      omega
  | cut before =>
    -- The line end that cuts the text is not reported.
    rw [found] at ends same
    obtain rfl := ends.2
    have read : quotation kind tail (body ++ last :: after) =
        ⟨.malformed .unterminatedString (tail + 1 + body.length), tail + body.length + 1⟩ := by
      rw [quotation, found]
    refine ⟨fun more => ?_, ?_, fun _ _ content => ?_⟩
    · rw [read, quotation, same]
    · rw [read, List.length_append, List.length_cons]
      show tail + body.length + 1 + 1 ≤ _
      omega
    · rw [read] at content
      cases content
      rw [List.length_append, List.length_cons]
      omega
  | endless => exact absurd found ended

section Closed

variable {rest : Bytes} (ends : EndsLine rest)

include ends

/-- A snippet that ends, or a plus sign that starts none. -/
theorem contained_plus (closed : (plus rest).IsClosed) : Contained 1 plus rest := by
  refine .ite (fun more => ends.take_two_append more (by decide)) (fun opened => ?_) fun _ => ?_
  · rw [plus, if_pos opened] at closed
    cases found : snippetEnd .code 0 (rest.drop 2) with
    | endless =>
      rw [found] at closed
      cases closed
    | endlessComment opened =>
      rw [found] at closed
      cases closed
    | closed length =>
      -- The closing brackets stand in front of what follows, whatever that is.
      obtain ⟨code, after, split, rfl, kept⟩ := closed_of_any found
      have whole := List.take_append_drop 2 rest
      rw [opened, split] at whole
      subst whole
      have read : ∀ more, ([byte '+', byte '\x7b'] ++ (code ++ (closing ++ after)) ++ more).drop 2 =
          code ++ (closing ++ (after ++ more)) := fun more => by simp
      refine @Contained.of_plain _ _ _ .snippet (Utf8.decodeLossy code) (code.length + 5)
        (by simp only [split, kept, List.take_left]) (fun more => ?_) ?_
      · simp only [read, kept, split, List.take_left]
      · simp only [List.length_append, closing, List.length_cons, List.length_nil]
        omega
  · exact contained_unexpected ends 0 (byte '+')

/-- A comment that ends, or a slash that starts none. -/
theorem contained_slash (closed : (slash rest).IsClosed) : Contained 1 slash rest := by
  refine .ite (fun more => by rw [ends.head?_append]) (fun _ => ?_) fun other => ?_
  · -- A comment to the end of the line goes no farther than the line.
    have taken := ends.takeWhile_append (P := (· ≠ byte '\n')) (by decide)
    have less := ends.length_takeWhile_lt (P := (· ≠ byte '\n')) (by decide)
    exact .of_comment rfl (fun more => by simp only [taken]) (by omega)
  refine .ite (fun more => by rw [ends.head?_append]) (fun star => ?_) fun _ => ?_
  · rw [slash, if_neg other, if_pos star] at closed
    obtain ⟨b, after, rfl⟩ := List.exists_cons_of_ne_nil ends.ne_nil
    -- A comment in stars was closed by assumption.
    cases found : commentEnd after with
    | none =>
      rw [List.drop_succ_cons, List.drop_zero, found] at closed
      cases closed
    | some length =>
      obtain ⟨text, back, rfl, rfl, inside⟩ := exists_text_of_commentEnd found
      refine @Contained.of_comment _ _ _ (text.length + 3) ?_ (fun more => ?_) ?_
      · simp only [List.drop_succ_cons, List.drop_zero, found]
      · have again := commentEnd_of_text inside (back ++ more)
        simp only [List.cons_append, List.drop_succ_cons, List.drop_zero, found, List.append_assoc,
          again]
      · simp only [List.length_append, List.length_cons]
        omega
  · exact contained_unexpected ends 0 (byte '/')

/-- What stands in front of a line end is recognized the same whatever follows the line end. -/
theorem contained_recognize {first : UInt8} (closed : (recognize first rest).IsClosed) :
    Contained 1 (recognize first) rest := by
  -- Only four ways to read can run into the end of the text.
  by_cases slash : first = byte '/'
  · subst slash
    exact (contained_slash ends closed).of_agree fun _ => rfl
  by_cases quote : first = byte '"'
  · subst quote
    exact (contained_quotation .string 0 closed).of_agree fun _ => rfl
  by_cases plus : first = byte '+'
  · subst plus
    exact (contained_plus ends closed).of_agree fun _ => rfl
  by_cases raw : first = byte 'r' ∧ rest.head? = some (byte '"')
  · obtain ⟨rfl, quote⟩ := raw
    obtain ⟨b, after, rfl⟩ := List.exists_cons_of_ne_nil ends.ne_nil
    obtain rfl := Option.some.inj quote
    exact .behind [byte '"'] _ (contained_quotation .regex 1 closed) (ends.tail (by decide))
      fun _ _ => rfl
  -- The other readers, in the order in which the first byte is tested for them.
  refine .choose (fun given => absurd given slash) fun _ => ?_
  refine .choose (fun _ => contained_dash ends) fun _ => ?_
  refine .choose (fun _ => contained_angle ends) fun _ => ?_
  refine .choose (fun _ => contained_dot ends) fun _ => ?_
  refine .choose (fun given => absurd given quote) fun _ => ?_
  refine .ite (fun more => by rw [ends.head?_append]) (fun given => absurd given raw) fun _ => ?_
  refine .choose (fun _ => contained_parenthesis ends) fun _ => ?_
  refine .choose (fun given => absurd given plus) fun _ => ?_
  refine .choose (fun digit => (contained_number (ends.cons first) false 0 digit).uncons) fun _ => ?_
  refine .choose (fun _ => contained_sigil ends .directive '#') fun _ => ?_
  refine .choose (fun _ => contained_sigil ends .modifier '@') fun _ => ?_
  cases punctuation? first with
  | some kind => exact .of_plain rfl (fun _ => rfl) (Nat.lt_of_lt_of_le Nat.one_pos (Nat.le_add_right ..))
  | none =>
    exact .choose (fun _ => contained_word ends first) fun _ => contained_unexpected ends 0 first

/-- A token does not reach the line end. -/
theorem length_lt_of_token {first : UInt8} {kind : TokenKind} {text : String}
    {warning? : Option Warning}
    (content : (recognize first rest).content = .token kind text warning?) :
    (recognize first rest).length < 1 + rest.length := by
  -- The token's last byte is no line end, so there is one behind it.
  obtain ⟨body, after, rfl, length, solid, -⟩ := local_recognize first rest kind text warning? content
  have left := (ends.of_append solid).length_pos
  rw [length, List.length_append]
  omega

end Closed

end Lexeme

end ArgSchema
