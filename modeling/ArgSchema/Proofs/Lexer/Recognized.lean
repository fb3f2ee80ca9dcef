import ArgSchema.Proofs.Lexer.Local

/-! Recognized tokens: what each kind of token starts with, and that its own bytes determine it. -/

namespace ArgSchema

namespace Lexeme

/-- A name in angle brackets. -/
theorem local_angle (rest : Bytes) : Local 1 angle rest := by
  -- The name goes as far as a bracket or a blank, and a closing bracket decides whether it is a
  -- type.
  obtain ⟨name, back, rfl, all, stop⟩ :=
    exists_taken (fun b => b ≠ byte '>' && !isBlank b) rest
  have shape : ∀ next : Bytes, (∀ b ∈ next.head?, (b ≠ byte '>' && !isBlank b) = false) →
      angle (name ++ next) = if next.head? = some (byte '>') then
        if name.isEmpty then malformed .emptyType 1
        else named .type (Utf8.decodeLossy name) (name.length + 1) (next.drop 1)
      else malformed .unterminatedType name.length := by
    intro next stop
    have taken := takeWhile_append_stop all stop
    unfold angle
    simp only [taken, List.drop_left]
  by_cases closed : back.head? = some (byte '>')
  · cases empty : name.isEmpty with
    | true =>
      refine .of_not_token ?_
      rw [shape back stop, if_pos closed, empty]
      rintro _ _ _ ⟨⟩
    | false =>
      -- The bracket is the first byte behind the name.
      obtain ⟨after, rfl⟩ : ∃ after, back = byte '>' :: after := by
        cases back with
        | nil => cases closed
        | cons b after => exact ⟨after, by rw [Option.some.inj closed]⟩
      -- Nothing behind the bracket is part of the name.
      have read : ∀ next, angle (name ++ [byte '>'] ++ next) =
          named .type (Utf8.decodeLossy name) (name.length + 1) next := by
        intro next
        rw [List.append_assoc, List.singleton_append, shape _ (by simp), List.head?_cons,
          if_pos rfl, empty]
        rfl
      have solid : Solid (name ++ [byte '>']) := by simp [Solid]; decide
      have given := local_named .type (Utf8.decodeLossy name) (name.length + 1) after
      rw [show name.length + 1 + 1 = 1 + (name ++ [byte '>']).length by simp [Nat.add_comm]] at given
      have split : name ++ byte '>' :: after = name ++ [byte '>'] ++ after := by simp
      rw [split]
      exact .behind _ given solid fun next _ => read next
  · refine .of_not_token ?_
    rw [shape back stop, if_neg closed]
    rintro _ _ _ ⟨⟩

/-- Bytes of names behind a mark are a token. -/
theorem local_taken {read : Bytes → Lexeme} (kind : TokenKind) {rest : Bytes}
    (shape : ∀ name next : Bytes, name.head? = (rest.takeWhile isNameByte).head? →
      (∀ b ∈ name, isNameByte b = true) → (∀ b ∈ next.head?, isNameByte b = false) →
      read (name ++ next) = plain kind (Utf8.decodeLossy name) name.length) :
    Local 1 read rest := by
  -- What was taken can be put in front of any other bytes that stop it.
  obtain ⟨name, back, rfl, all, stop⟩ := exists_taken isNameByte rest
  have head : name.head? = ((name ++ back).takeWhile isNameByte).head? := by
    rw [takeWhile_append_stop all stop]
  intro kind' text warning? _
  refine ⟨name, back, rfl, ?_, solid_of_name all, fun other parted => ?_⟩
  · rw [shape name back head all stop]
    simp only [Lexeme.length, plain]
    omega
  · rw [shape name back head all stop, shape name other head all fun b member =>
      (parted.apart.stops b member).1]

/-- Three dots, or a name behind one. -/
theorem local_dot (rest : Bytes) : Local 1 dot rest := by
  -- Two more dots are an ellipsis, a name is a property, and anything else is no token.
  by_cases dots : rest.take 2 = [byte '.', byte '.']
  · have whole : [byte '.', byte '.'] ++ rest.drop 2 = rest := by
      rw [← dots, List.take_append_drop]
    have read : ∀ next, dot ([byte '.', byte '.'] ++ next) = plain .ellipsis "..." 2 :=
      fun next => if_pos rfl
    rw [← whole]
    exact .of_closed _ (fun other => (read other).trans (read _).symm) (by rw [read]; rfl)
      (by unfold Solid; decide)
  · by_cases start : rest.head?.any isNameStart = true
    · refine local_taken .property fun name next head all stop => ?_
      -- The first byte of the name is the one that stood first.
      have first : (rest.takeWhile isNameByte).head? = rest.head? := by
        have same := head?_taken isNameByte_of_isNameStart start []
        rwa [List.append_nil] at same
      cases name with
      | nil =>
        rw [← first, ← head] at start
        cases start
      | cons b more =>
        have begins : isNameStart b = true := by
          rw [← first, ← head] at start
          exact start
        -- With what comes next behind it, the name is no longer and no shorter.
        have taken := takeWhile_append_stop all stop
        have single : (b :: more ++ next).take 2 ≠ [byte '.', byte '.'] := fun both =>
          ne_of_isNameStart begins (by decide) (List.cons.inj both).1
        have fits : (b :: more ++ next).head?.any isNameStart = true := begins
        rw [dot, if_neg single, if_pos fits]
        simp only [taken]
    · refine .of_not_token ?_
      rw [dot, if_neg dots, if_neg start]
      rintro _ _ _ ⟨⟩

/-- How quoted text ends behind the bytes in front of the one that ends it. -/
def Quoted.EndsBy : Quoted → Bytes → UInt8 → Prop
  | .closed _ length, body, last => last = byte '"' ∧ length = body.length + 1
  | .cut before, body, last => last = byte '\n' ∧ before = body.length
  | .endless, _, _ => False

/-- More bytes in front of quoted text do not change what ends it. -/
theorem Quoted.EndsBy.behind {ended : Quoted} {body : Bytes} {last : UInt8}
    (ends : ended.EndsBy body last) (value front : Bytes) :
    (ended.behind value front.length).EndsBy (front ++ body) last := by
  -- What is quoted is longer by the bytes in front, and what ends it is the same.
  cases ended with
  | closed more length =>
    obtain ⟨quote, rfl⟩ := ends
    exact ⟨quote, by simp [Nat.add_assoc]⟩
  | cut before =>
    obtain ⟨line, rfl⟩ := ends
    exact ⟨line, (List.length_append).symm⟩
  | endless => cases ends

/-- An escape that hides no quote stands for a byte, or for itself. -/
theorem quoted_pair {raw : Bool} {c : UInt8} (other : c ≠ byte '"') (rest : Bytes) :
    quoted raw (byte '\\' :: c :: rest) =
      if raw then (quoted raw rest).behind [byte '\\', c] 2
      else match escaped? c with
        | some value => (quoted raw rest).behind [value] 2
        | none => if c = byte '\n' then .cut 1 else (quoted raw rest).behind [byte '\\', c] 2 := by
  rw [quoted]
  exact (if_neg (by decide)).trans ((if_neg (by decide)).trans ((if_pos rfl).trans (if_neg other)))

/-- Quoted text that ends does so by its quote or its line end, whatever stands behind that. -/
theorem exists_of_ended {raw : Bool} {bytes : Bytes} (ended : quoted raw bytes ≠ .endless) :
    ∃ body last after, bytes = body ++ last :: after ∧ (quoted raw bytes).EndsBy body last ∧
      ∀ other, quoted raw (body ++ last :: other) = quoted raw bytes := by
  -- Reading on behind some bytes ends where it would end without them.
  have goOn : ∀ (front : Bytes) {rest value : Bytes},
      (∀ next, next ≠ [] → quoted raw (front ++ next) =
        (quoted raw next).behind value front.length) →
      (quoted raw rest).behind value front.length ≠ .endless →
      (quoted raw rest ≠ .endless → ∃ body last after, rest = body ++ last :: after ∧
        (quoted raw rest).EndsBy body last ∧
        ∀ other, quoted raw (body ++ last :: other) = quoted raw rest) →
      ∃ body last after, front ++ rest = body ++ last :: after ∧
        ((quoted raw rest).behind value front.length).EndsBy body last ∧
        ∀ other, quoted raw (body ++ last :: other) =
          (quoted raw rest).behind value front.length := by
    intro front rest value step ended inner
    have some : quoted raw rest ≠ .endless := fun none => ended (by rw [none]; rfl)
    obtain ⟨body, last, after, split, ends, kept⟩ := inner some
    refine ⟨front ++ body, last, after, by rw [split, List.append_assoc], ends.behind value front,
      fun other => ?_⟩
    rw [List.append_assoc, step _ (by simp), kept]
  -- The cases are the steps of the scan: it stops at a quote or a line end, and reads on otherwise.
  have pair := @quoted_pair raw
  fun_induction quoted raw bytes with
  | case1 | case4 => exact absurd rfl ended
  | case2 => exact ⟨[], byte '\n', [], rfl, ⟨rfl, rfl⟩, quoted_line raw⟩
  | case3 => exact ⟨[], byte '"', [], rfl, ⟨rfl, rfl⟩, quoted_close raw⟩
  | case5 c rest => exact ⟨[], byte '\n', c :: rest, rfl, ⟨rfl, rfl⟩, quoted_line raw⟩
  | case6 c rest => exact ⟨[], byte '"', c :: rest, rfl, ⟨rfl, rfl⟩, quoted_close raw⟩
  | case7 rest _ _ ih =>
    exact goOn [byte '\\', byte '"'] (fun next _ => quoted_hidden raw next) ended ih
  | case8 c rest other kind _ _ ih =>
    exact goOn [byte '\\', c] (fun next _ => (pair other next).trans (if_pos kind)) ended ih
  | case9 c rest other kind value escaped _ _ ih =>
    refine goOn [byte '\\', c] (fun next _ => ?_) ended ih
    rw [List.cons_append, List.singleton_append, pair other, if_neg kind, escaped]
    rfl
  | case10 rest cooked =>
    -- A backslash does not hide the end of its line, and that ends the text.
    refine ⟨[byte '\\'], byte '\n', rest, rfl, ⟨rfl, rfl⟩, fun next => ?_⟩
    rw [List.singleton_append, pair (by decide), if_neg cooked]
    rfl
  | case11 c rest other kind escaped line _ _ ih =>
    refine goOn [byte '\\', c] (fun next _ => ?_) ended ih
    rw [List.cons_append, List.singleton_append, pair other, if_neg kind, escaped]
    exact if_neg line
  | case12 b c rest line quote backslash ih =>
    exact goOn [b] (fun next some => quoted_plain some (by simpa using ⟨line, quote, backslash⟩))
      ended ih

/-- Quoted text ends with its quote, whatever stands behind it. -/
theorem exists_of_closed {raw : Bool} {bytes value : Bytes} {length : Nat}
    (closed : quoted raw bytes = .closed value length) :
    ∃ body after, bytes = body ++ after ∧ body.length = length ∧
      body.getLast? = some (byte '"') ∧
      ∀ other, quoted raw (body ++ other) = .closed value length := by
  -- Ended text is closed by a quote here, and a quote ends it anywhere.
  obtain ⟨body, last, after, split, ends, kept⟩ := exists_of_ended (by rw [closed]; nofun)
  rw [closed] at ends kept
  obtain ⟨rfl, rfl⟩ := ends
  refine ⟨body ++ [byte '"'], after, by simp [split], by simp, by simp, fun other => ?_⟩
  rw [List.append_assoc]
  exact kept other

/-- Quoted text behind its opening quote. -/
theorem local_quotation (kind : TokenKind) (tail : Nat) (rest : Bytes) :
    Local (tail + 1) (quotation kind tail) rest := by
  cases ends : quoted (kind = .regex) rest with
  -- Text that is closed ends where it does whatever comes next.
  | closed value length =>
    obtain ⟨body, after, rfl, rfl, last, kept⟩ := exists_of_closed ends
    have read : ∀ other, quotation kind tail (body ++ other) =
        plain kind (Utf8.decodeLossy value) (tail + body.length) := by
      intro other
      rw [quotation, kept other]
    refine .of_closed _ (fun other => (read other).trans (read after).symm) ?_ ?_
    · rw [read]
      simp only [Lexeme.length, plain]
      omega
    · rw [Solid, last]
      decide
  -- What is not closed is no token.
  | cut before =>
    refine .of_not_token ?_
    rw [quotation, ends]
    rintro _ _ _ ⟨⟩
  | endless =>
    refine .of_not_token ?_
    rw [quotation, ends]
    rintro _ _ _ ⟨⟩

/-- A truth value in parentheses. -/
theorem local_parenthesis (rest : Bytes) : Local 1 parenthesis rest := by
  -- As for a type: the word goes as far as a parenthesis or a blank, and has to be closed.
  obtain ⟨word, back, rfl, all, stop⟩ :=
    exists_taken (fun b => b ≠ byte ')' && !isBlank b) rest
  have shape : ∀ next : Bytes, (∀ b ∈ next.head?, (b ≠ byte ')' && !isBlank b) = false) →
      parenthesis (word ++ next) = if next.head? = some (byte ')') then
        if Utf8.decodeLossy word = "true" then
          plain (.boolean true) (Utf8.decodeLossy word) (word.length + 1)
        else if Utf8.decodeLossy word = "false" then
          plain (.boolean false) (Utf8.decodeLossy word) (word.length + 1)
        else malformed (.invalidBoolean (Utf8.decodeLossy word)) (word.length + 1)
      else malformed (.invalidBoolean (Utf8.decodeLossy word)) word.length := by
    intro next stop
    have taken := takeWhile_append_stop all stop
    unfold parenthesis
    simp only [taken, List.drop_left]
  by_cases closed : back.head? = some (byte ')')
  · obtain ⟨after, rfl⟩ : ∃ after, back = byte ')' :: after := by
      cases back with
      | nil => cases closed
      | cons b after => exact ⟨after, by rw [Option.some.inj closed]⟩
    -- The closing parenthesis is the last byte, so nothing behind it is looked at.
    have read : ∀ next, parenthesis (word ++ [byte ')'] ++ next) =
        parenthesis (word ++ byte ')' :: after) := by
      intro next
      rw [List.append_assoc, List.singleton_append, shape _ (by simp), shape _ (by simp)]
      rfl
    have split : word ++ byte ')' :: after = word ++ [byte ')'] ++ after := by simp
    -- All bytes up to it are taken, whichever word they are.
    have tail : (parenthesis (word ++ byte ')' :: after)).tail = word.length + 1 := by
      rw [shape _ (by simp), List.head?_cons, if_pos rfl]
      split
      · rfl
      · split <;> rfl
    rw [split] at read tail ⊢
    refine .of_closed _ read ?_ (by simp [Solid]; decide)
    rw [Lexeme.length, tail, List.length_append, List.length_singleton, Nat.add_comm]
  -- A word that is not closed is malformed.
  · refine .of_not_token ?_
    rw [shape back stop, if_neg closed]
    rintro _ _ _ ⟨⟩

/-- Code in a snippet ends with its closing mark, whatever stands behind it. -/
theorem closed_of_any {bytes : Bytes} {length : Nat}
    (closed : snippetEnd .code 0 bytes = .closed length) :
    ∃ code after, bytes = code ++ (closing ++ after) ∧ code.length = length ∧
      ∀ other, snippetEnd .code 0 (code ++ (closing ++ other)) = .closed length := by
  obtain ⟨code, after, rfl, same⟩ := exists_code_of_closed closed
  rw [Nat.zero_add] at same
  subst same
  refine ⟨code, after, rfl, rfl, fun other => ?_⟩
  -- The same code with other bytes behind its mark ends at the same place.
  have ends := endsAlike_of_blurs (Utf8.Blurs.refl code) after other _ _ .code 0 0
    (by rw [closed, Nat.zero_add])
  rw [ends, Nat.zero_add]

/-- A snippet of code. -/
theorem local_plus (rest : Bytes) : Local 1 plus rest := by
  by_cases opened : rest.take 2 = [byte '+', byte '\x7b']
  · have whole : [byte '+', byte '\x7b'] ++ rest.drop 2 = rest := by
      rw [← opened, List.take_append_drop]
    -- A snippet that is closed ends where it does whatever comes next.
    cases ends : snippetEnd .code 0 (rest.drop 2) with
    | closed length =>
      obtain ⟨code, after, split, rfl, kept⟩ := closed_of_any ends
      -- The code is dropped off in front of whatever follows.
      have read : ∀ next, plus ([byte '+', byte '\x7b'] ++ (code ++ closing) ++ next) =
          plain .snippet (Utf8.decodeLossy code) (code.length + 5) := by
        intro next
        have dropped : ([byte '+', byte '\x7b'] ++ (code ++ closing) ++ next).drop 2 =
            code ++ (closing ++ next) := by simp
        rw [plus, if_pos (by rfl), dropped, kept next]
        simp only [List.take_left]
      rw [split, ← List.append_assoc, ← List.append_assoc,
        List.append_assoc [byte '+', byte '\x7b']] at whole
      rw [← whole]
      refine .of_closed _ (fun other => (read other).trans (read after).symm) ?_ ?_
      · rw [read]
        simp only [Lexeme.length, plain, List.length_append, closing, List.length_cons,
          List.length_nil]
        omega
      · have last : (code ++ closing).getLast? = some (byte '+') := by
          rw [List.getLast?_append]
          rfl
        refine Solid.append (by unfold Solid; decide) ?_
        rw [Solid, last]
        decide
    -- An open snippet is no token.
    | endless =>
      refine .of_not_token ?_
      rw [plus, if_pos opened, ends]
      rintro _ _ _ ⟨⟩
    | endlessComment opened' =>
      refine .of_not_token ?_
      rw [plus, if_pos opened, ends]
      rintro _ _ _ ⟨⟩
  -- Without the mark, a plus sign starts no token.
  · refine .of_not_token ?_
    rw [plus, if_neg opened]
    rintro _ _ _ ⟨⟩

/-- A name behind a sigil. -/
theorem local_sigil (kind : TokenKind) (mark : Char) (rest : Bytes) :
    Local 1 (sigil kind mark) rest := by
  -- Without a name the sigil is no token.
  cases empty : (rest.takeWhile isNameByte).isEmpty with
  | true =>
    refine .of_not_token ?_
    rw [sigil, if_pos empty]
    rintro _ _ _ ⟨⟩
  | false =>
    refine local_taken kind fun name next head all stop => ?_
    have taken := takeWhile_append_stop all stop
    have some : name.isEmpty = false := by
      cases name with
      | nil =>
        rw [List.isEmpty_iff.mpr (List.head?_eq_none_iff.mp head.symm)] at empty
        cases empty
      | cons b more => rfl
    rw [sigil, taken, some]
    rfl

/-- A bare word. -/
theorem local_word (first : UInt8) (rest : Bytes) : Local 1 (word first) rest := by
  obtain ⟨name, back, rfl, all, stop⟩ := exists_taken isNameByte rest
  -- The name decides the category, whatever stands behind it.
  have shape : ∀ next : Bytes, (∀ b ∈ next.head?, isNameByte b = false) → word first (name ++ next) =
      named (if Utf8.decodeLossy (first :: name) = "meta" then .metadata else .identifier)
        (Utf8.decodeLossy (first :: name)) name.length next := by
    intro next stop
    have taken := takeWhile_append_stop all stop
    unfold word
    simp only [taken, List.length_cons, Nat.add_sub_cancel, List.drop_left]
  have given := local_named (if Utf8.decodeLossy (first :: name) = "meta" then .metadata
    else .identifier) (Utf8.decodeLossy (first :: name)) name.length back
  rw [Nat.add_comm] at given
  exact .behind name given (solid_of_name all) fun next same => shape next (stops_of_next stop same)

/-- Of two ways to read one is chosen by the first byte. -/
theorem local_ite {test : Prop} [Decidable test] {yes no : Bytes → Lexeme} {rest : Bytes}
    (first : test → Local 1 yes rest) (second : ¬test → Local 1 no rest) :
    Local 1 (fun next => if test then yes next else no next) rest := by
  -- The test does not look at the bytes, so it comes out the same whatever follows.
  by_cases given : test
  · simp only [if_pos given]
    exact first given
  · simp only [if_neg given]
    exact second given

/-- A mark of one byte is a token whatever stands behind it. -/
theorem local_mark (kind : TokenKind) (text : String) (rest : Bytes) :
    Local 1 (fun _ => plain kind text 0) rest :=
  .of_closed [] (fun _ => rfl) rfl (by simp [Solid])

/-- A digit starts a number. -/
theorem local_digit {first : UInt8} (digit : isDigit first = true) (rest : Bytes) :
    Local 1 (fun next => number false 0 (first :: next)) rest := by
  -- The first byte is a digit whatever follows it, so the number is tried each time.
  have begins : (first :: rest).head?.any isDigit = true := digit
  have given := (local_number false 0 (unexpected 0 first) begins).uncons
  have still : ∀ next : Bytes, (first :: next).head?.any isDigit = true := fun _ => digit
  simpa only [still, if_true] using given

/-- A byte that is not blank starts a token, something else, or nothing. -/
theorem local_others (first : UInt8) (rest : Bytes) : Local 1 (fun next =>
    if first = byte '(' then parenthesis next
    else if first = byte '+' then plus next
    else if isDigit first then number false 0 (first :: next)
    else if first = byte '#' then sigil .directive '#' next
    else if first = byte '@' then sigil .modifier '@' next
    else match punctuation? first with
      | some kind => plain kind (Utf8.decodeLossy [first]) 0
      | none => if isNameStart first then word first next else unexpected 0 first next) rest := by
  -- One branch for each first byte, in the order in which they are tried.
  refine local_ite (fun _ => local_parenthesis rest) fun _ => ?_
  refine local_ite (fun _ => local_plus rest) fun _ => ?_
  refine local_ite (fun digit => local_digit digit rest) fun _ => ?_
  refine local_ite (fun _ => local_sigil .directive '#' rest) fun _ => ?_
  refine local_ite (fun _ => local_sigil .modifier '@' rest) fun _ => ?_
  cases punctuation? first with
  | some kind => exact local_mark kind _ rest
  | none => exact local_ite (fun _ => local_word first rest) fun _ => .of_not_token (by rintro _ _ _ ⟨⟩)

/-- Every token is recognized from its own bytes, whatever parted bytes follow them. -/
theorem local_recognize (first : UInt8) (rest : Bytes) : Local 1 (recognize first) rest := by
  -- The tests on the first byte alone are settled one by one; only the one for a regular expression
  -- looks further.
  show Local 1 (fun next => recognize first next) rest
  unfold recognize
  refine local_ite (fun _ => ?_) fun _ => ?_
  · -- A slash starts no token.
    refine .of_not_token ?_
    unfold slash
    split
    · rintro _ _ _ ⟨⟩
    · split
      · split <;> rintro _ _ _ ⟨⟩
      · rintro _ _ _ ⟨⟩
  refine local_ite (fun _ => local_dash rest) fun _ => ?_
  refine local_ite (fun _ => local_angle rest) fun _ => ?_
  refine local_ite (fun _ => local_dot rest) fun _ => ?_
  refine local_ite (fun _ => local_quotation .string 0 rest) fun _ => ?_
  -- The letter in front of a quote is asked for together with it.
  by_cases raw : first = byte 'r' ∧ rest.head? = some (byte '"')
  · obtain ⟨rfl, quote⟩ := raw
    cases rest with
    | nil => cases quote
    | cons b after =>
      obtain rfl := Option.some.inj quote
      exact .behind [byte '"'] (local_quotation .regex 1 after)
        (by unfold Solid; decide) fun _ _ => rfl
  · -- Parted bytes do not start with a quote, so nothing else becomes a regular expression.
    refine .behind [] (local_others first rest) (by simp [Solid]) fun next same => ?_
    refine if_neg fun test => ?_
    rcases same with same | parted
    · exact raw ⟨test.1, same ▸ test.2⟩
    · exact (parted.apart.stops _ test.2).2 rfl

end Lexeme

end ArgSchema
