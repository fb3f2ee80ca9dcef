import ArgSchema.Proofs.Lexer.Kinds
import ArgSchema.Proofs.Lexer.Recognized

/-! Gaps: blanks and comments between tokens, which make no difference to the tokens. -/

namespace ArgSchema

/-- Blanks and closed comments; a line comment is closed by the line end behind it. -/
inductive Gap : Bytes → Prop
  /-- Nothing. -/
  | none : Gap []
  /-- A blank. -/
  | blank {b rest} : isBlank b = true → Gap rest → Gap (b :: rest)
  /-- Two slashes and the rest of their line. -/
  | line {text rest} : (∀ b ∈ text, b ≠ byte '\n') → rest.head? = some (byte '\n') → Gap rest →
      Gap (byte '/' :: byte '/' :: text ++ rest)
  /-- A comment between its opening and its first closing. -/
  | block {text rest} : ¬[byte '*', byte '/'] <:+: text ++ [byte '*'] → Gap rest →
      Gap (byte '/' :: byte '*' :: text ++ byte '*' :: byte '/' :: rest)

/-- A gap that a text can end with: its last line comment needs no line end. -/
def Trail (bytes : Bytes) : Prop :=
  Gap bytes ∨ ∃ gap text, bytes = gap ++ byte '/' :: byte '/' :: text ∧ Gap gap ∧
    ∀ b ∈ text, b ≠ byte '\n'

namespace Gap

/-- A gap parts what stands in front of it from what stands behind it. -/
theorem parted {bytes : Bytes} (gap : Gap bytes) (rest : Bytes) (some : bytes ≠ []) :
    Parted (bytes ++ rest) := by
  cases gap with
  -- A gap starts with a blank or with a slash.
  | none => exact absurd rfl some
  | blank space _ =>
    rintro b ⟨⟩
    exact .inl space
  | line | block =>
    rintro b ⟨⟩
    exact .inr rfl

/-- Gaps one behind the other are a gap. -/
theorem append {first second : Bytes} (gap : Gap first) (next : Gap second) :
    Gap (first ++ second) := by
  -- Pieces of the first gap stay in front; a line comment still ends where it ended.
  induction gap with
  | none => exact next
  | blank space _ ih => exact .blank space ih
  | @line text rest line stop _ ih =>
    rw [List.append_assoc]
    refine .line line ?_ ih
    rw [List.head?_append, stop]
    rfl
  | block inside _ ih =>
    rw [List.append_assoc]
    exact .block inside ih

/-- Blanks are a gap. -/
theorem of_blanks {bytes : Bytes} (blanks : ∀ b ∈ bytes, isBlank b = true) : Gap bytes := by
  -- By induction on the blanks.
  induction bytes with
  | nil => exact .none
  | cons b rest ih =>
    exact .blank (blanks b (by simp)) (ih fun other member => blanks other (by simp [member]))

/-- A gap may end a text. -/
theorem trail {bytes : Bytes} (gap : Gap bytes) : Trail bytes := .inl gap

end Gap

namespace Trail

variable {front rest : Bytes}

/-- What may end a text may end it behind a gap. -/
theorem behind (gap : Gap front) (trail : Trail rest) : Trail (front ++ rest) := by
  -- The gap joins the last gap, or the one in front of the open comment.
  rcases trail with last | ⟨more, text, rfl, last, line⟩
  · exact .inl (gap.append last)
  · exact .inr ⟨front ++ more, text, (List.append_assoc ..).symm, gap.append last, line⟩

/-- What ends a text parts a token in front of it from what follows. -/
theorem parted (trail : Trail rest) : Parted rest := by
  -- Without a gap the text ends at once or starts with a slash.
  rcases trail with gap | ⟨gap, text, rfl, skipped, -⟩
  · by_cases some : rest = []
    · rw [some]
      exact nofun
    · rw [← List.append_nil rest]
      exact gap.parted [] some
  · by_cases some : gap = []
    · rw [some]
      rintro b ⟨⟩
      exact .inr rfl
    · exact skipped.parted _ some

end Trail

namespace Lexeme

/-- Text that goes on does not close a comment with its first byte, nor later. -/
theorem not_closing_cons {b : UInt8} {text : Bytes} :
    ¬[byte '*', byte '/'] <:+: b :: text ++ [byte '*'] ↔
      ¬(b = byte '*' ∧ (text ++ [byte '*']).head? = some (byte '/')) ∧
        ¬[byte '*', byte '/'] <:+: text ++ [byte '*'] := by
  rw [List.cons_append, List.infix_cons_iff, not_or]
  -- The closing mark stands at the front or further behind.
  have first : [byte '*', byte '/'] <+: b :: (text ++ [byte '*']) ↔
      b = byte '*' ∧ (text ++ [byte '*']).head? = some (byte '/') := by
    rw [List.cons_prefix_cons, List.singleton_prefix_iff_head?_eq_some]
    exact and_congr_left fun _ => eq_comm
  rw [first]

/-- A block comment goes up to its first closing. -/
theorem commentEnd_of_text {text : Bytes}
    (inside : ¬[byte '*', byte '/'] <:+: text ++ [byte '*']) (rest : Bytes) :
    commentEnd (text ++ byte '*' :: byte '/' :: rest) = some (text.length + 2) := by
  induction text with
  | nil => rw [List.nil_append, commentEnd, if_pos ⟨rfl, rfl⟩]; rfl
  | cons b text ih =>
    obtain ⟨first, more⟩ := not_closing_cons.mp inside
    -- The byte behind is that of the text, or the star of the closing.
    obtain ⟨c, after, same⟩ := List.exists_cons_of_ne_nil
      (show text ++ byte '*' :: byte '/' :: rest ≠ [] by simp)
    have head : (text ++ [byte '*']).head? = some c := by
      cases text with
      | nil => exact congrArg List.head? same
      | cons d text => exact congrArg List.head? same
    have ended := ih more
    rw [same] at ended
    rw [List.cons_append, same, commentEnd, if_neg, ended]
    · rfl
    · rintro ⟨star, slash⟩
      exact first ⟨star, by rw [head, slash]⟩

/-- A block comment that ends has a text and a closing. -/
theorem exists_text_of_commentEnd {bytes : Bytes} {length : Nat}
    (ended : commentEnd bytes = some length) :
    ∃ text rest, bytes = text ++ byte '*' :: byte '/' :: rest ∧ length = text.length + 2 ∧
      ¬[byte '*', byte '/'] <:+: text ++ [byte '*'] := by
  fun_induction commentEnd bytes generalizing length with
  | case1 b c rest both =>
    obtain ⟨rfl, rfl⟩ := both
    cases ended
    refine ⟨[], rest, rfl, rfl, fun inside => ?_⟩
    have short := inside.length_le
    simp at short
  | case2 b c rest other ih =>
    obtain ⟨before, inner, rfl⟩ := Option.map_eq_some_iff.mp ended
    obtain ⟨text, after, same, rfl, inside⟩ := ih inner
    refine ⟨b :: text, after, by rw [same]; rfl, rfl, not_closing_cons.mpr ⟨?_, inside⟩⟩
    rintro ⟨star, slash⟩
    refine other ⟨star, ?_⟩
    -- The byte behind the first is the same with the closing as without it.
    cases text with
    | nil => cases slash
    | cons d text =>
      have first := congrArg List.head? same
      rw [List.cons_append, List.head?_cons] at slash
      rw [List.head?_cons, List.cons_append, List.head?_cons, slash] at first
      exact Option.some.inj first
  | case3 => cases ended

/-- A line comment goes up to the end of its line. -/
theorem recognize_line {text : Bytes} (rest : Bytes) (line : ∀ b ∈ text, b ≠ byte '\n')
    (stop : ∀ b ∈ rest.head?, b = byte '\n') :
    recognize (byte '/') (byte '/' :: (text ++ rest)) = ⟨.comment, text.length + 1⟩ := by
  have found : recognize (byte '/') (byte '/' :: (text ++ rest)) =
      slash (byte '/' :: (text ++ rest)) := rfl
  -- The comment takes everything in front of the line end.
  have taken : (text ++ rest).takeWhile (· ≠ byte '\n') = text :=
    takeWhile_append_stop (by simpa using line) fun b member => by simp [stop b member]
  rw [found, slash, List.head?_cons, if_pos rfl, List.takeWhile_cons_of_pos (by decide), taken]
  rfl

/-- A slash and a star start a block comment. -/
theorem recognize_block {rest : Bytes} {length : Nat} (ended : commentEnd rest = some length) :
    recognize (byte '/') (byte '*' :: rest) = ⟨.comment, length + 1⟩ := by
  -- A star behind the slash opens a block, whose end is given.
  have found : recognize (byte '/') (byte '*' :: rest) = slash (byte '*' :: rest) := rfl
  have other : (byte '*' :: rest).head? ≠ some (byte '/') := by
    rw [List.head?_cons]
    decide
  rw [found, slash, if_neg other, List.head?_cons, if_pos rfl, List.drop_succ_cons, List.drop_zero,
    ended]

/-- Only two slashes, or a slash and a star, start a comment. -/
theorem cases_of_comment {first : UInt8} {rest : Bytes}
    (content : (recognize first rest).content = .comment) :
    first = byte '/' ∧ ((∃ after, rest = byte '/' :: after) ∨
      ∃ after length, rest = byte '*' :: after ∧ commentEnd after = some length) := by
  obtain rfl := slash_of_comment content
  refine ⟨rfl, ?_⟩
  have slash : (slash rest).content = .comment := content
  unfold Lexeme.slash at slash
  -- The second byte is a slash, or a star whose comment is closed.
  split at slash
  · next line =>
    cases rest with
    | nil => cases line
    | cons b after => exact .inl ⟨after, by rw [Option.some.inj line]⟩
  · split at slash
    · next star =>
      split at slash
      · next length ended =>
        cases rest with
        | nil => cases star
        | cons b after => exact .inr ⟨after, length, by rw [Option.some.inj star], ended⟩
      · cases slash
    · cases slash

end Lexeme

/-- A text that goes on goes on with a gap, is ended by a comment, or has something else. -/
theorem exists_front {bytes : Bytes} (some : bytes ≠ []) :
    (∃ front more, bytes = front ++ more ∧ front ≠ [] ∧ Gap front) ∨ Trail bytes ∨
      ∃ first rest, bytes = first :: rest ∧ isBlank first = false ∧
        (Lexeme.recognize first rest).content ≠ .comment := by
  -- The first byte is a blank, starts a comment, or starts something else.
  obtain ⟨first, rest, rfl⟩ := List.exists_cons_of_ne_nil some
  by_cases space : isBlank first = true
  · exact .inl ⟨[first], rest, rfl, by simp, .blank space .none⟩
  by_cases comment : (Lexeme.recognize first rest).content = .comment
  · obtain ⟨rfl, ⟨after, rfl⟩ | ⟨after, length, rfl, ended⟩⟩ := Lexeme.cases_of_comment comment
    · -- A line comment is closed by a line end, or it ends the text.
      obtain ⟨text, back, rfl, line, stop⟩ := Lexeme.exists_taken (· ≠ byte '\n') after
      have line : ∀ b ∈ text, b ≠ byte '\n' := by simpa using line
      cases back with
      | nil =>
        rw [List.append_nil]
        exact .inr (.inl (.inr ⟨[], text, rfl, .none, line⟩))
      | cons b more =>
        obtain rfl : b = byte '\n' := by simpa using stop b rfl
        refine .inl ⟨byte '/' :: byte '/' :: text ++ [byte '\n'], more, by simp, by simp, ?_⟩
        exact .line line rfl (.blank (by decide) .none)
    -- A block comment is closed by its mark.
    · obtain ⟨text, more, rfl, -, inside⟩ := Lexeme.exists_text_of_commentEnd ended
      refine .inl ⟨byte '/' :: byte '*' :: text ++ [byte '*', byte '/'], more, by simp, by simp, ?_⟩
      exact .block inside .none
  · exact .inr (.inr ⟨first, rest, rfl, by simpa using space, comment⟩)

namespace Cursor

variable {cursor : Cursor} {breadcrumb : Breadcrumb}

/-- Going on twice is going on by both numbers of bytes. -/
theorem advance_add (cursor : Cursor) (first second : Nat) :
    cursor.advance (first + second) = (cursor.advance first).advance second := by
  -- By induction on the first steps.
  induction first generalizing cursor with
  | zero => rw [Nat.zero_add]; rfl
  | succ first ih =>
    rw [Nat.add_right_comm]
    exact ih cursor.step

/-- A gap makes no difference to the next token. -/
theorem nextToken_gap {gap rest : Bytes} (skipped : Gap gap) (found : cursor.rest = gap ++ rest) :
    cursor.nextToken breadcrumb = (cursor.advance gap.length).nextToken breadcrumb := by
  -- Each part of the gap is passed by the lexer, and the rest of it by induction.
  induction skipped generalizing cursor with
  | none => rfl
  | @blank b more space _ ih =>
    have next : cursor.step.rest = more ++ rest := by simp [rest_step, found]
    rw [nextToken_blank found space, ih next]
    rfl
  | @line text more line stop _ ih =>
    -- The comment goes as far as its line, whatever comes behind it.
    have ended : ∀ b ∈ (more ++ rest).head?, b = byte '\n' := by
      rw [List.head?_append, stop]
      rintro b ⟨⟩
      rfl
    have read := Lexeme.recognize_line _ line ended
    have found' : cursor.rest = byte '/' :: byte '/' :: (text ++ (more ++ rest)) := by
      simpa using found
    have next : (cursor.advance (text.length + 2)).rest = more ++ rest := by
      rw [rest_advance, found']
      simp
    rw [nextToken_of_comment found' (by decide) (by rw [read]), read, Lexeme.length, ih next,
      ← advance_add]
    congr 2
    simp
    omega
  -- A block goes as far as its mark, whatever stands in it.
  | @block text more inside _ ih =>
    have read := Lexeme.recognize_block (Lexeme.commentEnd_of_text inside (more ++ rest))
    have found' : cursor.rest = byte '/' :: byte '*' ::
        (text ++ byte '*' :: byte '/' :: (more ++ rest)) := by simpa using found
    have next : (cursor.advance (text.length + 4)).rest = more ++ rest := by
      rw [rest_advance, found']
      simp [List.drop_append]
    rw [nextToken_of_comment found' (by decide) (by rw [read]), read, Lexeme.length, ih next,
      ← advance_add]
    congr 2
    simp
    omega

/-- What may end a text brings its end. -/
theorem nextToken_trail (trail : Trail cursor.rest) (breadcrumb : Breadcrumb) :
    (cursor.nextToken breadcrumb).reports = [] ∧
      ∃ span, (cursor.nextToken breadcrumb).result = .ok ⟨.endOfFile, "", span⟩ := by
  -- A gap leaves nothing, or a comment that runs up to the end.
  rcases trail with gap | ⟨gap, text, found, skipped, line⟩
  · rw [nextToken_gap gap (List.append_nil _).symm]
    exact nextToken_end (by rw [rest_advance, List.drop_length]) _
  · rw [nextToken_gap skipped found]
    have next : (cursor.advance gap.length).rest = byte '/' :: byte '/' :: text := by
      rw [rest_advance, found, List.drop_left]
    have read := Lexeme.recognize_line [] line nofun
    rw [List.append_nil] at read
    rw [nextToken_of_comment next (by decide) (by rw [read])]
    refine nextToken_end ?_ _
    rw [rest_advance, next, read]
    simp [Lexeme.length]

end Cursor

end ArgSchema
