import ArgSchema.Lexer.Lexeme
import ArgSchema.Proofs.Text.Blurred

/-! Snippets: lossy reading of a piece of code leaves where it ends. -/

namespace ArgSchema

namespace Lexeme

/-- The bytes that end a snippet. -/
def closing : Bytes := [byte '\x7d', byte '+', byte '+']

section Steps

variable {b : UInt8} {rest : Bytes}

/-- One byte of plain code. -/
theorem snippetEnd_code (more : rest ≠ []) (passed : Nat) : snippetEnd .code passed (b :: rest) =
    if b = byte '\x7d' ∧ rest.take 2 = [byte '+', byte '+'] then .closed passed
    else if b = byte '/' ∧ rest.head? = some (byte '/') then
      snippetEnd .lineComment (passed + 1) rest
    else if b = byte '/' ∧ rest.head? = some (byte '*') then
      snippetEnd (.blockComment passed) (passed + 2) (rest.drop 1)
    else if b = byte '"' ∨ b = byte '\'' then snippetEnd (.quote b) (passed + 1) rest
    else snippetEnd .code (passed + 1) rest := by
  -- With one more byte behind it the scanner's own equation applies.
  obtain ⟨c, after, rfl⟩ := List.exists_cons_of_ne_nil more
  rw [snippetEnd]
  simp only [List.head?_cons, Option.some.injEq, List.drop_succ_cons, List.drop_zero]

/-- One byte of a block comment. -/
theorem snippetEnd_block (more : rest ≠ []) (opened passed : Nat) :
    snippetEnd (.blockComment opened) passed (b :: rest) =
      if b = byte '*' ∧ rest.head? = some (byte '/') then
        snippetEnd .code (passed + 2) (rest.drop 1)
      else snippetEnd (.blockComment opened) (passed + 1) rest := by
  -- With one more byte behind it the scanner's own equation applies.
  obtain ⟨c, after, rfl⟩ := List.exists_cons_of_ne_nil more
  rw [snippetEnd]
  simp only [List.head?_cons, Option.some.injEq, List.drop_succ_cons, List.drop_zero]

/-- One byte between quotes. -/
theorem snippetEnd_quote (more : rest ≠ []) (mark : UInt8) (passed : Nat) :
    snippetEnd (.quote mark) passed (b :: rest) =
      if b = byte '\\' then snippetEnd (.quote mark) (passed + 2) (rest.drop 1)
      else snippetEnd (if b = byte '\n' ∨ b = mark then .code else .quote mark) (passed + 1)
        rest := by
  -- With one more byte behind it the scanner's own equation applies.
  obtain ⟨c, after, rfl⟩ := List.exists_cons_of_ne_nil more
  rw [snippetEnd]
  simp only [List.drop_succ_cons, List.drop_zero]

end Steps

/-- A snippet ends behind some code that its closing mark follows. -/
theorem exists_code_of_closed {mode : SnippetMode} {passed length : Nat} {bytes : Bytes}
    (closed : snippetEnd mode passed bytes = .closed length) :
    ∃ code rest, bytes = code ++ (closing ++ rest) ∧ length = passed + code.length := by
  -- What was passed before is counted in what was passed.
  have behind : ∀ {before : Nat} {front back : Bytes}, (∃ code rest,
      back = code ++ (closing ++ rest) ∧ length = before + front.length + code.length) →
      ∃ code rest, front ++ back = code ++ (closing ++ rest) ∧ length = before + code.length := by
    rintro before front back ⟨code, rest, rfl, same⟩
    exact ⟨front ++ code, rest, by simp, by simpa [Nat.add_assoc] using same⟩
  fun_induction snippetEnd mode passed bytes with
  | case1 | case2 => cases closed
  -- The closing mark, with nothing in front of it.
  | case3 passed b rest ends =>
    cases closed
    obtain ⟨rfl, marks⟩ := ends
    have whole := List.take_append_drop 2 rest
    rw [marks] at whole
    exact ⟨[], rest.drop 2, by rw [List.nil_append, ← whole]; simp [closing], rfl⟩
  -- In code one byte is passed, or two that open something.
  | case4 passed b rest _ _ ih => exact @behind passed [b] rest (ih closed)
  | case5 passed b c after _ _ _ ih => exact @behind passed [b, c] after (ih closed)
  | case6 passed b c after _ _ _ _ ih => exact @behind passed [b] (c :: after) (ih closed)
  | case7 passed b c after _ _ _ _ ih => exact @behind passed [b] (c :: after) (ih closed)
  | case8 | case12 | case14 => cases closed
  -- So are the bytes of comments and quotes, up to their ends.
  | case9 passed b rest ih => exact @behind passed [b] rest (ih closed)
  | case10 opened passed b c after _ ih => exact @behind passed [b, c] after (ih closed)
  | case11 opened passed b c after _ ih => exact @behind passed [b] (c :: after) (ih closed)
  | case13 mark passed c after ih => exact @behind passed [_, c] after (ih closed)
  | case15 mark passed b rest _ ih => exact @behind passed [b] rest (ih closed)

/-- A snippet does not end in front of what was passed. -/
theorem passed_le_of_closed {mode : SnippetMode} {passed length : Nat} {bytes : Bytes}
    (closed : snippetEnd mode passed bytes = .closed length) : passed ≤ length := by
  obtain ⟨code, rest, _, rfl⟩ := exists_code_of_closed closed
  exact Nat.le_add_right _ _

/-- Scans that stand in the same place of a snippet, wherever a comment was opened. -/
inductive SnippetMode.Like : SnippetMode → SnippetMode → Prop
  /-- In plain code. -/
  | code : Like .code .code
  /-- In a comment up to the end of its line. -/
  | lineComment : Like .lineComment .lineComment
  /-- In a block comment. -/
  | blockComment (a b : Nat) : Like (.blockComment a) (.blockComment b)
  /-- Between quotes. -/
  | quote {mark} : mark < 0x80 → Like (.quote mark) (.quote mark)

/-- Scans that stand in the same place stand so in either order. -/
theorem SnippetMode.Like.symm {mode other : SnippetMode} (like : mode.Like other) :
    other.Like mode := by
  -- Each mode is like itself but for what it remembers.
  cases like with
  | code => exact .code
  | lineComment => exact .lineComment
  | blockComment => exact .blockComment _ _
  | quote small => exact .quote small

/-- Bytes from 128 on are passed without effect. -/
theorem snippetEnd_high {front back : Bytes} (more : back ≠ []) (high : ∀ b ∈ front, 0x80 ≤ b)
    {mode other : SnippetMode} (like : mode.Like other) (passed : Nat) :
    snippetEnd mode passed (front ++ back) = snippetEnd mode (passed + front.length) back := by
  induction front generalizing passed with
  | nil => rfl
  | cons b rest ih =>
    have own := high b (by simp)
    -- A high byte is none of the marks that the scan asks for.
    have other : ∀ {c : Char}, byte c < 0x80 → b ≠ byte c := by
      rintro c small rfl
      exact absurd small (UInt8.not_lt.mpr own)
    have later := ih (fun other member => high other (by simp [member])) (passed + 1)
    have some : rest ++ back ≠ [] := List.append_ne_nil_of_right_ne_nil rest more
    rw [List.cons_append, List.length_cons, Nat.add_comm rest.length 1, ← Nat.add_assoc, ← later]
    have slash : b ≠ byte '/' := other (by decide)
    have curly : b ≠ byte '\x7d' := other (by decide)
    have double : b ≠ byte '"' := other (by decide)
    have single : b ≠ byte '\'' := other (by decide)
    have star : b ≠ byte '*' := other (by decide)
    have line : b ≠ byte '\n' := other (by decide)
    have backslash : b ≠ byte '\\' := other (by decide)
    -- In no mode does it end anything or start something else.
    cases like with
    | code => simp [snippetEnd_code some, slash, curly, double, single]
    | lineComment => rw [snippetEnd, if_neg line]
    | blockComment => simp [snippetEnd_block some, star]
    | @quote mark small =>
      have mark' : b ≠ mark := by
        rintro rfl
        exact absurd small (UInt8.not_lt.mpr own)
      simp [snippetEnd_quote some, backslash, line, mark']

section Blurred

variable {x y : Bytes} (blurs : Utf8.Blurs x y) (r s : Bytes)

include blurs

/-- Blurred code starts with the same byte, if that is below 128. -/
theorem head?_of_blurs {b : UInt8} (small : b < 0x80) :
    (x ++ (closing ++ r)).head? = some b ↔ (y ++ (closing ++ s)).head? = some b := by
  cases blurs with
  | none => rfl
  -- The first byte of the code, or of its closing mark, is the same or large on both sides.
  | ascii => rfl
  | high some some' high high' =>
    obtain ⟨c, u, rfl⟩ := List.exists_cons_of_ne_nil some
    obtain ⟨d, v, rfl⟩ := List.exists_cons_of_ne_nil some'
    have large := high c (by simp)
    have large' := high' d (by simp)
    simp only [List.cons_append, List.head?_cons, Option.some.injEq]
    constructor <;> rintro rfl
    · exact absurd small (UInt8.not_lt.mpr large)
    · exact absurd small (UInt8.not_lt.mpr large')

/-- Blurred code starts with the same two bytes, if these are below 128. -/
theorem take_two_of_blurs {b c : UInt8} (small : b < 0x80) (small' : c < 0x80) :
    (x ++ (closing ++ r)).take 2 = [b, c] ↔ (y ++ (closing ++ s)).take 2 = [b, c] := by
  have heads := head?_of_blurs blurs r s small
  cases blurs with
  | none => rfl
  -- A byte of its own is the same in both, so the next byte decides.
  | @ascii d x y _ inner =>
    have next := head?_of_blurs inner r s small'
    cases first : x ++ (closing ++ r) with
    | nil => simp [closing] at first
    | cons a rest =>
      cases second : y ++ (closing ++ s) with
      | nil => simp [closing] at second
      | cons e rest' =>
        rw [first, second] at next
        simp only [List.cons_append, first, second, List.take_succ_cons, List.take_zero,
          List.cons.injEq, and_true, List.head?_cons, Option.some.injEq] at next ⊢
        rw [next]
  -- A run of high bytes starts with neither.
  | high some some' high high' =>
    obtain ⟨e, u, rfl⟩ := List.exists_cons_of_ne_nil some
    obtain ⟨d, v, rfl⟩ := List.exists_cons_of_ne_nil some'
    have large := high e (by simp)
    have large' := high' d (by simp)
    simp only [List.cons_append, List.take_succ_cons, List.cons.injEq]
    constructor <;> rintro ⟨rfl, _⟩
    · exact absurd small (UInt8.not_lt.mpr large)
    · exact absurd small (UInt8.not_lt.mpr large')

end Blurred

/-- Code that ends where it starts is plain code. -/
theorem code_of_closed_here {mode : SnippetMode} {passed : Nat} {b : UInt8} {rest : Bytes}
    (more : rest ≠ []) (closed : snippetEnd mode passed (b :: rest) = .closed passed) :
    mode = .code := by
  -- Every other scan passes a byte before it goes on.
  have less : ∀ {mode bytes count}, passed < count →
      snippetEnd mode count bytes ≠ .closed passed := fun behind closed =>
    absurd (passed_le_of_closed closed) (Nat.not_le.mpr behind)
  cases mode with
  | code => rfl
  | lineComment =>
    rw [snippetEnd] at closed
    exact absurd closed (less (Nat.lt_succ_self _))
  | blockComment opened =>
    rw [snippetEnd_block more] at closed
    split at closed
    · exact absurd closed (less (by omega))
    · exact absurd closed (less (Nat.lt_succ_self _))
  | quote mark =>
    rw [snippetEnd_quote more] at closed
    split at closed
    · exact absurd closed (less (by omega))
    · exact absurd closed (less (Nat.lt_succ_self _))

/-- Blurred code goes on with the same byte, if that is below 128 and does not end a snippet. -/
theorem cons_of_blurs {x y r : Bytes} (blurs : Utf8.Blurs x y) {b : UInt8} (small : b < 0x80)
    (other : b ≠ byte '\x7d') (head : (x ++ (closing ++ r)).head? = some b) :
    ∃ x' y', x = b :: x' ∧ y = b :: y' ∧ Utf8.Blurs x' y' := by
  -- A byte below 128 is kept by blurring.
  cases blurs with
  | none => exact absurd (Option.some.inj head).symm other
  | ascii _ inner =>
    obtain rfl := Option.some.inj head
    exact ⟨_, _, rfl, rfl, inner⟩
  | high some some' high high' =>
    obtain ⟨c, u, rfl⟩ := List.exists_cons_of_ne_nil some
    obtain rfl := Option.some.inj head
    exact absurd small (UInt8.not_lt.mpr (high c (by simp)))

/-- Where a scan ends with the code `x`, a like scan ends with the code `y`. -/
def EndsAlike (r s x y : Bytes) : Prop :=
  ∀ mode other : SnippetMode, mode.Like other → ∀ passed count : Nat,
    snippetEnd mode passed (x ++ (closing ++ r)) = .closed (passed + x.length) →
    snippetEnd other count (y ++ (closing ++ s)) = .closed (count + y.length)

section EndsAlike

variable {r s x y : Bytes} {mode other : SnippetMode} {passed count : Nat}

/-- There is code left in front of the closing mark, if only the mark itself. -/
theorem append_closing_ne_nil (x r : Bytes) : x ++ (closing ++ r) ≠ [] := by
  simp [closing]

/-- Scans that pass a part of the code end alike if they do behind that part. -/
theorem EndsAlike.behind {x' y' : Bytes} {n m : Nat} (alike : EndsAlike r s x' y')
    (like : mode.Like other) (before : x.length = n + x'.length) (after : y.length = m + y'.length)
    (closed : snippetEnd mode (passed + n) (x' ++ (closing ++ r)) = .closed (passed + x.length)) :
    snippetEnd other (count + m) (y' ++ (closing ++ s)) = .closed (count + y.length) := by
  rw [after, ← Nat.add_assoc]
  exact alike mode other like (passed + n) (count + m) (by rw [closed, before, Nat.add_assoc])

section Cons

variable {b : UInt8} (inner : Utf8.Blurs x y)
  (alike : ∀ {x' y' : Bytes}, x'.length ≤ x.length → Utf8.Blurs x' y' → EndsAlike r s x' y')

include inner alike

/-- Scans that pass one byte of their own end alike. -/
theorem closed_behind_one (like : mode.Like other)
    (closed : snippetEnd mode (passed + 1) (x ++ (closing ++ r)) =
      .closed (passed + (b :: x).length)) :
    snippetEnd other (count + 1) (y ++ (closing ++ s)) = .closed (count + (b :: y).length) :=
  (alike (Nat.le_refl _) inner).behind like (by simp [Nat.add_comm]) (by simp [Nat.add_comm]) closed

/-- Scans that pass one byte more, which is below 128 and does not end a snippet, end alike. -/
theorem closed_behind_two {c : UInt8} (small : c < 0x80) (apart : c ≠ byte '\x7d')
    (head : (x ++ (closing ++ r)).head? = some c) (like : mode.Like other)
    (closed : snippetEnd mode (passed + 2) ((x ++ (closing ++ r)).drop 1) =
      .closed (passed + (b :: x).length)) :
    snippetEnd other (count + 2) ((y ++ (closing ++ s)).drop 1) =
      .closed (count + (b :: y).length) := by
  obtain ⟨x', y', rfl, rfl, below⟩ := cons_of_blurs inner small apart head
  exact (alike (by simp) below).behind like (by simp; omega) (by simp; omega) closed

/-- Scans of plain code that start with the same byte end alike. -/
theorem closed_code_cons (small : b < 0x80)
    (closed : snippetEnd .code passed (b :: (x ++ (closing ++ r))) =
      .closed (passed + (b :: x).length)) :
    snippetEnd .code count (b :: (y ++ (closing ++ s))) = .closed (count + (b :: y).length) := by
  -- What follows the byte is asked for marks only, and these are below 128.
  have slash := head?_of_blurs inner r s (show byte '/' < 0x80 by decide)
  have star := head?_of_blurs inner r s (show byte '*' < 0x80 by decide)
  have marks := take_two_of_blurs inner r s (show byte '+' < 0x80 by decide)
    (show byte '+' < 0x80 by decide)
  rw [snippetEnd_code (append_closing_ne_nil x r)] at closed
  rw [snippetEnd_code (append_closing_ne_nil y s)]
  simp only [← marks, ← slash, ← star]
  -- The marks are asked for in the scanner's order, on both sides alike.
  split
  -- The closing mark starts with a small byte, so it is on both sides or on none.
  · next ends =>
    rw [if_pos ends] at closed
    simp at closed
  · next ends =>
    rw [if_neg ends] at closed
    -- A line comment, a block, a quote, or plain code.
    split
    · next line =>
      rw [if_pos line] at closed
      exact closed_behind_one inner alike .lineComment closed
    · next line =>
      rw [if_neg line] at closed
      split
      · next block =>
        rw [if_pos block] at closed
        exact closed_behind_two inner alike (by decide) (by decide) block.2 (.blockComment _ _)
          closed
      · next block =>
        rw [if_neg block] at closed
        split
        · next quote =>
          rw [if_pos quote] at closed
          exact closed_behind_one inner alike (.quote small) closed
        · next quote =>
          rw [if_neg quote] at closed
          exact closed_behind_one inner alike .code closed

/-- Scans of a block comment that start with the same byte end alike. -/
theorem closed_block_cons {opened opened' : Nat}
    (closed : snippetEnd (.blockComment opened) passed (b :: (x ++ (closing ++ r))) =
      .closed (passed + (b :: x).length)) :
    snippetEnd (.blockComment opened') count (b :: (y ++ (closing ++ s))) =
      .closed (count + (b :: y).length) := by
  -- Whether the comment closes here is decided by two small bytes.
  have slash := head?_of_blurs inner r s (show byte '/' < 0x80 by decide)
  rw [snippetEnd_block (append_closing_ne_nil x r)] at closed
  rw [snippetEnd_block (append_closing_ne_nil y s)]
  simp only [← slash]
  split
  · next ends =>
    rw [if_pos ends] at closed
    exact closed_behind_two inner alike (by decide) (by decide) ends.2 .code closed
  · next ends =>
    rw [if_neg ends] at closed
    exact closed_behind_one inner alike (.blockComment _ _) closed

/-- Scans that hide the next byte behind a backslash end alike. -/
theorem closed_behind_hidden {mark : UInt8} (low : mark < 0x80)
    (closed : snippetEnd (.quote mark) (passed + 2) ((x ++ (closing ++ r)).drop 1) =
      .closed (passed + (b :: x).length)) :
    snippetEnd (.quote mark) (count + 2) ((y ++ (closing ++ s)).drop 1) =
      .closed (count + (b :: y).length) := by
  cases inner with
  | none => exact absurd (passed_le_of_closed closed) (by simp)
  | ascii _ below =>
    exact (alike (by simp) below).behind (.quote low) (by simp; omega) (by simp; omega) closed
  -- The hidden byte can be the first of several that stand for one character.
  | @high u v x y some some' high high' below =>
    obtain ⟨c, u, rfl⟩ := List.exists_cons_of_ne_nil some
    obtain ⟨d, v, rfl⟩ := List.exists_cons_of_ne_nil some'
    have like : SnippetMode.Like (.quote mark) (.quote mark) := .quote low
    have large : ∀ b ∈ u, 0x80 ≤ b := fun b member => high b (by simp [member])
    have large' : ∀ b ∈ v, 0x80 ≤ b := fun b member => high' b (by simp [member])
    simp only [List.cons_append, List.drop_succ_cons, List.drop_zero, List.append_assoc]
      at closed ⊢
    rw [snippetEnd_high (append_closing_ne_nil x r) large like, Nat.add_assoc] at closed
    rw [snippetEnd_high (append_closing_ne_nil y s) large' like, Nat.add_assoc]
    exact (alike (by simp; omega) below).behind like (by simp; omega) (by simp; omega) closed

/-- Scans between quotes that start with the same byte end alike. -/
theorem closed_quote_cons {mark : UInt8} (low : mark < 0x80)
    (closed : snippetEnd (.quote mark) passed (b :: (x ++ (closing ++ r))) =
      .closed (passed + (b :: x).length)) :
    snippetEnd (.quote mark) count (b :: (y ++ (closing ++ s))) =
      .closed (count + (b :: y).length) := by
  rw [snippetEnd_quote (append_closing_ne_nil x r)] at closed
  rw [snippetEnd_quote (append_closing_ne_nil y s)]
  -- A backslash hides the next byte; any other byte may end the quotes.
  split
  · next backslash =>
    rw [if_pos backslash] at closed
    exact closed_behind_hidden inner alike low closed
  · next backslash =>
    rw [if_neg backslash] at closed
    refine closed_behind_one inner alike ?_ closed
    split
    · exact .code
    · exact .quote low

end Cons

/-- Lossy reading of the code of a snippet leaves where the snippet ends. -/
theorem endsAlike_of_blurs (blurs : Utf8.Blurs x y) (r s : Bytes) : EndsAlike r s x y := by
  -- By the length of the code, since a step can take two bytes.
  induction length : x.length using Nat.strongRecOn generalizing x y with
  | ind size ih =>
  subst length
  intro mode other like passed count closed
  cases blurs with
  | none =>
    obtain rfl := code_of_closed_here (by simp) closed
    cases like
    exact snippetEnd_code (by simp) count
  | @high u v x y some some' high high' inner =>
    have shorter : x.length < (u ++ x).length := by
      simpa using List.length_pos_iff.mpr some
    -- High bytes mean nothing to any mode, and both sides have some.
    rw [List.append_assoc, snippetEnd_high (append_closing_ne_nil x r) high like] at closed
    rw [List.append_assoc, snippetEnd_high (append_closing_ne_nil y s) high' like.symm]
    exact (ih x.length shorter inner rfl).behind like (by simp) (by simp) closed
  | @ascii b x y small inner =>
    have alike : ∀ {x' y' : Bytes}, x'.length ≤ x.length → Utf8.Blurs x' y' →
        EndsAlike r s x' y' :=
      fun shorter blurs => ih _ (Nat.lt_succ_of_le shorter) blurs rfl
    rw [List.cons_append] at closed ⊢
    -- Both sides have the same small byte, and the mode tells what it does.
    cases like with
    | code => exact closed_code_cons inner alike small closed
    | lineComment =>
      rw [snippetEnd] at closed ⊢
      refine closed_behind_one inner alike ?_ closed
      split
      · exact .code
      · exact .lineComment
    | blockComment => exact closed_block_cons inner alike closed
    | quote low => exact closed_quote_cons inner alike low closed

end EndsAlike

/-- Bytes that a snippet can hold: the closing mark behind them ends it, whatever follows. -/
def IsCode (bytes : Bytes) : Prop :=
  ∀ rest, snippetEnd .code 0 (bytes ++ (closing ++ rest)) = .closed bytes.length

/-- A snippet is read as code that a snippet can hold. -/
theorem isCode_of_closed {bytes : Bytes} {length : Nat}
    (closed : snippetEnd .code 0 bytes = .closed length) :
    IsCode (Utf8.encode (Utf8.decodeLossy (bytes.take length))) := by
  -- Decoding blurs bytes that are no text, and the scan does not tell them apart.
  obtain ⟨code, rest, rfl, rfl⟩ := exists_code_of_closed closed
  rw [Nat.zero_add, List.take_left]
  intro more
  have ends := endsAlike_of_blurs (Utf8.blurs_decodeLossy code) rest more _ _ .code 0 0 closed
  rw [ends, Nat.zero_add]

end Lexeme

end ArgSchema
