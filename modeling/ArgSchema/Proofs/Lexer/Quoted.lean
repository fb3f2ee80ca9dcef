import ArgSchema.Layout
import ArgSchema.Lexer.Lexeme
import ArgSchema.Proofs.Text.Blurred
import Mathlib.Data.List.Basic

/-! Quoted text: what quotes can hold, and how it reads back from the way it is written. -/

namespace ArgSchema

namespace Utf8

/-- A byte below 128 in the encoding of a character is that character. -/
theorem eq_of_mem_encodeChar {c d : Char} (small : d.toNat < 128)
    (member : byte d ∈ String.utf8EncodeChar c) : c = d := by
  -- Bytes of other characters are large.
  by_cases ascii : c.toNat < 128
  · rw [encodeChar_ascii ascii, List.mem_singleton] at member
    have codes := congrArg UInt8.toNat member
    have same : c.toNat = d.toNat := by
      simp only [byte, Char.toUInt8, UInt32.toNat_toUInt8, UInt8.toNat_ofNat'] at codes
      change d.toNat % 256 = c.toNat % 256 at codes
      omega
    exact Char.toNat_inj.mp same
  · have high := (encodeChar_high (Nat.not_lt.mp ascii)).2 _ member
    have code : (byte d).toNat = d.toNat % 256 := UInt32.toNat_toUInt8 _
    rw [UInt8.le_iff_toNat_le, code] at high
    simp at high
    omega

end Utf8

namespace Lexeme

/-- Bytes that raw quotes can hold: a backslash stands in front of a byte that is no quote, and a
line ends only behind a backslash. -/
inductive RawText : Bytes → Prop
  /-- Nothing. -/
  | none : RawText []
  /-- A byte that is neither a backslash nor a line end. -/
  | plain {b rest} : b ≠ byte '\\' → b ≠ byte '\n' → RawText rest → RawText (b :: rest)
  /-- A backslash and a byte that is no quote. -/
  | pair {b rest} : b ≠ byte '"' → RawText rest → RawText (byte '\\' :: b :: rest)

/-- Bytes behind others end raw text as they would alone. -/
theorem Quoted.closed_of_behind {value more : Bytes} {count length : Nat} {rest : Quoted}
    (closed : rest.behind value count = .closed more length) :
    ∃ last tail, rest = .closed last tail ∧ more = value ++ last ∧ length = count + tail := by
  -- Only a closed literal is closed once a value is put in front of it.
  cases rest with
  | closed last tail =>
    simp only [Quoted.behind, Quoted.closed.injEq] at closed
    exact ⟨last, tail, rfl, closed.1.symm, closed.2.symm⟩
  | cut => cases closed
  | endless => cases closed

/-- Raw quotes hold what raw quotes can hold. -/
theorem rawText_of_quoted {bytes value : Bytes} {length : Nat}
    (closed : quoted true bytes = .closed value length) : RawText value := by
  generalize raw : true = kind at closed
  fun_induction quoted kind bytes generalizing value length with
  | case1 | case2 | case4 | case5 => cases closed
  | case3 | case6 =>
    cases closed
    exact .none
  | case7 rest _ _ ih =>
    -- A quote behind a backslash is kept without it.
    obtain ⟨last, tail, ended, rfl, rfl⟩ := Quoted.closed_of_behind closed
    exact .plain (by decide) (by decide) (ih ended)
  | case8 c rest other _ _ _ ih =>
    obtain ⟨last, tail, ended, rfl, rfl⟩ := Quoted.closed_of_behind closed
    exact .pair other (ih ended)
  | case9 c rest other cooked | case10 rest cooked | case11 c rest other cooked =>
    exact absurd raw.symm cooked
  | case12 b c rest line quote backslash ih =>
    obtain ⟨last, tail, ended, rfl, rfl⟩ := Quoted.closed_of_behind closed
    exact .plain backslash line (ih ended)

/-- A byte from 128 on is no ASCII character. -/
theorem ne_byte_of_high {b : UInt8} {c : Char} (high : 0x80 ≤ b) (small : byte c < 0x80) :
    b ≠ byte c := by
  rintro rfl
  exact absurd small (UInt8.not_lt.mpr high)

/-- Behind a byte that is no backslash, raw text goes on. -/
theorem RawText.tail {b : UInt8} {rest : Bytes} (raw : RawText (b :: rest)) (other : b ≠ byte '\\') :
    RawText rest := by
  -- Only a backslash starts a pair.
  cases raw with
  | plain _ _ more => exact more
  | pair => exact absurd rfl other

/-- Bytes from 128 on can stand in front of raw text. -/
theorem RawText.append_high {front back : Bytes} (high : ∀ b ∈ front, 0x80 ≤ b)
    (raw : RawText back) : RawText (front ++ back) := by
  -- A high byte is neither a backslash nor a line end.
  induction front with
  | nil => exact raw
  | cons b rest ih =>
    have own := high b (by simp)
    exact .plain (ne_byte_of_high own (by decide)) (ne_byte_of_high own (by decide))
      (ih fun other member => high other (by simp [member]))

/-- Bytes from 128 on can be taken from raw text. -/
theorem RawText.of_append_high {front back : Bytes} (high : ∀ b ∈ front, 0x80 ≤ b)
    (raw : RawText (front ++ back)) : RawText back := by
  -- Each high byte is taken off as the plain byte it is.
  induction front with
  | nil => exact raw
  | cons b rest ih =>
    exact ih (fun other member => high other (by simp [member]))
      (raw.tail (ne_byte_of_high (high b (by simp)) (by decide)))

/-- Bytes that raw text can hold behind a backslash. -/
def IsHidden (bytes : Bytes) : Prop := ∃ b rest, bytes = b :: rest ∧ b ≠ byte '"' ∧ RawText rest

/-- Blurring leaves raw text raw, and what is hidden by a backslash hidden. -/
theorem rawText_of_blurs {x y : Bytes} (blurs : Utf8.Blurs x y) :
    (RawText x → RawText y) ∧ (IsHidden x → IsHidden y) := by
  induction blurs with
  | none => exact ⟨id, id⟩
  | @ascii b x y small inner ih =>
    constructor
    · intro raw
      -- The byte is the same, so it hides or does not hide what comes next.
      cases raw with
      | plain backslash line more => exact .plain backslash line (ih.1 more)
      | pair quote more =>
        obtain ⟨c, rest, rfl, other, raw⟩ := ih.2 ⟨_, _, rfl, quote, more⟩
        exact .pair other raw
    · rintro ⟨_, _, ⟨⟩, quote, more⟩
      exact ⟨b, y, rfl, quote, ih.1 more⟩
  | @high u v x y some some' high high' inner ih =>
    refine ⟨fun raw => (ih.1 (raw.of_append_high high)).append_high high', ?_⟩
    obtain ⟨first, front, rfl⟩ := List.exists_cons_of_ne_nil some
    obtain ⟨last, back, rfl⟩ := List.exists_cons_of_ne_nil some'
    simp only [List.mem_cons, forall_eq_or_imp] at high high'
    rintro ⟨_, _, ⟨⟩, _, more⟩
    exact ⟨last, back ++ y, rfl, ne_byte_of_high high'.1 (by decide),
      (ih.1 (more.of_append_high high.2)).append_high high'.2⟩

/-- Plain bytes are taken one by one. -/
theorem quoted_plain {raw : Bool} {front back : Bytes} (some : back ≠ [])
    (plain : ∀ b ∈ front, b ≠ byte '\n' ∧ b ≠ byte '"' ∧ b ≠ byte '\\') :
    quoted raw (front ++ back) = (quoted raw back).behind front front.length := by
  -- No plain byte ends the text or hides the next, so each is taken alone.
  induction front with
  | nil => cases ends : quoted raw back <;> simp [Quoted.behind, ends]
  | cons b rest ih =>
    obtain ⟨line, quote, backslash⟩ := plain b (by simp)
    obtain ⟨c, more, same⟩ := List.exists_cons_of_ne_nil
      (List.append_ne_nil_of_right_ne_nil rest some)
    rw [List.cons_append, same, quoted, if_neg line, if_neg quote, if_neg backslash, ← same,
      ih fun other member => plain other (by simp [member])]
    cases quoted raw back <;> simp [Quoted.behind, Nat.add_assoc, Nat.add_comm]

/-- A quote ends quoted text. -/
theorem quoted_close (raw : Bool) (rest : Bytes) :
    quoted raw (byte '"' :: rest) = .closed [] 1 := by
  have apart : byte '"' ≠ byte '\n' := by decide
  cases rest <;> rw [quoted, if_neg apart, if_pos rfl]

/-- A line end cuts quoted text off. -/
theorem quoted_line (raw : Bool) (rest : Bytes) : quoted raw (byte '\n' :: rest) = .cut 0 := by
  cases rest <;> rw [quoted, if_pos rfl]

/-- A backslash in front of a quote hides the quote. -/
theorem quoted_hidden (raw : Bool) (rest : Bytes) : quoted raw (byte '\\' :: byte '"' :: rest) =
    (quoted raw rest).behind [byte '"'] 2 := by
  rw [quoted, if_neg (by decide), if_neg (by decide), if_pos rfl, if_pos rfl]

/-- The bytes that a byte is written as in raw quotes. -/
def rawEscape (b : UInt8) : Bytes := if b = byte '"' then [byte '\\', byte '"'] else [b]

/-- Raw text reads back from the way it is written. -/
theorem quoted_rawEscape {text : Bytes} (raw : RawText text) (rest : Bytes) :
    quoted true (text.flatMap rawEscape ++ byte '"' :: rest) =
      .closed text ((text.flatMap rawEscape).length + 1) := by
  induction raw with
  | none => exact quoted_close true rest
  | @plain b more backslash line _ ih =>
    rw [List.flatMap_cons, List.append_assoc, rawEscape]
    -- A quote is hidden by a backslash, and any other byte is written as it is.
    split
    · next quote =>
      subst quote
      rw [List.cons_append, List.singleton_append, quoted_hidden, ih]
      simp [Quoted.behind]
      omega
    · next quote =>
      rw [quoted_plain (by simp) (by simpa using ⟨line, quote, backslash⟩), ih]
      simp [Quoted.behind]
      omega
  -- A backslash and the byte that it hides are both written as they are.
  | @pair b more quote _ ih =>
    have kept : rawEscape (byte '\\') = [byte '\\'] := if_neg (by decide)
    have kept' : rawEscape b = [b] := if_neg quote
    rw [List.flatMap_cons, List.flatMap_cons, kept, kept', List.singleton_append,
      List.singleton_append, List.cons_append, List.cons_append, quoted, if_neg (by decide),
      if_neg (by decide), if_pos rfl, if_neg quote, if_pos rfl, ih]
    simp [Quoted.behind]
    omega

/-- The bytes that a character is written as in raw quotes are those of its bytes. -/
theorem encode_regexChar (c : Char) : Utf8.encode (if c = '"' then "\\\"" else c.toString) =
    (String.utf8EncodeChar c).flatMap rawEscape := by
  -- Only a quote is escaped, and no other character has its byte.
  split
  · next quote =>
    subst quote
    decide
  · next other =>
    have kept : ∀ b ∈ String.utf8EncodeChar c, rawEscape b = [b] := fun b member =>
      if_neg fun quote : b = byte '"' =>
        other (Utf8.eq_of_mem_encodeChar (by decide) (quote ▸ member))
    rw [List.flatMap_congr kept]
    simp [Utf8.encode, Char.toString]

/-- A character of quoted text reads back from the way it is written. -/
theorem quoted_escaped (c : Char) {rest : Bytes} (more : rest ≠ []) :
    quoted false (Utf8.encode (Layout.escaped c) ++ rest) =
      (quoted false rest).behind (String.utf8EncodeChar c)
        (Utf8.encode (Layout.escaped c)).length := by
  -- A mark behind a backslash is read for the byte that it means.
  have cooked : ∀ {mark value : UInt8}, mark ≠ byte '"' → escaped? mark = some value →
      quoted false ([byte '\\', mark] ++ rest) = (quoted false rest).behind [value] 2 := by
    intro mark value other found
    rw [List.cons_append, List.singleton_append, quoted, if_neg (by decide), if_neg (by decide),
      if_pos rfl, if_neg other, if_neg (by decide), found]
  unfold Layout.escaped
  split
  · exact quoted_hidden false rest
  · exact cooked (by decide) rfl
  · exact cooked (by decide) rfl
  · exact cooked (by decide) rfl
  · exact cooked (by decide) rfl
  · next quote backslash line _ _ =>
    -- Any other character is written as it is, and none of its bytes is special.
    have same : Utf8.encode c.toString = String.utf8EncodeChar c := by
      simp [Utf8.encode, Char.toString]
    rw [same]
    refine quoted_plain more fun b member => ⟨?_, ?_, ?_⟩ <;> rintro rfl
    · exact line (Utf8.eq_of_mem_encodeChar (by decide) member)
    · exact quote (Utf8.eq_of_mem_encodeChar (by decide) member)
    · exact backslash (Utf8.eq_of_mem_encodeChar (by decide) member)

/-- Text reads back from the way it is written in quotes. -/
theorem quoted_text (chars : List Char) (rest : Bytes) :
    quoted false (chars.flatMap (fun c => Utf8.encode (Layout.escaped c)) ++ byte '"' :: rest) =
      .closed (chars.flatMap String.utf8EncodeChar)
        ((chars.flatMap fun c => Utf8.encode (Layout.escaped c)).length + 1) := by
  -- Character by character; each brings the bytes that it stands for.
  induction chars with
  | nil => exact quoted_close false rest
  | cons c more ih =>
    rw [List.flatMap_cons, List.append_assoc, quoted_escaped c (by simp), ih]
    simp [Quoted.behind]
    omega

end Lexeme

end ArgSchema
