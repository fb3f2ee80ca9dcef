import ArgSchema.Proofs.Text.Encoding

/-! Blurred bytes: lossy reading changes bytes from 128 on only, and never removes or joins runs. -/

namespace ArgSchema

namespace Utf8

/-- Bytes that agree below 128, with runs of other bytes replaced by runs of other bytes. -/
inductive Blurs : Bytes → Bytes → Prop
  /-- Nothing. -/
  | none : Blurs [] []
  /-- A byte below 128 is kept. -/
  | ascii {b x y} : b < 0x80 → Blurs x y → Blurs (b :: x) (b :: y)
  /-- Some bytes from 128 on stand for some others. -/
  | high {u v x y} : u ≠ [] → v ≠ [] → (∀ b ∈ u, 0x80 ≤ b) → (∀ b ∈ v, 0x80 ≤ b) → Blurs x y →
      Blurs (u ++ x) (v ++ y)

/-- Bytes stand for themselves. -/
theorem Blurs.refl (bytes : Bytes) : Blurs bytes bytes := by
  -- By induction on the bytes, of which each high one is blurred to itself.
  induction bytes with
  | nil => exact .none
  | cons b rest ih =>
    by_cases small : b < 0x80
    · exact .ascii small ih
    · have high : ∀ c ∈ [b], 0x80 ≤ c := by simpa using UInt8.not_lt.mp small
      exact .high (u := [b]) (v := [b]) (by simp) (by simp) high high ih

/-- Reading the bytes behind a first one takes bytes from 128 on, and makes no character below. -/
def TakesHigh (following value : Nat) (low high : UInt8) : Prop :=
  ∀ bytes, ∃ used, bytes = used ++ (readFollowing following value low high bytes).2 ∧
    (∀ b ∈ used, 0x80 ≤ b) ∧
    ∀ c, (readFollowing following value low high bytes).1 = some c → 128 ≤ c.toNat

/-- A number in the range of characters is the code of its character. -/
theorem toNat_ofNat_of_valid {n : Nat} (valid : n.isValidChar) : (Char.ofNat n).toNat = n := by
  rw [Char.ofNat, dif_pos valid]
  rfl

/-- A number that is the code of a character from 128 on. -/
def IsHighCode (n : Nat) : Prop := 128 ≤ n ∧ (n < 0xD800 ∨ 0xDFFF < n ∧ n < 0x110000)

/-- Where nothing follows, the character is the one that was announced. -/
theorem takesHigh_zero {value : Nat} {low high : UInt8} (code : IsHighCode value) :
    TakesHigh 0 value low high := by
  -- There is no byte to follow, so the code is complete.
  intro bytes
  refine ⟨[], rfl, by simp, fun c same => ?_⟩
  cases same
  rw [toNat_ofNat_of_valid code.2]
  exact code.1

/-- Where a byte follows, it is taken if it fits, and then the rest decides. -/
theorem takesHigh_succ {following value : Nat} {low high : UInt8} (least : 0x80 ≤ low.toNat)
    (rest : ∀ n, low.toNat ≤ n → n ≤ high.toNat →
      TakesHigh following (value * 64 + (n - 0x80)) 0x80 0xBF) :
    TakesHigh (following + 1) value low high := by
  intro bytes
  cases bytes with
  -- Without a byte nothing is taken, and there is no character.
  | nil => exact ⟨[], rfl, by simp, by rintro _ ⟨⟩⟩
  | cons b more =>
    rw [readFollowing]
    split
    · next fits =>
      have above := UInt8.le_iff_toNat_le.mp fits.1
      obtain ⟨used, same, large, character⟩ := rest b.toNat above
        (UInt8.le_iff_toNat_le.mp fits.2) more
      -- The byte is taken with those behind it, and it is at least the least that fits.
      refine ⟨b :: used, by rw [List.cons_append, ← same], fun other member => ?_, character⟩
      rcases List.mem_cons.mp member with rfl | member
      · exact UInt8.le_iff_toNat_le.mpr (Nat.le_trans least above)
      · exact large other member
    · -- A byte that does not fit is left where it is.
      exact ⟨[], rfl, by simp, by rintro _ ⟨⟩⟩

/-- Where one byte follows, all characters that it can make must be in range. -/
theorem takesHigh_one {value : Nat} {low high : UInt8} (least : 0x80 ≤ low.toNat)
    (range : ∀ a, low.toNat ≤ a → a ≤ high.toNat → IsHighCode (value * 64 + (a - 0x80))) :
    TakesHigh 1 value low high :=
  takesHigh_succ least fun a above below => takesHigh_zero (range a above below)

/-- Where two bytes follow, all characters that they can make must be in range. -/
theorem takesHigh_two {value : Nat} {low high : UInt8} (least : 0x80 ≤ low.toNat)
    (range : ∀ a, low.toNat ≤ a → a ≤ high.toNat → ∀ b, 0x80 ≤ b → b ≤ 0xBF →
      IsHighCode ((value * 64 + (a - 0x80)) * 64 + (b - 0x80))) :
    TakesHigh 2 value low high :=
  takesHigh_succ least fun a above below => takesHigh_one (by decide) (range a above below)

/-- Where three bytes follow, all characters that they can make must be in range. -/
theorem takesHigh_three {value : Nat} {low high : UInt8} (least : 0x80 ≤ low.toNat)
    (range : ∀ a, low.toNat ≤ a → a ≤ high.toNat → ∀ b, 0x80 ≤ b → b ≤ 0xBF →
      ∀ c, 0x80 ≤ c → c ≤ 0xBF →
        IsHighCode (((value * 64 + (a - 0x80)) * 64 + (b - 0x80)) * 64 + (c - 0x80))) :
    TakesHigh 3 value low high :=
  takesHigh_succ least fun a above below => takesHigh_two (by decide) (range a above below)

/-- What a first byte from 128 on announces takes such bytes, and makes no character below. -/
theorem takesHigh_lead {b : UInt8} (large : 128 ≤ b.toNat) {lead : Lead}
    (announced : lead? b = some lead) : TakesHigh lead.following lead.value lead.low lead.high := by
  rw [lead?_of_toNat rfl] at announced
  generalize b.toNat = n at *
  -- One case for each row of the table of first bytes.
  rw [if_neg (by omega)] at announced
  by_cases none : n < 0xC2
  · rw [if_pos none] at announced
    cases announced
  rw [if_neg none] at announced
  -- Two bytes.
  by_cases two : n < 0xE0
  · rw [if_pos two] at announced
    rw [← Option.some.inj announced]
    exact takesHigh_one (by simp) (by simp [IsHighCode]; omega)
  rw [if_neg two] at announced
  -- Three bytes, the first and the middle row with narrower bounds.
  by_cases short : n = 0xE0
  · rw [if_pos short] at announced
    rw [← Option.some.inj announced]
    exact takesHigh_two (by simp) (by simp [IsHighCode]; omega)
  rw [if_neg short] at announced
  by_cases surrogate : n = 0xED
  · rw [if_pos surrogate] at announced
    rw [← Option.some.inj announced]
    exact takesHigh_two (by simp) (by simp [IsHighCode]; omega)
  rw [if_neg surrogate] at announced
  by_cases three : n < 0xF0
  · rw [if_pos three] at announced
    rw [← Option.some.inj announced]
    exact takesHigh_two (by simp) (by simp [IsHighCode]; omega)
  rw [if_neg three] at announced
  -- Four bytes, with narrower bounds in the first and last row.
  by_cases long : n = 0xF0
  · rw [if_pos long] at announced
    rw [← Option.some.inj announced]
    exact takesHigh_three (by simp) (by simp [IsHighCode]; omega)
  rw [if_neg long] at announced
  by_cases four : n < 0xF4
  · rw [if_pos four] at announced
    rw [← Option.some.inj announced]
    exact takesHigh_three (by simp) (by simp [IsHighCode]; omega)
  rw [if_neg four] at announced
  by_cases last : n = 0xF4
  · rw [if_pos last] at announced
    rw [← Option.some.inj announced]
    exact takesHigh_three (by simp) (by simp [IsHighCode]; omega)
  · rw [if_neg last] at announced
    cases announced

/-- Reading from a byte from 128 on takes such bytes, and makes no character below. -/
theorem readChar_high {b : UInt8} (large : 0x80 ≤ b) (rest : Bytes) :
    ∃ used, rest = used ++ (readChar b rest).2 ∧ (∀ x ∈ used, 0x80 ≤ x) ∧
      ∀ c, (readChar b rest).1 = some c → 128 ≤ c.toNat := by
  have above : 128 ≤ b.toNat := UInt8.le_iff_toNat_le.mp large
  unfold readChar
  cases announced : lead? b with
  -- A byte that announces nothing is taken alone.
  | none => exact ⟨[], rfl, by simp, by rintro _ ⟨⟩⟩
  | some lead => exact takesHigh_lead above announced rest

/-- Lossy reading blurs bytes. -/
theorem blurs_decodeLossy (bytes : Bytes) : Blurs bytes (encode (decodeLossy bytes)) := by
  unfold decodeLossy
  rw [encode_ofList]
  fun_induction decodeParts bytes with
  | case1 => exact .none
  | case2 b rest ih =>
    simp only [List.map_cons, List.flatMap_cons]
    -- A byte of its own is kept, and any other run of bytes becomes one of high bytes.
    by_cases small : b < 0x80
    · -- A byte below 128 is a character of its own.
      have read : readChar b rest = (some (Char.ofNat b.toNat), rest) := by
        simp [readChar, lead?, small, readFollowing]
      have code : b.toNat < 128 := UInt8.lt_iff_toNat_lt.mp small
      have char := toNat_ofNat_of_valid (.inl (by omega) : b.toNat.isValidChar)
      rw [read] at ih ⊢
      rw [Option.getD_some, encodeChar_ascii (by omega), char, UInt8.ofNat_toNat]
      exact .ascii small ih
    · have large : 0x80 ≤ b := UInt8.not_lt.mp small
      obtain ⟨used, same, taken, character⟩ := readChar_high large rest
      -- What cannot be read becomes the replacement character, which is above as well.
      have char : 128 ≤ ((readChar b rest).1.getD '\uFFFD').toNat := by
        cases found : (readChar b rest).1 with
        | none => decide
        | some c => exact character c found
      obtain ⟨some', high⟩ := encodeChar_high char
      have whole : b :: rest = (b :: used) ++ (readChar b rest).2 := by
        rw [List.cons_append, ← same]
      rw [whole]
      refine .high (by simp) some' (fun x member => ?_) high ih
      rcases List.mem_cons.mp member with rfl | member
      · exact large
      · exact taken x member

/-- Blurring keeps properties of bytes that all bytes from 128 on have. -/
theorem Blurs.forall {P : UInt8 → Prop} (high : ∀ b, 0x80 ≤ b → P b) {x y : Bytes}
    (blurs : Blurs x y) (all : ∀ b ∈ x, P b) : ∀ b ∈ y, P b := by
  induction blurs with
  | none => exact all
  -- The bytes below 128 are the same on both sides.
  | ascii small _ ih =>
    simp only [List.mem_cons, forall_eq_or_imp] at all ⊢
    exact ⟨all.1, ih all.2⟩
  | high _ _ _ large _ ih =>
    intro b member
    rcases List.mem_append.mp member with member | member
    · exact high b (large b member)
    · exact ih (fun other inside => all other (List.mem_append_right _ inside)) b member

/-- Blurring keeps the number of bytes that are told by a test that no byte from 128 on passes. -/
theorem Blurs.countP_eq {P : UInt8 → Bool} (low : ∀ b, 0x80 ≤ b → P b = false) {x y : Bytes}
    (blurs : Blurs x y) : x.countP P = y.countP P := by
  have none : ∀ {bytes : Bytes}, (∀ b ∈ bytes, 0x80 ≤ b) → bytes.countP P = 0 := fun high =>
    List.countP_eq_zero.mpr fun b member => by simp [low b (high b member)]
  induction blurs with
  | none => rfl
  | ascii _ _ ih => rw [List.countP_cons, List.countP_cons, ih]
  -- None of the bytes that are exchanged counts.
  | high _ _ large large' _ ih =>
    rw [List.countP_append, List.countP_append, none large, none large', ih]

/-- Blurring makes nothing of nothing only. -/
theorem Blurs.eq_nil_iff {x y : Bytes} (blurs : Blurs x y) : x = [] ↔ y = [] := by
  -- A character has at least one byte on either side.
  cases blurs with
  | none => rfl
  | ascii => simp
  | high some some' => simp [some, some']

end Utf8

end ArgSchema
