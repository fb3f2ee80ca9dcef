import ArgSchema.Proofs.Lexer.Spelling
import ArgSchema.SymbolTable.Basic

/-! Keys of names that can be written: each is the name itself, save for the word of the schema. -/

namespace ArgSchema

/-- A byte below 128 is the code of its character. -/
theorem toNat_ofNat_of_small {b : UInt8} (small : b < 0x80) : (Char.ofNat b.toNat).toNat = b.toNat := by
  have bound : b.toNat < 128 := UInt8.lt_iff_toNat_lt.mp small
  have valid : b.toNat.isValidChar := .inl (by omega)
  exact Utf8.toNat_ofNat_of_valid valid

/-- The character of a byte below 128 differs from that of another byte. -/
theorem char_ne_of_ne {b : UInt8} (small : b < 0x80) {c : Char} (other : b ≠ byte c)
    (plain : c.toNat < 128) : Char.ofNat b.toNat ≠ c := by
  -- Below 128 a byte is the code of its character, so different bytes are different characters.
  rintro rfl
  refine other (UInt8.toNat_inj.mp ?_)
  have code := toNat_ofNat_of_small small
  simp only [byte, Char.toUInt8, UInt32.toNat_toUInt8]
  change b.toNat = (Char.ofNat b.toNat).toNat % 256
  omega

namespace IsName

variable {head : UInt8 → Bool} {name : String}

/-- A name does not start with a character that none of its first bytes is. -/
theorem toList (named : IsName head name) (bytes : ∀ b, head b = true → b < 0x80) :
    ∃ first rest, name.toList = Char.ofNat first.toNat :: rest ∧ head first = true ∧ first < 0x80 := by
  obtain ⟨first, rest, rfl, start, _⟩ := named
  exact ⟨first, rest.map fun b => Char.ofNat b.toNat, by simp [Utf8.ascii], start, bytes first start⟩

/-- A name is not the key of the schema, which starts with a bracket. -/
theorem ne_metaKey (named : IsName head name) (bytes : ∀ b, head b = true → isNameByte b = true) :
    name ≠ "[meta]" := by
  rintro rfl
  obtain ⟨first, rest, same, start, small⟩ :=
    named.toList fun b start => small_of_isNameByte (bytes b start)
  have letters : "[meta]".toList = ['[', 'm', 'e', 't', 'a', ']'] := rfl
  -- The key starts with a bracket, which is no byte of a name.
  rw [letters, List.cons.injEq] at same
  refine char_ne_of_ne small ?_ (by decide) same.1.symm
  rintro rfl
  exact absurd (bytes _ start) (by decide)

end IsName

/-- A word is bare. -/
theorem bareName_of_isWord {name : String} (word : IsWord name) :
    bareName name.toList = name.toList := by
  obtain ⟨first, rest, same, start, small⟩ := IsName.toList word fun b start =>
    small_of_isNameByte (isNameByte_of_isNameStart start)
  rw [same]
  have apart : ∀ c : Char, c.toNat < 128 → isNameStart (byte c) = false →
      Char.ofNat first.toNat ≠ c := by
    intro c plain other
    refine char_ne_of_ne small ?_ plain
    rintro rfl
    rw [other] at start
    cases start
  -- None of the marks that are left out can start a word.
  have dash := apart '-' (by decide) (by decide)
  have dot := apart '.' (by decide) (by decide)
  have angle := apart '<' (by decide) (by decide)
  unfold bareName
  split <;> simp_all

/-- The key of the word for the schema. -/
theorem rawId_meta : rawId "meta" = "[meta]" := rfl

/-- The key of any other name is the name without its marks. -/
theorem rawId_eq {id : String} (other : id ≠ "meta") : rawId id = String.ofList (bareName id.toList) := by
  rw [rawId, if_neg other]

/-- The key of a type is its name. -/
theorem rawId_type (name : String) : rawId (Category.type.external name) = name := by
  -- The brackets are taken away, and a name in brackets is not the word for the schema.
  have letters : (Category.type.external name).toList = '<' :: (name.toList ++ ['>']) := by
    simp [Category.external]
  rw [rawId_eq, letters]
  · simp [bareName]
  · intro same
    have heads := congrArg (fun id => id.toList.head?) same
    simp [letters] at heads

/-- A name that can be written has itself as its key. -/
theorem rawId_external {category : Category} {name : String} (named : category.Names name)
    (other : category ≠ .metadata) : rawId (category.external name) = name := by
  -- Only the word for the schema is not its own key, and what starts with a mark is not that word.
  have differs : ∀ (mark : Char) (rest : List Char) {id : String}, mark ≠ 'm' →
      id.toList = mark :: rest → id ≠ "meta" := by
    rintro mark rest id apart letters rfl
    simp only [String.toList] at letters
    exact apart (List.cons.inj letters).1.symm
  cases category with
  | metadata => exact absurd rfl other
  | type => exact rawId_type name
  | identifier =>
    obtain ⟨word, schema⟩ := named
    rw [Category.external, rawId_eq schema, bareName_of_isWord word]
    simp
  -- A dot is stripped,
  | property =>
    have letters : (Category.property.external name).toList = '.' :: name.toList := by
      simp [Category.external]
    rw [rawId_eq (differs _ _ (by decide) letters), letters]
    simp [bareName]
  -- and so are two dashes.
  | longlabel =>
    have letters : (Category.longlabel.external name).toList = '-' :: '-' :: name.toList := by
      simp [Category.external]
    rw [rawId_eq (differs _ _ (by decide) letters), letters]
    simp [bareName]
  | shortlabel =>
    obtain ⟨b, rfl, short⟩ := named
    have letters : (Category.shortlabel.external (Utf8.ascii [b])).toList =
        ['-', Char.ofNat b.toNat] := by
      simp [Category.external, Utf8.ascii]
    -- The byte of a short label is no dash, so one dash is taken off.
    have dash : Char.ofNat b.toNat ≠ '-' := by
      refine char_ne_of_ne (small_of_isShortlabel short) ?_ (by decide)
      rintro rfl
      exact absurd short (by decide)
    rw [rawId_eq (differs _ _ (by decide) letters), letters]
    have bare : bareName ['-', Char.ofNat b.toNat] = [Char.ofNat b.toNat] := by
      unfold bareName
      split <;> simp_all
    rw [bare, Utf8.ascii]
    rfl

/-- Only a type can have the name that is the key of the schema. -/
theorem category_of_metaKey {category : Category} {name : String} (named : category.Names name)
    (other : category ≠ .metadata) :
    rawId (category.external name) = "[meta]" ↔ category = .type ∧ name = "[meta]" := by
  rw [rawId_external named other]
  refine ⟨fun key => ⟨?_, key⟩, And.right⟩
  subst key
  cases category with
  | metadata => exact absurd rfl other
  | type => rfl
  | identifier =>
    exact absurd rfl (IsName.ne_metaKey named.1 fun b => isNameByte_of_isNameStart)
  | property => exact absurd rfl (IsName.ne_metaKey named fun b => isNameByte_of_isNameStart)
  | longlabel =>
    exact absurd rfl (IsName.ne_metaKey named fun b => isNameByte_of_isLonglabelStart)
  | shortlabel =>
    obtain ⟨b, same, _⟩ := named
    -- A short label has one byte, and the key has more.
    have lengths := congrArg String.length same
    rw [show (Utf8.ascii [b]).length = 1 by simp [Utf8.ascii]] at lengths
    exact absurd lengths (by decide)

/-- A keyword has the key of a bare word only if it is that word, with or without a dot. -/
theorem eq_of_rawId_keyword {mark : Category} {name word : String} (bare : IsWord word)
    (named : mark.Names name) (keyword : mark ∈ [Category.identifier, .metadata, .property])
    (same : rawId (mark.external name) = rawId word) : name = word := by
  have key : IsWord word → word ≠ "meta" → rawId word = word := fun bare other =>
    @rawId_external .identifier word ⟨bare, other⟩ (by simp)
  by_cases schema : mark = .metadata
  · -- Only the word for the schema has the key of the schema.
    subst schema
    have meta' : name = "meta" := named
    subst meta'
    refine Decidable.byContradiction fun other => ?_
    rw [key bare (Ne.symm other), show Category.metadata.external "meta" = "meta" from rfl,
      rawId_meta] at same
    exact IsName.ne_metaKey bare (fun b => isNameByte_of_isNameStart) same.symm
  -- A word that is not the schema's is its own key, so equal keys are equal words.
  · by_cases word' : word = "meta"
    · rw [word', rawId_meta, category_of_metaKey named schema] at same
      rw [same.1] at keyword
      simp at keyword
    · rw [rawId_external named schema, key bare word'] at same
      exact same

/-- A keyword has the key of a bare word exactly if it is that word, and stands without a dot if it is
the word for the schema. -/
theorem rawId_keyword_iff {mark : Category} {name word : String} (bare : IsWord word)
    (named : mark.Names name) (keyword : mark ∈ [Category.identifier, .metadata, .property]) :
    rawId (mark.external name) = rawId word ↔ name = word ∧ (word = "meta" → mark ≠ .property) := by
  -- The one clash is that of a dotted word for the schema, which has the bare word for its key.
  constructor
  · intro same
    refine ⟨eq_of_rawId_keyword bare named keyword same, ?_⟩
    rintro rfl rfl
    rw [rawId_external named (by simp), rawId_meta] at same
    exact IsName.ne_metaKey named (fun b => isNameByte_of_isNameStart) same
  · rintro ⟨rfl, dotless⟩
    by_cases schema : name = "meta"
    · -- Without a dot the word for the schema is never the name of an argument.
      subst schema
      have plain := dotless rfl
      simp only [List.mem_cons, List.not_mem_nil, or_false, plain] at keyword
      rcases keyword with rfl | rfl
      · exact absurd rfl named.2
      · rfl
    -- Any other name is its own key on both sides.
    · have other : mark ≠ .metadata := fun same => schema (by rw [same] at named; exact named)
      have self : Category.identifier.Names name := ⟨bare, schema⟩
      rw [rawId_external named other]
      exact (rawId_external self (by simp)).symm

end ArgSchema
