import ArgSchema.Proofs.Lexer.Sealed
import ArgSchema.Proofs.Text.Boundaries
import Mathlib.Data.List.Forall2

/-! Lossless reading: a text without errors is gaps and the texts of its tokens, which can be joined anew. -/

namespace ArgSchema

open Utf8 (encode)

/-- A gap and the text of the token behind it. -/
structure Spaced where
  /-- What stands in front of the token. -/
  gap : String
  /-- The text of the token. -/
  slice : String
deriving DecidableEq, Repr

/-- The text of pieces one behind the other. -/
def Spaced.join (pieces : List Spaced) : String :=
  String.join (pieces.map fun piece => piece.gap ++ piece.slice)

/-- The first piece stands in front of the others. -/
theorem Spaced.join_cons (piece : Spaced) (pieces : List Spaced) :
    join (piece :: pieces) = piece.gap ++ (piece.slice ++ join pieces) := by
  simp [join, String.append_assoc]

/-- Behind some bytes the spans of tokens denote the slices of pieces, with gaps in front of them. -/
inductive Laid : Bytes → List Spaced → List Token → Prop
  /-- Nothing is left. -/
  | none {before} : Laid before [] []
  /-- A gap, and the bytes that the span of the next token denotes. -/
  | piece {before gap slice token pieces tokens} : Gap (encode gap) →
      token.span.Denotes (before ++ encode gap) (encode slice) →
      Laid (before ++ encode gap ++ encode slice) pieces tokens →
      Laid before (⟨gap, slice⟩ :: pieces) (token :: tokens)

/-- Texts that are sealed as certain tokens. -/
abbrev SealedAs : List String → List (TokenKind × String) → Prop :=
  List.Forall₂ fun slice content => Sealed (encode slice) content.1 content.2

/-- A text is read as certain tokens, and no error is reported. -/
def Yields (source : String) (contents : List (TokenKind × String)) : Prop :=
  ∃ reports tokens, tokenize source = (reports, .ok tokens) ∧
    (∀ report ∈ reports, ¬report.IsError) ∧ tokens.map Token.content = contents

/-- What may stand in front of a text: nothing, or a byte order mark. -/
def IsMark (mark : String) : Prop := mark = "" ∨ mark = "\uFEFF"

namespace Laid

variable {before : Bytes} {pieces : List Spaced} {tokens : List Token}

/-- All spans denote bytes behind those in front. -/
theorem denotes (laid : Laid before pieces tokens) :
    ∀ token ∈ tokens, ∃ more slice, token.span.Denotes (before ++ more) slice := by
  induction laid with
  | none => simp
  | piece _ first _ ih =>
    -- The first span stands behind the gap, and those behind it still farther back.
    intro token member
    rcases List.mem_cons.mp member with rfl | member
    · exact ⟨_, _, first⟩
    · obtain ⟨more, slice, later⟩ := ih token member
      rw [List.append_assoc, List.append_assoc] at later
      exact ⟨_, slice, later⟩

/-- Each span ends in front of those behind it. -/
theorem increasing (laid : Laid before pieces tokens) :
    tokens.Pairwise fun first second => first.span.stop.before second.span.start := by
  -- By induction on the laid pieces: each later token stands behind the first.
  induction laid with
  | none => exact .nil
  | piece _ first rest ih =>
    refine .cons (fun token member => ?_) ih
    obtain ⟨more, slice, later⟩ := rest.denotes token member
    exact first.stop_before later

end Laid

namespace Cursor

variable {cursor : Cursor} {breadcrumb : Breadcrumb} {reports : List Diagnostic}
  {tokens : List Token}

/-- What is read to its end starts with its end, or with a token behind which it is read on. -/
theorem cases_of_tokens (read : cursor.tokens breadcrumb = (reports, .ok tokens)) :
    ∃ token, (cursor.nextToken breadcrumb).result = .ok token ∧
      ((token.isEnd = true ∧ tokens = [] ∧ reports = (cursor.nextToken breadcrumb).reports) ∨
        ∃ more rest, token.isEnd = false ∧ tokens = token :: rest ∧
          (cursor.nextToken breadcrumb).next.tokens breadcrumb = (more, .ok rest) ∧
          reports = (cursor.nextToken breadcrumb).reports ++ more) := by
  rw [Cursor.tokens] at read
  split at read
  · cases read
  · next token taken =>
    refine ⟨token, taken, ?_⟩
    -- The first token is the end, or more is read behind it.
    split at read
    · next ended =>
      cases read
      exact .inl ⟨ended, rfl, rfl⟩
    · next inside =>
      cases below : (cursor.nextToken breadcrumb).next.tokens breadcrumb with
      | mk more result =>
        rw [below] at read
        cases result with
        | error failure => cases read
        | ok rest =>
          cases read
          exact .inr ⟨more, rest, by simpa using inside, rfl, rfl, rfl⟩

/-- A text without errors starts with a byte below 128. -/
theorem small_of_tokens (read : cursor.tokens breadcrumb = (reports, .ok tokens))
    (clean : ∀ report ∈ reports, ¬report.IsError) : ∀ b ∈ cursor.rest.head?, b < 0x80 := by
  obtain ⟨token, taken, ends⟩ := cases_of_tokens read
  -- The reports about the first token are among all of them.
  have first : ∀ report ∈ (cursor.nextToken breadcrumb).reports, ¬report.IsError := by
    intro report member
    rcases ends with ⟨-, -, rfl⟩ | ⟨more, rest, -, -, -, rfl⟩
    · exact clean report member
    · exact clean report (List.mem_append_left _ member)
  rcases cases_of_clean taken first with ⟨-, trail⟩ | ⟨gap, slice, after, found, skipped, whole, -⟩
  · exact trail.parted.small
  · rw [found]
    -- Without a gap the text starts with the token, and else with the gap.
    by_cases some : gap = []
    · obtain ⟨byte, body, -, rfl, -, small, -⟩ := whole.reads
      rw [some]
      rintro b ⟨⟩
      exact small
    · exact (skipped.parted _ some).small

/-- A text that is read without errors is pieces that lay out its tokens, and the end. -/
theorem exists_pieces {text : String} {before : Bytes}
    (read : cursor.tokens breadcrumb = (reports, .ok tokens))
    (clean : ∀ report ∈ reports, ¬report.IsError) (bytes : cursor.rest = encode text)
    (stands : cursor.Stands before) :
    ∃ pieces trail, text = Spaced.join pieces ++ trail ∧ Trail (encode trail) ∧
      Laid before pieces tokens ∧
      SealedAs (pieces.map Spaced.slice) (tokens.map Token.content) := by
  -- By induction on the tokens, with the text that is left for each.
  induction tokens generalizing cursor before text reports with
  | nil =>
    -- Without tokens there is nothing but what follows the last one.
    obtain ⟨token, taken, ⟨ended, -, rfl⟩ | ⟨_, _, -, other, -⟩⟩ := cases_of_tokens read
    · rcases cases_of_clean taken clean with ⟨-, trail⟩ | ⟨gap, slice, after, -, -, whole, -⟩
      · exact ⟨[], text, by simp [Spaced.join], bytes ▸ trail, .none, .nil⟩
      · exact absurd (by simpa [Token.isEnd] using ended) whole.inside
    · cases other
  | cons token tokens ih =>
    obtain ⟨found, taken, ⟨-, other, -⟩ | ⟨more, rest, inside, same, below, rfl⟩⟩ :=
      cases_of_tokens read
    · cases other
    obtain ⟨rfl, rfl⟩ := List.cons.inj same
    -- Neither this token nor a later one was reported as an error.
    have first := fun report member => clean report (List.mem_append_left more member)
    have later := fun report member => clean report (List.mem_append_right _ member)
    rcases cases_of_clean taken first with ⟨ended, -⟩ | ⟨gap, slice, after, found, skipped, whole,
      next, span⟩
    · rw [inside] at ended
      cases ended
    · -- Both the token and what follows it start with a byte below 128, so no character is cut.
      have at_token : (cursor.advance gap.length).rest = slice ++ after := by
        rw [rest_advance, found, List.drop_left]
      have left : (cursor.nextToken breadcrumb).next.rest = after := by
        rw [next, rest_advance, at_token, List.drop_left]
      have small := small_of_tokens below later
      rw [left] at small
      have small' : ∀ b ∈ (slice ++ after).head?, b < 0x80 := by
        obtain ⟨byte, body, -, rfl, -, low, -⟩ := whole.reads
        rintro b ⟨⟩
        exact low
      rw [found] at bytes
      -- The text splits into the gap, the slice and the rest as its bytes do.
      obtain ⟨gap, back, rfl, rfl, split⟩ := Utf8.exists_of_encode_eq_append bytes.symm small'
      obtain ⟨slice, after, rfl, rfl, rfl⟩ := Utf8.exists_of_encode_eq_append split small
      have stands' := (stands.advance found).advance at_token
      rw [← next] at stands'
      -- The pieces of the rest come from behind this token, where the cursor stands then.
      obtain ⟨pieces, trail, rfl, ends, laid, rest⟩ := ih below later left stands'
      refine ⟨⟨gap, slice⟩ :: pieces, trail, ?_, ends, .piece skipped ?_ laid, .cons whole rest⟩
      · simp [Spaced.join_cons, String.append_assoc]
      · rw [span]
        exact (stands.advance found).denotes at_token whole.ne_nil whole.solid breadcrumb

/-- Sealed slices are read as their tokens when gaps stand between them. -/
theorem tokens_of_pieces {pieces : List Spaced} {contents : List (TokenKind × String)}
    {trail : String} (whole : SealedAs (pieces.map Spaced.slice) contents)
    (gaps : ∀ piece ∈ pieces, Gap (encode piece.gap)) (some : ∀ piece ∈ pieces.tail, piece.gap ≠ "")
    (ends : Trail (encode trail)) (bytes : cursor.rest = encode (Spaced.join pieces ++ trail)) :
    ∃ reports tokens, cursor.tokens breadcrumb = (reports, .ok tokens) ∧
      (∀ report ∈ reports, ¬report.IsError) ∧ tokens.map Token.content = contents := by
  -- By induction on the pieces: each is read alone, and a gap does not change what is read.
  -- By induction on the pieces: a gap is skipped, and the slice behind it is read as its token.
  induction pieces generalizing cursor contents with
  | nil =>
    cases whole
    have last : Trail cursor.rest := by simpa [bytes, Spaced.join] using ends
    obtain ⟨none, span, taken⟩ := nextToken_trail last breadcrumb
    refine ⟨_, [], tokens_of_end taken rfl, ?_, rfl⟩
    simp [none]
  | cons piece pieces ih =>
    obtain - | ⟨first, rest⟩ := whole
    have found : cursor.rest = encode piece.gap ++
        (encode piece.slice ++ encode (Spaced.join pieces ++ trail)) := by
      simp [bytes, Spaced.join_cons, Utf8.encode_append]
    have behind : (cursor.advance (encode piece.gap).length).rest =
        encode piece.slice ++ encode (Spaced.join pieces ++ trail) := by
      rw [rest_advance, found, List.drop_left]
    -- What follows the slice is the next gap or the end of the text.
    have parted : Parted (encode (Spaced.join pieces ++ trail)) := by
      cases pieces with
      | nil => simpa [Spaced.join] using ends.parted
      | cons next pieces =>
        rw [Spaced.join_cons, String.append_assoc, Utf8.encode_append]
        exact (gaps next (by simp)).parted _ fun none =>
          some next (by simp) (Utf8.encode_eq_nil.mp none)
    -- The slice gives its token, and the gap in front of it does not matter.
    obtain ⟨clean, ⟨span, taken⟩, next⟩ := first.nextToken behind parted breadcrumb
    rw [← nextToken_gap (gaps piece (by simp)) found] at clean taken next
    have left : (cursor.nextToken breadcrumb).next.rest = encode (Spaced.join pieces ++ trail) := by
      rw [next, rest_advance, behind, List.drop_left]
    obtain ⟨more, tokens, below, clean', same⟩ :=
      ih rest (fun other member => gaps other (by simp [member]))
        (fun other member => some other (List.mem_of_mem_tail member)) left
    have read := tokens_of_token taken (by simpa [Token.isEnd] using first.inside)
    rw [below] at read
    refine ⟨_, _, read, ?_, ?_⟩
    · intro report member
      exact (List.mem_append.mp member).elim (clean report) (clean' report)
    · rw [List.map_cons, same]
      rfl

end Cursor

section Marks

variable {mark text : String}

/-- Behind a mark a text is read from its start, unless it starts with a byte from 128 on. -/
theorem Cursor.rest_ofSource (marked : IsMark mark) (small : ∀ b ∈ (encode text).head?, b < 0x80) :
    (ofSource (encode (mark ++ text))).rest = encode text := by
  -- A byte order mark is dropped from the source, and only if it is there.
  rcases marked with rfl | rfl
  · -- Text that starts like the mark would have a large first byte.
    rw [String.empty_append, ofSource, if_neg]
    intro test
    obtain ⟨rest, same⟩ := List.isPrefixOf_iff_prefix.mp test
    exact absurd (small 0xEF (by rw [← same]; rfl)) (by decide)
  · rw [Utf8.encode_append]
    rfl

/-- A source is a mark and a text that is read from its start. -/
theorem Cursor.exists_mark (source : String) : ∃ mark text, IsMark mark ∧ source = mark ++ text ∧
    (ofSource (encode source)).rest = encode text := by
  unfold ofSource
  split
  · next test =>
    -- The mark is the encoding of a character, so the text behind it is one too.
    obtain ⟨rest, same⟩ := List.isPrefixOf_iff_prefix.mp test
    have bytes : encode source = encode "\uFEFF" ++ rest := same.symm
    obtain ⟨text, rfl, rfl⟩ := Utf8.exists_of_encode_append bytes
    exact ⟨"\uFEFF", text, .inr rfl, rfl, by rw [bytes]; rfl⟩
  · exact ⟨"", source, .inl rfl, (String.empty_append).symm, rfl⟩

end Marks

/-- Sealed slices between gaps, behind a mark or not, are read as their tokens without errors. -/
theorem SealedAs.yields {pieces : List Spaced} {contents : List (TokenKind × String)}
    (whole : SealedAs (pieces.map Spaced.slice) contents) {mark trail : String} (marked : IsMark mark)
    (gaps : ∀ piece ∈ pieces, Gap (encode piece.gap)) (some : ∀ piece ∈ pieces.tail, piece.gap ≠ "")
    (ends : Trail (encode trail)) : Yields (mark ++ (Spaced.join pieces ++ trail)) contents := by
  refine Cursor.tokens_of_pieces whole gaps some ends (Cursor.rest_ofSource marked ?_)
  -- A mark is only taken for itself if the text behind it starts with a small byte.
  cases pieces with
  | nil => simpa [Spaced.join] using ends.parted.small
  | cons piece pieces =>
    obtain - | ⟨first, rest⟩ := whole
    rw [Spaced.join_cons, String.append_assoc, Utf8.encode_append]
    by_cases none : encode piece.gap = []
    · obtain ⟨byte, body, -, same, -, small, -⟩ := first.reads
      rw [none, String.append_assoc, Utf8.encode_append, same]
      rintro b ⟨⟩
      exact small
    · exact ((gaps piece (by simp)).parted _ none).small

/-- Tokens read without errors are the slices that their spans denote, parted by gaps: each slice alone
is read as its token, and with any gaps between them the slices are read as the same tokens. -/
theorem tokenize_lossless {source : String} {reports : List Diagnostic} {tokens : List Token}
    (read : tokenize source = (reports, .ok tokens)) (clean : ∀ report ∈ reports, ¬report.IsError) :
    ∃ mark pieces trail, IsMark mark ∧ source = mark ++ (Spaced.join pieces ++ trail) ∧
      Trail (encode trail) ∧ Laid [] pieces tokens ∧
      (tokens.Pairwise fun first second => first.span.stop.before second.span.start) ∧
      List.Forall₂ (fun piece token => Yields piece.slice [token.content]) pieces tokens ∧
      ∀ mark' pieces' trail', IsMark mark' → pieces'.map Spaced.slice = pieces.map Spaced.slice →
        (∀ piece ∈ pieces', Gap (encode piece.gap)) → (∀ piece ∈ pieces'.tail, piece.gap ≠ "") →
        Trail (encode trail') →
        Yields (mark' ++ (Spaced.join pieces' ++ trail')) (tokens.map Token.content) := by
  -- The source is cut into pieces once, and all else is said of the pieces.
  obtain ⟨mark, text, marked, rfl, bytes⟩ := Cursor.exists_mark source
  obtain ⟨pieces, trail, rfl, ends, laid, whole⟩ :=
    Cursor.exists_pieces read clean bytes (Cursor.stands_ofSource _)
  refine ⟨mark, pieces, trail, marked, rfl, ends, laid, laid.increasing, ?_, ?_⟩
  · -- A slice alone is a single piece without a gap.
    have each := List.forall₂_map_right_iff.mp (List.forall₂_map_left_iff.mp whole)
    refine each.imp fun piece token alone => ?_
    have single : SealedAs ([Spaced.mk "" piece.slice].map Spaced.slice) [token.content] :=
      .cons alone .nil
    have gap : ∀ other ∈ [Spaced.mk "" piece.slice], Gap (encode other.gap) := fun other member =>
      (List.mem_singleton.mp member).symm ▸ Gap.none
    have given := single.yields (.inl rfl) gap (by simp) (show Trail (encode "") from Gap.none.trail)
    simpa [Spaced.join] using given
  -- Pieces with the same slices are read as the same tokens, whatever gaps they have.
  · intro mark' pieces' trail' marked' same gaps some ends'
    exact SealedAs.yields (same ▸ whole) marked' gaps some ends'

/-- A name and a number are two pieces. -/
theorem tokenize_lossless_name_number : ∃ tokens, tokenize "--a 5" = ([], .ok tokens) ∧
    ∃ mark first second trail, IsMark mark ∧
      "--a 5" = mark ++ (Spaced.join [first, second] ++ trail) ∧
      Laid [] [first, second] tokens ∧ Yields first.slice [(.longlabel, "a")] ∧
      Yields second.slice [(.number 5, "5")] := by
  have reads : Reads (Cursor.ofSource (Utf8.encode "--a 5")).rest
      [(.longlabel, "a"), (.number 5, "5")] [] := .of_scan 5 (by decide +kernel)
  obtain ⟨tokens, read, same⟩ := reads.tokens _ (by decide) ["<input>"]
  obtain ⟨mark, pieces, trail, marked, text, -, laid, -, alone, -⟩ :=
    tokenize_lossless (show tokenize "--a 5" = _ from read) (by simp)
  -- The name and the number are the two tokens, so there are two pieces.
  simp only [List.map_eq_cons_iff, List.map_eq_nil_iff] at same
  obtain ⟨a, _, rfl, name, b, _, rfl, number, rfl⟩ := same
  obtain _ | ⟨first, _ | ⟨second, ⟨⟩⟩⟩ := alone
  refine ⟨_, read, mark, _, _, trail, marked, text, laid, ?_, ?_⟩
  · rw [← name]
    exact first
  · rw [← number]
    exact second

end ArgSchema
