import ArgSchema.Proofs.Lexer.Placed
import ArgSchema.Proofs.Parser.Spans
import ArgSchema.Proofs.Preprocessor.Order
import ArgSchema.Proofs.Preprocessor.Origin

/-! Slices: the tokens of a text are bytes of it, each behind those of the tokens in front, and so are the
tokens that a source without includes brings. -/

namespace ArgSchema

namespace Cursor

/-- A token stands in front of what is read behind it. -/
theorem tokens_raw_of_token {breadcrumb : Breadcrumb} {cursor : Cursor} {token : Token}
    (taken : (cursor.nextToken breadcrumb).result = .ok token) (inside : token.isEnd = false) :
    (cursor.raw breadcrumb).tokens =
      token :: ((cursor.nextToken breadcrumb).next.raw breadcrumb).tokens :=
  congrArg RawText.tokens (@Lexer.raw_of_token ⟨cursor, breadcrumb, [], false⟩ token taken inside)

namespace Placed

variable {cursor : Cursor} {text before : Bytes} {breadcrumb : Breadcrumb}

/-- The tokens behind a cursor are bytes that follow, and each ends in front of those behind it. -/
theorem tokens_raw (placed : cursor.Placed text before) :
    (∀ token ∈ (cursor.raw breadcrumb).tokens, ∃ start more slice after,
      Fronts start text breadcrumb token (before ++ more) slice after) ∧
    (cursor.raw breadcrumb).tokens.Pairwise fun first second =>
      first.span.stop.before second.span.start := by
  revert before
  fun_induction Cursor.raw breadcrumb cursor with
  | case1 | case2 => exact fun _ => ⟨by simp [RawText.tokens], .nil⟩
  | case3 cursor token taken inside ih =>
    intro before placed
    obtain ⟨start, more, slice, after, fronts, next⟩ :=
      placed.exists_fronts taken (by simpa using inside)
    obtain ⟨later, increasing⟩ := ih (next ▸ fronts.behind)
    constructor
    · intro other member
      -- The first token stands behind the cursor, and the others behind the first.
      rcases List.mem_cons.mp member with rfl | member
      · exact ⟨start, more, slice, after, fronts⟩
      · obtain ⟨start, further, given⟩ := later other member
        rw [List.append_assoc, List.append_assoc] at given
        exact ⟨start, _, given⟩
    · refine .cons (fun other member => ?_) increasing
      obtain ⟨start, further, slice', after', given⟩ := later other member
      exact fronts.denotes.stop_before given.denotes

end Placed

end Cursor

/-- Tokens that stand one behind the other, none of them reversed. -/
structure Token.Increasing (tokens : List Token) : Prop where
  /-- No token ends in front of its start. -/
  ordered : ∀ token ∈ tokens, token.span.Ordered
  /-- Each token ends in front of those behind it. -/
  apart : tokens.Pairwise fun first second => first.span.stop.before second.span.start

/-- Some of the tokens that stand one behind the other do so as well. -/
theorem Token.Increasing.sublist {tokens part : List Token} (increasing : Increasing tokens)
    (among : part.Sublist tokens) : Increasing part :=
  ⟨fun token member => increasing.ordered token (among.subset member), increasing.apart.sublist among⟩

namespace RawText

variable {raw rest : RawText} {reports : List Diagnostic}

/-- Going on in a text leaves tokens that were there before. -/
theorem Onward.tokens_sublist (onward : raw.Onward rest) : rest.tokens.Sublist raw.tokens := by
  -- Going on drops tokens from the front.
  induction onward with
  | next => exact List.sublist_cons_self ..
  | still | ended => exact .refl _
  | later _ ih => exact ih.cons _

/-- Some of the tokens of a text include no file if none of them all does. -/
theorem IncludeFree.sublist (free : raw.IncludeFree) (among : rest.tokens.Sublist raw.tokens) :
    rest.IncludeFree :=
  fun token member => free token (among.subset member)

end RawText

/-- What stays in a text leaves tokens that were there before. -/
theorem Deed.Stays.tokens_sublist {raw rest : RawText} {opens : List Conditional}
    {names : Finset String} (stays : (Deed.goes opens names rest).Stays raw) :
    rest.tokens.Sublist raw.tokens := by
  -- The text stays as it is, or it goes on with a part of it.
  rcases stays with rfl | onward
  · exact .refl _
  · exact onward.tokens_sublist

/-- The token that is brought, if it is one. -/
def Emitted.token? : Emitted → Option Token
  | .report _ => none
  | .token found => some found

/-- Reports bring no tokens. -/
@[simp] theorem Emitted.filterMap_reports (reports : List Diagnostic) :
    (reports.map Emitted.report).filterMap Emitted.token? = [] := by
  simp [Emitted.token?, Function.comp_def]

/-- A text that includes no file brings some of its tokens, in their order. -/
theorem Splices.tokens {disk : Disk} {place : TextPlace} {opens : List Conditional}
    {scope : Scope} {raw : RawText} {out : List Emitted} {result : Except Failure (Scope × Token)}
    (splices : Splices disk place opens scope raw out result) (free : raw.IncludeFree) :
    (out.filterMap Emitted.token?).Sublist raw.tokens := by
  -- No directive enters a file, so the text goes on behind it.
  have obeyed : ∀ {place : TextPlace} {opens : List Conditional} {scope : Scope} {found : Token}
      {reports more : List Diagnostic} {rest : RawText} {deed : Deed}, found.kind = .directive →
      Splicing.obey disk place scope opens found rest = (more, deed) →
      (RawText.token reports found rest).IncludeFree → deed.Stays rest := by
    intro place opens scope found reports more rest deed directive told free
    have stays := @Splicing.stays_obey disk place scope opens found rest
      (free found (List.mem_cons_self ..) directive)
    rwa [told] at stays
  induction splices with
  | failure | ending | fails =>
    rw [Emitted.filterMap_reports]
    exact List.nil_sublist _
  | token plain rest ih =>
    rw [List.filterMap_append, Emitted.filterMap_reports, List.nil_append]
    exact (ih free.tail).cons_cons _
  -- A directive itself is no token, and it drops tokens at most.
  | goes directive told rest ih =>
    have among := (obeyed directive told free).tokens_sublist
    rw [List.filterMap_append, Emitted.filterMap_reports, List.nil_append]
    exact ((ih (free.tail.sublist among)).trans among).cons _
  | enters directive told => exact (obeyed directive told free).elim
  | cut directive told => exact (obeyed directive told free).elim

/-- What a stream brings has the tokens of the stream in their order. -/
theorem TokenStream.filterMap_brought (stream : TokenStream) :
    stream.brought.filterMap Emitted.token? = stream.tokens.map (·.2) := by
  rw [brought, List.filterMap_append, Emitted.filterMap_reports, List.append_nil]
  -- Each step brings its reports, which are no tokens, and then its token.
  induction stream.tokens with
  | nil => rfl
  | cons step rest ih =>
    rw [List.flatMap_cons, List.filterMap_append, List.filterMap_append,
      Emitted.filterMap_reports, List.map_cons, ih]
    rfl

/-- A root file without includes brings its tokens one behind the other. -/
theorem Preprocessor.Opens.drain_increasing {disk : Disk} {stream : Preprocessor}
    (opens : Opens disk stream) (free : stream.root.lexer.raw.IncludeFree) :
    Token.Increasing ((stream.drain disk).tokens.map (·.2)) := by
  obtain ⟨place, scope, source, result, splices, free⟩ := opens.splices free
  have among := splices.tokens free
  rw [TokenStream.filterMap_brought] at among
  -- The tokens of the text are slices of it, one behind the other.
  obtain ⟨-, increasing⟩ := @Cursor.Placed.tokens_raw _ _ _ place.breadcrumb
    (Cursor.placed_ofSource source)
  exact ⟨opens.holds.drain Cursor.brings_ordered, increasing.sublist among⟩

end ArgSchema
