import ArgSchema.Proofs.Lexer.Reads
import ArgSchema.Proofs.Preprocessor.Steps

/-! Texts without directives: their stream brings the tokens that the lexer reads, in order. -/

namespace ArgSchema

namespace Preprocessor

/-- A stream that reads one text from a cursor on, with nothing put back and nothing open. -/
structure Plain (stream : Preprocessor) (breadcrumb : Breadcrumb) (cursor : Cursor) : Prop where
  /-- No file is included. -/
  includes : stream.includes = []
  /-- No conditional is open. -/
  conditionals : stream.root.conditionals = []
  /-- No token was put back. -/
  pushed : stream.root.lexer.pushed = []
  /-- The text goes on at the cursor. -/
  cursor : stream.root.lexer.cursor = cursor
  /-- Spans point into the text. -/
  breadcrumb : stream.root.lexer.breadcrumb = breadcrumb

/-- The stream of a source starts at its beginning. -/
theorem plain_ofSource (name : String) (source : Bytes) (defines : List String) :
    (ofSource name source defines).Plain [name] (Cursor.ofSource source) := ⟨rfl, rfl, rfl, rfl, rfl⟩

namespace Plain

variable {stream : Preprocessor} {breadcrumb : Breadcrumb} {cursor : Cursor}
  (plain : stream.Plain breadcrumb cursor)

include plain

/-- The file being read is the root file. -/
theorem current : stream.current = stream.root := by
  simp [Preprocessor.current, plain.includes]

/-- Taking a token from the file is reading it from the text. -/
theorem taken : (stream.onCurrent Frame.pop).reports = (cursor.nextToken breadcrumb).reports ∧
    (stream.onCurrent Frame.pop).result = (cursor.nextToken breadcrumb).result := by
  simp [onCurrent, Frame.pop, Lexer.pop, Reading.mapNext, plain.current, plain.pushed, plain.cursor,
    plain.breadcrumb]

/-- Behind a token the text goes on. -/
theorem afterToken :
    stream.afterToken.Plain breadcrumb (cursor.nextToken breadcrumb).next := by
  -- With no file included the current frame is the root, and only its cursor moves.
  have next : stream.afterToken = { stream with root := (stream.root.pop).next } := by
    simp [Preprocessor.afterToken, onCurrent, Reading.mapNext, setCurrent, plain.includes,
      plain.current]
  rw [next]
  constructor <;>
    simp [Frame.pop, Lexer.pop, Reading.mapNext, Frame.withLexer, plain.pushed, plain.cursor,
      plain.breadcrumb, plain.includes, plain.conditionals]

/-- A token that is neither a directive nor the end is brought as it is. -/
theorem pop_token {token : Token} (disk : Disk)
    (read : (cursor.nextToken breadcrumb).result = .ok token) (other : token.kind ≠ .directive)
    (inside : token.isEnd = false) :
    stream.pop disk =
      ⟨(cursor.nextToken breadcrumb).reports, .ok token, stream.afterToken⟩ := by
  -- The current file brings what the cursor reads.
  obtain ⟨reports, result⟩ := plain.taken
  rw [← reports]
  exact pop_of_plain disk (result.trans read) other inside

/-- The end of the text is the end of the stream. -/
theorem pop_end {token : Token} (disk : Disk)
    (read : (cursor.nextToken breadcrumb).result = .ok token) (ended : token.isEnd = true) :
    (stream.pop disk).reports = (cursor.nextToken breadcrumb).reports ∧
      (stream.pop disk).result = .ok token := by
  obtain ⟨reports, result⟩ := plain.taken
  -- No conditional can be open, as the text has no directives.
  have closed : stream.openConditionals = [] := by
    simp [openConditionals, plain.current, plain.conditionals]
  rw [pop_of_end disk (result.trans read) ended plain.includes, closed, List.append_nil]
  exact ⟨reports, rfl⟩

end Plain

/-- The stream of a text without directives brings the text's tokens. -/
theorem Plain.drain {stream : Preprocessor} {breadcrumb : Breadcrumb} {cursor : Cursor}
    (plain : stream.Plain breadcrumb cursor) (disk : Disk) {reports : List Diagnostic}
    {tokens : List Token} (read : cursor.tokens breadcrumb = (reports, .ok tokens))
    (others : ∀ token ∈ tokens, token.kind ≠ .directive) :
    (stream.drain disk).tokens.map (·.2) = tokens ∧
      (∃ last, (stream.drain disk).ending.result = .ok last) ∧
      (stream.drain disk).tokens.flatMap (·.1) ++ (stream.drain disk).ending.reports = reports := by
  fun_induction Cursor.tokens breadcrumb cursor generalizing stream reports tokens with
  | case1 cursor failure failed => cases read
  | case2 cursor token taken ended =>
    cases read
    obtain ⟨reported, result⟩ := plain.pop_end disk taken ended
    rw [drain_of_last fun other given => Except.ok.inj (result.symm.trans given) ▸ ended]
    simp [result, reported]
  | case3 cursor token taken inside more rest below ih =>
    rw [below] at ih
    obtain ⟨whole, same⟩ := Prod.mk.inj read
    cases rest with
    | error failure => cases same
    | ok rest =>
      have same : token :: rest = tokens := Except.ok.inj same
      subst same
      have inside : token.isEnd = false := by simpa using inside
      have popped := plain.pop_token disk taken (others token (by simp)) inside
      -- The token is no directive, so it is brought, and the rest by induction.
      obtain ⟨list, ends, reported⟩ := ih plain.afterToken rfl fun other member =>
        others other (by simp [member])
      rw [drain_of_token (by rw [popped]) inside]
      simp only [popped, List.map_cons, List.flatMap_cons, List.append_assoc, reported, list, whole,
        true_and]
      exact ⟨ends, trivial⟩

/-- If nothing is reported while the text is read, the stream brings its tokens and nothing else. -/
theorem Plain.drain_of_silent {stream : Preprocessor} {breadcrumb : Breadcrumb} {cursor : Cursor}
    (plain : stream.Plain breadcrumb cursor) (disk : Disk) {tokens : List Token}
    (read : cursor.tokens breadcrumb = ([], .ok tokens))
    (others : ∀ token ∈ tokens, token.kind ≠ .directive) :
    ∃ last next, stream.drain disk = ⟨tokens.map ([], ·), ⟨[], .ok last, next⟩⟩ := by
  obtain ⟨list, ⟨last, ends⟩, reported⟩ := plain.drain disk read others
  obtain ⟨quiet, silent⟩ := List.append_eq_nil_iff.mp reported
  generalize stream.drain disk = drained at list ends quiet silent
  obtain ⟨given, reports, result, next⟩ := drained
  subst list ends silent
  -- No token has a report in front of it.
  have bare : given.map (fun pair => ([], pair.2)) = given.map id :=
    List.map_congr_left fun pair member =>
      Prod.ext (List.flatMap_eq_nil_iff.mp quiet pair member).symm rfl
  refine ⟨last, next, ?_⟩
  rw [List.map_map]
  exact congrArg (TokenStream.mk · _) ((bare.trans (List.map_id given)).symm)

/-- A source that is read as tokens, none of them a directive, is brought as those tokens, and nothing
is reported. -/
theorem drain_of_reads (disk : Disk) (name : String) (source : Bytes) (defines : List String)
    {contents : List (TokenKind × String)}
    (reads : ArgSchema.Reads (Cursor.ofSource source).rest contents [])
    (plain : ∀ content ∈ contents, content.1 ≠ .directive ∧ content.1 ≠ .endOfFile) :
    let drained := (ofSource name source defines).drain disk
    (drained.tokens.map (·.2)).map (fun token => (token.kind, token.text)) = contents ∧
      (∃ last, drained.ending.result = .ok last) ∧
      drained.tokens.flatMap (·.1) ++ drained.ending.reports = [] := by
  -- No token is a directive, so the stream hands on what the cursor reads.
  obtain ⟨list, read, same⟩ := reads.tokens (Cursor.ofSource source)
    (fun content member => (plain content member).2) [name]
  have others : ∀ token ∈ list, token.kind ≠ .directive := fun token member =>
    (plain token.content (same ▸ List.mem_map_of_mem member)).1
  obtain ⟨tokens, ends, reports⟩ := (plain_ofSource name source defines).drain disk read others
  exact ⟨tokens ▸ same, ends, reports⟩

end Preprocessor

end ArgSchema
