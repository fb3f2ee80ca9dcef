import ArgSchema.Proofs.Compilation.Counts
import ArgSchema.Proofs.Layout.Items
import ArgSchema.Proofs.Lexer.Lossless
import ArgSchema.Proofs.Parser.Meaning
import ArgSchema.Proofs.Parser.Silent
import ArgSchema.Proofs.Preprocessor.Plain
import ArgSchema.Proofs.Resolution.Alike

/-! The round trip: the text of a tree is parsed without errors as a tree that looks the same. -/

namespace ArgSchema

/-- Text that is read to its end starts with a byte below 128. -/
theorem Reads.small {bytes : Bytes} {contents : List (TokenKind × String)}
    (reads : Reads bytes contents []) : ∀ b ∈ bytes.head?, b < 0x80 := by
  intro b member
  -- A text starts with a blank or with the first byte of a token, both of which are small.
  cases reads with
  | none => cases member
  | blank space _ =>
    cases member
    simp only [isBlank, Bool.or_eq_true, decide_eq_true_eq] at space
    rcases space with ((rfl | rfl) | rfl) | rfl <;> decide
  | token _ found _ =>
    cases member
    exact Lexeme.small_of_token (congrArg Lexeme.content found)

/-- Items that tokens of some text spell are printed as such tokens. -/
theorem Meant.prints {items : List Item} (meant : Meant items) :
    Prints (fun tokens => (items = [] ∧ tokens = []) ∨ Grammar.File items tokens)
      (Utf8.encode (fileText items)) [] := by
  -- Meant items are none at all, or a file's.
  rcases meant with rfl | ⟨tokens, spelled, written⟩
  · exact .none (.inl ⟨rfl, rfl⟩)
  · exact (written.prints spelled).imp fun _ => .inr

/-- A stream of no tokens, or of those of a file, has a tree that describes the file. -/
theorem TokenStream.parse_items {stream : TokenStream} {last : Token}
    (ends : stream.ending.result = .ok last) {items : List Item}
    (file : (items = [] ∧ stream.toList = []) ∨ Grammar.File items stream.toList) :
    ∃ tree, stream.parse.result = .ok tree ∧ tree.Forest ∧ tree.Describes items := by
  rcases file with ⟨rfl, empty⟩ | written
  · -- No tokens are an empty file, which is drawn as such at the end of the loop.
    obtain ⟨finished, final, ran⟩ := TokenStream.parse_finishes ends
    have describes := final.root
    rw [empty] at describes
    exact ⟨finished.tree, congrArg Parsed.result ran, final.forest, describes⟩
  · exact parse_describes ends written

/-- The tokens of an optional option with several values, written without blanks. -/
theorem reads_option : Reads (Utf8.encode "[-s]<n>...\x7b\x7d") [(.openSquare, "["),
    (.shortlabel, "s"), (.closeSquare, "]"), (.type, "n"), (.ellipsis, "..."), (.openCurly, "\x7b"),
    (.closeCurly, "\x7d")] [] :=
  .of_scan 12 (by decide +kernel)

/-- These tokens spell an option. -/
theorem file_option {tokens : List Token} (same : tokens.map Token.content = [(.openSquare, "["),
      (.shortlabel, "s"), (.closeSquare, "]"), (.type, "n"), (.ellipsis, "..."), (.openCurly, "\x7b"),
      (.closeCurly, "\x7d")]) :
    Grammar.File [.definition ⟨⟨.option true false true, [⟨"s", .shortlabel⟩], some ["n"]⟩, []⟩]
      tokens := by
  -- The contents give the kind and the text of each of the seven tokens.
  simp only [List.map_eq_cons_iff, List.map_eq_nil_iff, Token.content, Prod.mk.injEq] at same
  obtain ⟨a, _, rfl, ⟨opened, _⟩, b, _, rfl, ⟨short, name⟩, c, _, rfl, ⟨closed, _⟩, d, _, rfl,
    ⟨type, of⟩, e, _, rfl, ⟨dots, _⟩, f, _, rfl, ⟨curly, _⟩, g, _, rfl, ⟨closing, _⟩, rfl⟩ := same
  have label : Grammar.Labels [⟨"s", .shortlabel⟩] [b] := name ▸ .short short
  have list : Grammar.TypeName "n" [d] := of ▸ .token type
  have header : Grammar.Header ⟨.option true false true, [⟨"s", .shortlabel⟩], some ["n"]⟩
      [a, b, c, d, e] :=
    .option (.brackets opened label closed)
      (.bare (.variadic (by simp) (Grammar.Sequence.none.more list) dots))
  have body : Grammar.Body [] [f, g] :=
    .braces curly (show Grammar.Strays [] by simp [Grammar.Strays]) .none closing
  exact .items (by simp) (Grammar.Sequence.none.more (.definition (.definition header body)))

namespace Preprocessor

/-- A text that is read as no tokens, or as those of a file, is parsed without errors as a tree of the
file. -/
theorem parse_of_prints {items : List Item} {text : String}
    (prints : Prints (fun tokens => (items = [] ∧ tokens = []) ∨ Grammar.File items tokens)
      (Utf8.encode text) []) (name : String) (disk : Disk) :
    let parsed := (ofSource name (Utf8.encode text) []).parse disk
    (∀ event ∈ parsed.events, event.isError = false) ∧
      ∃ tree root, parsed.result = .ok tree ∧ tree.Forest ∧ tree.root? = some root ∧
        tree.Draws root (fileOutline items) := by
  obtain ⟨contents, reads, plain, phrase⟩ := prints
  rw [List.append_nil] at reads
  -- A mark of the byte order would be dropped, but the text starts with a small byte.
  have start : (Cursor.ofSource (Utf8.encode text)).rest = Utf8.encode text := by
    have behind := Cursor.rest_ofSource (.inl rfl) reads.small
    rwa [String.empty_append] at behind
  -- Without directives the stream brings the tokens of the text as they are.
  obtain ⟨same, ⟨last, ends⟩, reports⟩ :=
    drain_of_reads disk name (Utf8.encode text) [] (start.symm ▸ reads) plain
  have file := phrase _ same
  refine ⟨fun event member => Bool.eq_false_iff.mpr fun error => ?_, ?_⟩
  · -- Nothing is reported on the way to a token, so there is no error for the parser to pass on.
    have brought := TokenStream.errors_parse ends file member error
    rw [reports] at brought
    cases brought
  · obtain ⟨tree, parsed, forest, root, rooted, drawn⟩ := TokenStream.parse_items ends file
    exact ⟨tree, root, parsed, forest, rooted, drawn⟩

/-- The text of a parsed tree is parsed without errors, under whatever name, as a tree that looks the
same below its root, has the same text, and is accepted by both passes over names if the first tree
is. -/
theorem format_round_trip {disk disk' : Disk} {stream : Preprocessor} (opens : stream.Opens disk)
    {tree : Tree} (parsed : (stream.parse disk).result = .ok tree) {root : NodeId}
    (rooted : tree.root? = some root) (name : String) :
    let again := (ofSource name (Utf8.encode tree.format) []).parse disk'
    (Diagnostics.empty.applyAll again.events).hasErrors = false ∧
      ∃ tree' root', again.result = .ok tree' ∧ tree'.root? = some root' ∧
        tree.Twins tree' root root' ∧ tree'.format = tree.format ∧ (tree.Checks → tree'.Checks) := by
  obtain ⟨forest, meaning⟩ := parse_meant opens parsed
  -- The tree draws items that can be written, and its text is theirs.
  obtain ⟨items, meant, drawn⟩ := meaning root rooted
  have text := drawn.format rooted
  -- That text is read back as a tree that draws the same items.
  obtain ⟨silent, tree', root', parsed', forest', rooted', drawn'⟩ :=
    parse_of_prints meant.prints name disk'
  have twins : tree.Twins tree' root root' := ⟨_, drawn, drawn'⟩
  rw [text]
  refine ⟨?_, tree', root', parsed', rooted', twins, drawn'.format rooted',
    twins.checks forest forest' rooted rooted'⟩
  rw [Diagnostics.hasErrors_eq_false, Diagnostics.errorCount_applyAll_eq_zero]
  exact ⟨rfl, silent⟩

/-- An option written without blanks is laid out with them, and read back from that. -/
theorem format_round_trip_option : ∃ tree root,
    ((ofSource "schema" (Utf8.encode "[-s]<n>...\x7b\x7d") []).parse .empty).result = .ok tree ∧
      tree.root? = some root ∧ tree.format = "[-s] <n>... \x7b\x7d\n" ∧ ∃ tree' root',
      ((ofSource "schema" (Utf8.encode tree.format) []).parse .empty).result = .ok tree' ∧
        tree'.root? = some root' ∧ tree.Twins tree' root root' := by
  -- The tree is drawn by the derivation, and its text is the printer's.
  obtain ⟨-, tree, root, parsed, -, rooted, drawn⟩ := parse_of_prints
    ⟨_, (List.append_nil (Utf8.encode "[-s]<n>...\x7b\x7d")).symm ▸ reads_option,
      by simp [IsPlain], fun _ same => .inr (file_option same)⟩ "schema" .empty
  obtain ⟨-, tree', root', parsed', rooted', twins, -⟩ :=
    @format_round_trip _ .empty _ (.source "schema" _ []) tree parsed root rooted "schema"
  exact ⟨tree, root, parsed, rooted, (drawn.format rooted).trans (by decide +kernel), tree', root', parsed',
    rooted', twins⟩

end Preprocessor

end ArgSchema
