import ArgSchema.Proofs.Grammar.Spelled
import ArgSchema.Proofs.Parser.Completeness
import ArgSchema.Proofs.Parser.Refinement
import ArgSchema.Proofs.Parser.Soundness
import ArgSchema.Proofs.Preprocessor.Plain
import ArgSchema.Proofs.Tree.Described

/-! What the tree of a text means: a file of items whose names and values can be written. -/

namespace ArgSchema

/-- Items that tokens of some text spell. -/
def Meant (items : List Item) : Prop :=
  items = [] ∨ ∃ tokens, Token.AllSpelled tokens ∧ Grammar.File items tokens

/-- The definitions among meant items can be written. -/
theorem Meant.spelled {items : List Item} (meant : Meant items) {given : Definition}
    (member : given ∈ definitionsOf items) : given.Spelled := by
  -- Without items there are no definitions, and a file's are derived from tokens that spell them.
  rcases meant with rfl | ⟨tokens, spelled, written⟩
  · cases member
  · exact written.spelled spelled (mem_definitionsOf.mp member)

namespace Parser

/-- Running to an end that fails does not succeed. -/
theorem run_of_error {ending : Reading Preprocessor Token} {failure : Failure}
    (fails : ending.result = .error failure) (tokens : List (List Diagnostic × Token))
    (parser : Parser) : ∃ other, (parser.run ending tokens).result = .error other := by
  induction tokens generalizing parser with
  | nil => exact ⟨failure, by simp [run, conclude, fails]⟩
  | cons first rest ih =>
    obtain ⟨reports, token⟩ := first
    unfold run
    -- Either a token is refused, or the run reaches the end that fails.
    cases parser.read reports token with
    | error error => exact ⟨.tree error, rfl⟩
    | ok next => exact ih next

end Parser

/-- A stream that was parsed came to its end. -/
theorem TokenStream.ends_of_parse {stream : TokenStream} {tree : Tree}
    (parsed : stream.parse.result = .ok tree) : ∃ last, stream.ending.result = .ok last := by
  -- A stream that fails would fail the parse.
  cases ends : stream.ending.result with
  | ok last => exact ⟨last, rfl⟩
  | error failure =>
    obtain ⟨other, failed⟩ := Parser.run_of_error ends stream.tokens Parser.start
    have failed : stream.parse.result = .error other := failed
    rw [parsed] at failed
    cases failed

/-- What a stream is parsed to is well-formed. -/
theorem TokenStream.forest_of_parse {stream : TokenStream} {tree : Tree}
    (parsed : stream.parse.result = .ok tree) : tree.Forest := by
  -- The parser that finishes has a forest.
  obtain ⟨last, ends⟩ := ends_of_parse parsed
  obtain ⟨finished, final, ran⟩ := TokenStream.parse_finishes ends
  rw [ran] at parsed
  cases parsed
  exact final.forest

/-- A stream that was parsed without errors has a tree with a root. -/
theorem TokenStream.rooted_of_parse {stream : TokenStream} {tree : Tree}
    (parsed : stream.parse.result = .ok tree)
    (silent : ∀ event ∈ stream.parse.events, event.isError = false) :
    ∃ root, tree.root? = some root := by
  obtain ⟨last, ends⟩ := ends_of_parse parsed
  obtain ⟨finished, final, ran⟩ := TokenStream.parse_finishes ends
  rw [ran] at parsed silent
  cases parsed
  -- Phrases that are no file are reported, and nothing was.
  cases read : Phrase.items? (Phrase.readAll [] stream.toList) with
  | none =>
    obtain ⟨event, member, error⟩ := final.error read
    rw [silent event member] at error
    cases error
  | some items =>
    have root := final.root
    rw [read] at root
    obtain ⟨root, rooted, _⟩ := root
    exact ⟨root, rooted⟩

/-- A stream of the tokens of a file has a tree that describes the file. -/
theorem TokenStream.parse_describes {stream : TokenStream} {last : Token}
    (ends : stream.ending.result = .ok last) {items : List Item}
    (written : Grammar.File items stream.toList) :
    ∃ tree, stream.parse.result = .ok tree ∧ tree.Forest ∧ tree.Describes items := by
  -- What the grammar derives is what the phrases are read as.
  obtain ⟨finished, final, ran⟩ := TokenStream.parse_finishes ends
  have describes := final.root
  rw [Phrase.items?_readAll written] at describes
  exact ⟨finished.tree, by rw [ran], final.forest, describes⟩

/-- The tree of a stream that was not read from before is well formed, and its root stands for
items that can be written. -/
theorem Preprocessor.parse_meant {disk : Disk} {stream : Preprocessor} (opens : stream.Opens disk)
    {tree : Tree} (parsed : (stream.parse disk).result = .ok tree) :
    tree.Forest ∧ ∀ root, tree.root? = some root →
      ∃ items, Meant items ∧ tree.Draws root (fileOutline items) := by
  obtain ⟨last, ends⟩ := TokenStream.ends_of_parse parsed
  obtain ⟨finished, final, ran⟩ := TokenStream.parse_finishes ends
  rw [Preprocessor.parse, ran] at parsed
  cases parsed
  refine ⟨final.forest, fun root rooted => ?_⟩
  have describes := final.root
  cases read : Phrase.items? (Phrase.readAll [] (stream.drain disk).toList) with
  | none =>
    rw [read] at describes
    rw [describes] at rooted
    cases rooted
  | some items =>
    rw [read] at describes
    obtain ⟨root', rooted', drawn⟩ := describes
    obtain rfl : root' = root := Option.some.inj (rooted'.symm.trans rooted)
    refine ⟨items, ?_, drawn⟩
    obtain ⟨kept, sublist, _, spelled⟩ := Phrase.readAll_spells (stream.drain disk).toList
    refine (spelled.items read).imp And.left fun written => ⟨kept, fun token member => ?_, written⟩
    -- Tokens that are kept are tokens of the stream, and these were read from texts.
    exact opens.holds.drain Cursor.brings_spelled token (sublist.subset member)

/-- A drawn definition that can be written stands for each definition of a file. -/
theorem Tree.exists_definition {tree : Tree} {root : NodeId} {items : List Item} (meant : Meant items)
    (drawn : tree.Draws root (fileOutline items)) {id : NodeId}
    (member : id ∈ tree.definitions root) :
    ∃ given ∈ definitionsOf items, given.Spelled ∧ tree.Draws id given.outline := by
  -- The root's definitions draw those of the items, one by one.
  obtain ⟨place, short, rfl⟩ := List.getElem_of_mem member
  have all := drawn.definitions
  have long : place < (definitionsOf items).length := all.length_eq ▸ short
  exact ⟨_, List.getElem_mem long, meant.spelled (List.getElem_mem long), all.get short long⟩

/-- The keyword of a property can be written, and is a word or stands behind a dot. -/
theorem Tree.keyword_spelled {tree : Tree} {id config : NodeId} {given : Definition}
    (spelled : given.Spelled) (drawn : tree.Draws id given.outline)
    (member : config ∈ tree.properties id) {name : String} {category : Category} {span : Span}
    (first : (tree.identifiers config).head? = some (name, category, span)) :
    category.Names name ∧ category ∈ [Category.identifier, .metadata, .property] := by
  -- The property stands at the same place in the tree and in the definition.
  obtain ⟨place, short, rfl⟩ := List.getElem_of_mem member
  have all := drawn.properties
  have long : place < given.body.length := all.length_eq ▸ short
  have keyword := (all.get short long).keyword
  have statement := spelled.body _ (List.getElem_mem long)
  have label : given.body[place].keyword = ⟨name, category⟩ := by
    have heads := congrArg List.head? keyword
    rw [List.head?_map, List.get_eq_getElem, first] at heads
    exact (Option.some.inj heads).symm
  have named := statement.keyword
  have marked := statement.category
  rw [label] at named marked
  exact ⟨named, marked⟩

/-- A source that is read as tokens, none of them a directive, is parsed as the file they spell. -/
theorem Preprocessor.parse_of_reads (disk : Disk) (name : String) (source : Bytes)
    (defines : List String) {contents : List (TokenKind × String)} {items : List Item}
    (reads : ArgSchema.Reads (Cursor.ofSource source).rest contents [])
    (plain : ∀ content ∈ contents, content.1 ≠ .directive ∧ content.1 ≠ .endOfFile)
    (spells : ∀ {tokens : List Token},
      tokens.map (fun token => (token.kind, token.text)) = contents → Grammar.File items tokens) :
    ∃ tree root, ((ofSource name source defines).parse disk).result = .ok tree ∧ tree.Forest ∧
      tree.root? = some root ∧ tree.Draws root (fileOutline items) := by
  -- The tokens have the given contents wherever they stand, and that is all the grammar asks for.
  obtain ⟨same, ⟨last, ends⟩, -⟩ := drain_of_reads disk name source defines reads plain
  obtain ⟨tree, parsed, forest, root, rooted, drawn⟩ :=
    TokenStream.parse_describes ends (spells same)
  exact ⟨tree, root, parsed, forest, rooted, drawn⟩

end ArgSchema
