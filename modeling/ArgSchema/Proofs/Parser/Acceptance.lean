import ArgSchema.Proofs.Grammar.Leaves
import ArgSchema.Proofs.Parser.Silent

/-! Acceptance: parsing makes a tree of the token sequences of the grammar, and of no others. -/

namespace ArgSchema

/-- Parsing a stream that does not fail accepts what the grammar derives, and builds what it derives.

A root is there exactly for no tokens and for those of a file. It draws the file, whose syntax the
tokens determine, and its leaves are the names and values of the tokens. Each semicolon that the
grammar drops is reported. -/
theorem TokenStream.parse_accepts_grammar (stream : TokenStream) {last : Token}
    (ends : stream.ending.result = .ok last) (known : Token.AllKnown stream.toList) :
    ∃ tree, stream.parse.result = .ok tree ∧
      (tree.root?.isSome = true ↔
        stream.toList = [] ∨ ∃ items, Grammar.File items stream.toList) ∧
      ∀ root, tree.root? = some root → ∃ items, tree.Draws root (fileOutline items) ∧
        (stream.toList = [] ∧ items = [] ∨ Grammar.File items stream.toList) ∧
        (∀ other, Grammar.File other stream.toList → other = items) ∧
        (fileOutline items).leaves = Token.leaves stream.toList ∧
        ∀ before previous semicolon after,
          stream.toList = before ++ previous :: semicolon :: after →
          previous.kind = .openCurly ∨ previous.kind = .semicolon → semicolon.kind = .semicolon →
          ∃ warning ∈ [Warning.emptyStatement, .straySemicolon],
            .report (.warning warning semicolon.span) ∈ stream.parse.events := by
  -- Parsing leaves what the phrases of the tokens are read as, and that is a file or it is none.
  obtain ⟨finished, final, parsed⟩ := stream.parse_finishes ends
  have result : stream.parse.result = .ok finished.tree := by rw [parsed]
  have describes := final.root
  refine ⟨finished.tree, result, ?_⟩
  cases read : Phrase.items? (Phrase.readAll [] stream.toList) with
  | none =>
    rw [read] at describes
    refine ⟨?_, fun root rooted => ?_⟩
    · -- Whatever the grammar derives would have been read as a file.
      constructor
      · intro rooted
        simp [describes] at rooted
      · rintro (empty | ⟨items, written⟩)
        · rw [empty] at read
          cases read
        · rw [Phrase.items?_readAll written] at read
          cases read
    · rw [describes] at rooted
      cases rooted
  -- The items read are derived, since what phrases are read as is what their tokens spell.
  | some items =>
    rw [read] at describes
    obtain ⟨root, rooted, drawn⟩ := describes
    have derived := (Phrase.items?_readAll_iff known).mp read
    refine ⟨?_, fun root' rooted' => ?_⟩
    -- So there is a root exactly if the tokens are none or a file of the grammar.
    · rw [rooted]
      refine ⟨fun _ => ?_, fun _ => rfl⟩
      rcases derived with ⟨_, empty⟩ | written
      · exact .inl empty
      · exact .inr ⟨items, written⟩
    -- The root that is found is the one that draws the items.
    · obtain rfl : root = root' := Option.some.inj (rooted.symm.trans rooted')
      refine ⟨items, drawn, derived.imp_left And.symm, fun other written => ?_, ?_,
        fun before previous semicolon after => reports_dropped ends read⟩
      · -- Two derivations of the same tokens are read as the same items.
        have again := Phrase.items?_readAll written
        rw [read] at again
        exact (Option.some.inj again).symm
      -- The grammar draws its leaves in the order of the tokens.
      · rcases derived with ⟨rfl, empty⟩ | written
        · rw [empty]
          rfl
        · exact written.leaves_eq

/-- A type with one property, which holds each kind of value behind a suppression and a semicolon
that is dropped, is accepted and drawn. -/
theorem TokenStream.parse_accepts_type :
    let semicolon : Token := ⟨.semicolon, ";", default⟩
    let marks : List Token :=
      [⟨.modifier, "suppress", default⟩, ⟨.identifier, "empty-statement", default⟩]
    let literals : List Token :=
      [⟨.string, "s", default⟩, ⟨.regex, "r", default⟩, ⟨.number (-1), "-1", default⟩,
        ⟨.decimal ⟨0⟩, "0.0", default⟩, ⟨.boolean true, "true", default⟩,
        ⟨.reference .type "q", "T", default⟩, ⟨.snippet, "c", default⟩]
    let config : List Token := marks ++ ⟨.property, "p", default⟩ :: literals ++ [semicolon]
    let tokens : List Token := [⟨.type, "T", default⟩] ++
      (⟨.openCurly, "\x7b", default⟩ :: [semicolon] ++ config ++ [⟨.closeCurly, "\x7d", default⟩])
    let stream : TokenStream :=
      ⟨tokens.map ([], ·), .ok ⟨.endOfFile, "", default⟩ (.ofSource "" [] [])⟩
    let values : List NodeKind := [.string "s", .regex "r", .number (-1), .decimal ⟨0⟩,
      .boolean true, .reference "T" .type "q" none, .snippet "c"]
    let statement : Statement := ⟨[.emptyStatement], ⟨"p", .property⟩, values⟩
    ∃ tree root, stream.parse.result = .ok tree ∧ tree.root? = some root ∧
      tree.Draws root
        (fileOutline [.definition ⟨⟨.typeDefinition, [⟨"T", .type⟩], none⟩, [statement]⟩]) ∧
      Token.leaves tokens = .identifier "T" .type :: .suppress .emptyStatement ::
        .identifier "p" .property :: values := by
  intro semicolon marks literals config tokens stream values statement
  -- The grammar derives the file, from the innermost piece outward.
  have literals_written : Grammar.Sequence Grammar.Value values literals :=
    .cons (Grammar.Value.token rfl) <| .cons (Grammar.Value.token rfl) <|
      .cons (Grammar.Value.token rfl) <| .cons (Grammar.Value.token rfl) <|
      .cons (Grammar.Value.token rfl) <| .cons (Grammar.Value.token rfl) <|
      .cons (Grammar.Value.token rfl) .none
  have marks_written : Grammar.Sequence Grammar.Suppression [.emptyStatement] marks :=
    Grammar.Sequence.none.more (.pair rfl rfl (by decide))
  have config_written : Grammar.Config statement config :=
    .statement marks_written rfl (by simp [values]) literals_written rfl (by simp [Grammar.Strays])
  have body_written : Grammar.Body [statement] tokens.tail :=
    .braces rfl (by simp [Grammar.Strays, semicolon])
      (Grammar.Sequence.none.more config_written) rfl
  have name_written : Grammar.TypeName "T" [⟨.type, "T", default⟩] :=
    @Grammar.TypeName.token ⟨.type, "T", default⟩ rfl
  -- The body closes the definition, which is the file's one item.
  have written : Grammar.File [.definition ⟨⟨.typeDefinition, [⟨"T", .type⟩], none⟩, [statement]⟩]
      tokens :=
    .items (by simp) (Grammar.Sequence.none.more
      (.definition (.definition (.typeDefinition name_written) body_written)))
  have known : Token.AllKnown stream.toList := written.settled.allKnown
  -- So the tokens are accepted, and their tree draws what the grammar derives.
  obtain ⟨tree, result, rooted, drawn⟩ := parse_accepts_grammar stream rfl known
  obtain ⟨root, isRoot⟩ := Option.isSome_iff_exists.mp (rooted.mpr (.inr ⟨_, written⟩))
  obtain ⟨items, draws, -, unique, leaves, -⟩ := drawn root isRoot
  -- No other file is written by these tokens, so the one that is drawn is this one.
  obtain rfl := unique _ written
  exact ⟨tree, root, result, isRoot, draws, leaves.symm.trans rfl⟩

end ArgSchema
