import ArgSchema.Proofs.Parser.Attempts
import ArgSchema.Proofs.Parser.Expansion

/-! Stages: how a stack stands between any two single rules, and what it was made of then. -/

namespace ArgSchema

namespace Parser

open Phrase

/-- The tokens that the rule for the top of the stack drops: a semicolon that ends nothing in a body, or
a modifier and a word that names no class of warnings. -/
def discards (parser : Parser) : List Token :=
  match parser.stack.symbols with
  | .token top :: .token first :: _ =>
    -- A semicolon that completes nothing.
    if top.kind = .semicolon ∧ first.kind = .openCurly then [top]
    -- A suppression of a warning that there is not.
    else if top.kind = .identifier ∧ first.isSuppress ∧ WarningClass.ofName? top.text = none then
      [first, top]
    else []
  | .token top :: .node id :: _ =>
    if top.kind = .semicolon ∧ parser.tree.isOfType (.only .configs) id then [top] else []
  | _ => []

/-- How a stack stands between two rules that are made of some tokens. -/
inductive Stage (parser : Parser) (kept : List Token) : Prop
  /-- Nothing is left to do for what was read. -/
  | still {phrases : List Phrase} : parser.Shows phrases → Still phrases → Exact phrases kept →
      Stage parser kept
  /-- A token was read. -/
  | read {top : Token} {phrases : List Phrase} : parser.Shows (.token top :: phrases) →
      Still phrases → Exact (.token top :: phrases) kept → Stage parser kept
  /-- An item was made, which may belong to a file. -/
  | item {given : Item} {others : List Phrase} : parser.Shows (.item given :: others) →
      Still others → Exact (.item given :: others) kept → Stage parser kept
  /-- A property was made, which belongs to a list. -/
  | property {id : NodeId} {below : List Symbol} {others : List Phrase} {statement : Statement}
      {front last : List Token} : parser.stack.symbols = .node id :: below →
      Stacked parser.tree below others → parser.tree.Stands id statement.outline →
      id ∉ Symbol.ids below → Still others → Exact others front →
      Grammar.Config statement last → Token.semicolons last = 1 → kept = front ++ last →
      Stage parser kept

/-- What the rule for the top of a stack comes to: there is none, and nothing is left to do, or it is
applied, and the stack is made of the same tokens afterwards but for those that are dropped. -/
inductive Moves (parser : Parser) (kept : List Token) : Option (Except TreeError Parser) → Prop
  /-- No rule applies. -/
  | rests {phrases : List Phrase} : parser.Shows phrases → Still phrases → Exact phrases kept →
      Moves parser kept none
  /-- A rule applies, and nothing can go wrong. -/
  | goes {next : Parser} (rest : List Token) : kept = rest ++ parser.discards → next.Stage rest →
      Moves parser kept (some (.ok next))

variable {parser : Parser} {tree : Tree} {below : List Symbol} {phrases : List Phrase}
  {kept : List Token}

/-- A rule that drops nothing and leaves a stack with nothing left to do. -/
theorem moves_of_yields {step : Except TreeError Parser} (yields : Yields step phrases)
    (still : Still phrases) (exact : Exact phrases kept) (whole : parser.discards = []) :
    parser.Moves kept (some step) := by
  obtain ⟨next, rfl, shows⟩ := yields
  exact .goes kept (by rw [whole, List.append_nil]) (.still shows still exact)

/-- No rule applies to a stack that shows phrases with nothing left to do. -/
theorem moves_of_settled (shows : parser.Shows phrases) (still : Still phrases)
    (exact : Exact phrases kept) : parser.Moves kept parser.reduction? := by
  rw [shows.reduction?_eq_none still.settled]
  exact .rests shows still exact

/-- A parser is made of its tree and its symbols. -/
theorem set_self {symbols : List Symbol} (same : parser.stack.symbols = symbols) :
    parser.set parser.tree symbols = parser := by
  subst same
  rfl

/-- A node that stands has a mark. -/
theorem exists_mark?_of_stands {id : NodeId} {outline : Outline} (stands : tree.Stands id outline) :
    ∃ span, tree.mark? id = some (outline.kind, span) := by
  obtain ⟨node, found, same, -⟩ := stands.live
  exact ⟨node.span, by rw [Tree.mark?, found, ← same]; rfl⟩

/-- A property that was made goes to its list. -/
theorem moves_property {id : NodeId} {others : List Phrase} {statement : Statement}
    {front last : List Token} (symbols : parser.stack.symbols = .node id :: below)
    (stacked : Stacked parser.tree below others) (stands : parser.tree.Stands id statement.outline)
    (fresh : id ∉ Symbol.ids below) (still : Still others) (exact : Exact others front)
    (config : Grammar.Config statement last) (count : Token.semicolons last = 1) :
    parser.Moves (front ++ last) parser.reduction? := by
  obtain ⟨span, marked⟩ := exists_mark?_of_stands stands
  have rule := reduction?_config parser marked rfl below
  -- The only rule for a property hangs it below a list.
  rw [set_self symbols] at rule
  rw [rule]
  exact moves_of_yields (addStatement_yields stacked stands fresh span) (still.addStatement _)
    (exact.addStatement config count) (by rw [discards, symbols])

/-- An item that was made goes to its file, or stays where it is. -/
theorem moves_item {given : Item} {others : List Phrase} (shows : parser.Shows (.item given :: others))
    (still : Still others) (exact : Exact (.item given :: others) kept) :
    parser.Moves kept parser.reduction? := by
  obtain ⟨id, below, symbols, stands⟩ := Stacked.exists_node shows rfl
  -- The item is a node on top of the stack, which a rule would take to the file.
  have stacked : Stacked parser.tree (.node id :: below) (.item given :: others) := symbols ▸ shows
  obtain ⟨span, marked⟩ := exists_mark?_of_stands stands
  have placed := getD_reduction?_item parser marked (item_accepted given) below
  rw [set_self symbols] at placed
  have yields := place_yields parser stacked span
  rw [← placed] at yields
  -- What the rule leaves is what there is if no rule applies.
  cases rule : parser.reduction? with
  | none =>
    rw [rule] at yields
    obtain ⟨_, same, shows'⟩ := yields
    cases same
    exact .rests shows' (still.addItem given) exact.addItem
  | some step =>
    rw [rule] at yields
    exact moves_of_yields yields (still.addItem given) exact.addItem (by rw [discards, symbols])

/-- A definition is made and stands in the place of its header, its brackets and its properties. -/
theorem makeDefinition_yields {header : Header} {opening closing : Token} {body : Option NodeId}
    {statements : List Statement} (stacked : Stacked parser.tree below phrases)
    (holds : Holds parser.tree below statements body)
    (found : Header.ofParts? (phrases.map Phrase.part) = some header) :
    Yields (parser.makeDefinition header opening body closing below)
      (.item (.definition ⟨heading header.kind (phrases.take header.length).reverse, statements⟩) ::
        phrases.drop header.length) := by
  unfold makeDefinition
  dsimp only
  -- Where the definition starts does not matter for what it is made of.
  generalize ((below.take header.length).reverse.head?.bind (Symbol.span? parser.tree)).getD
    opening.span = start
  obtain ⟨named, grown, done, linked, shows⟩ := attachDefinition_stands stacked holds found
    (start.through closing.span) (opening.span.through closing.span)
  refine ⟨parser.set grown (.node parser.tree.nextId :: below.drop header.length), ?_, shows⟩
  rw [done]
  -- The properties are attached, or an empty list of them is.
  cases body with
  | none =>
    simp only [bind, Except.bind] at linked ⊢
    rw [linked]
    rfl
  | some configs =>
    simp only [bind, Except.bind] at linked ⊢
    rw [linked]
    rfl

section Read

variable {top : Token} (symbols : parser.stack.symbols = .token top :: below)
  (shows : parser.Shows (.token top :: phrases)) (still : Still phrases)
  (exact : Exact (.token top :: phrases) kept)

include symbols in
/-- A token that is neither a semicolon nor a word is not dropped. -/
theorem discards_eq_nil (semicolon : top.kind ≠ .semicolon) (word : top.kind ≠ .identifier) :
    parser.discards = [] := by
  unfold discards
  -- Both ways in which tokens are dropped ask for one of these kinds.
  rw [symbols]
  match below with
  | [] => rfl
  | .token _ :: _ | .node _ :: _ => simp [semicolon, word]

include symbols shows still exact

/-- A value goes to its list. -/
theorem moves_value (isValue : top.kind.isValue = true) :
    parser.Moves kept (some (parser.readValue top below)) := by
  have stacked : Stacked parser.tree (.token top :: below) (.token top :: phrases) := symbols ▸ shows
  obtain ⟨before, rfl, rest⟩ := exact.pop_token
  -- A value is neither of the kinds that are dropped.
  have other : ∀ kind, kind.isValue = false → top.kind ≠ kind := by
    rintro kind no rfl
    rw [isValue] at no
    cases no
  exact moves_of_yields (readValue_yields stacked.tail top isValue) (still.addValues _)
    (rest.addValues isValue) (discards_eq_nil symbols (other _ rfl) (other _ rfl))

/-- A type that takes part in a rule goes to its list. -/
theorem moves_type (kind : top.kind = .type)
    (acts : Phrase.readType top phrases ≠ .token top :: phrases) :
    parser.Moves kept (parser.typeRule? top below) := by
  have stacked : Stacked parser.tree (.token top :: below) (.token top :: phrases) := symbols ▸ shows
  have yields := readType_yields shows symbols kind
  obtain ⟨before, rfl, rest⟩ := exact.pop_token
  unfold Phrase.readType at acts yields
  unfold readType at yields
  unfold typeRule?
  simp only [takesTypes_of_stacked stacked.tail] at yields ⊢
  split at acts
  · next takes =>
    -- The type takes part in a rule only if a list of types is here or can begin.
    simp only [takes, if_true] at yields ⊢
    exact moves_of_yields yields (still.addType _) (rest.addType kind)
      (discards_eq_nil symbols (by rw [kind]; decide) (by rw [kind]; decide))
  · exact absurd rfl acts

/-- A semicolon that takes part in a rule is dropped or ends a property. -/
theorem moves_semicolon (kind : top.kind = .semicolon)
    (acts : Phrase.readSemicolon top phrases ≠ .token top :: phrases) :
    parser.Moves kept (parser.semicolonRule? top below) := by
  have stacked : Stacked parser.tree (.token top :: below) (.token top :: phrases) := symbols ▸ shows
  unfold Phrase.readSemicolon at acts
  split at acts
  · next opening others =>
    split at acts
    · next curly =>
      -- Behind an opening bracket the semicolon is dropped.
      obtain ⟨before, whole, rest⟩ := exact.pop_token
      obtain ⟨outer, rfl⟩ := stacked.tail.exists_token
      simp only [semicolonRule?, curly, if_true]
      refine .goes before ?_ (.still stacked.tail still rest)
      simp [whole, discards, symbols, kind, curly]
    · exact absurd rfl acts
  · next statements others =>
    -- Behind properties it is dropped as well.
    obtain ⟨before, whole, rest⟩ := exact.pop_token
    obtain ⟨id, outer, rfl, stands⟩ := stacked.tail.exists_node rfl
    have configs : parser.tree.isOfType (.only .configs) id = true :=
      stacked.tail.head.isOfType .configs
    simp only [semicolonRule?, configs, if_true]
    refine .goes before ?_ (.still stacked.tail still rest)
    simp [whole, discards, symbols, kind, configs]
  · next given word others =>
    split at acts
    · next keyword named =>
      -- Behind the values of a keyword it ends a property.
      obtain ⟨before, last, whole, rest, config, count⟩ := exact.property named kind
      obtain ⟨id, below, rfl, stands⟩ := stacked.tail.exists_node rfl
      obtain ⟨outer, rfl⟩ := stacked.tail.tail.exists_token
      obtain ⟨grown, attached, stacked', unused, made⟩ :=
        -- The new property stands beside what is left of the stack until it goes to its list.
        attachProperty_stands stacked.tail named (word.span.through top.span)
      have configs : parser.tree.isOfType (.only .configs) id = false :=
        stacked.tail.head.isOfType .configs
      have values : parser.tree.isOfType (.only .values) id = true :=
        stacked.tail.head.isOfType .values
      have keyword : word.isKeyword = true := by rw [← isSome_keyword?, named]; rfl
      simp only [semicolonRule?, configs, values, keyword, makeProperty,
        List.span_eq_takeWhile_dropWhile, attached, Bool.false_eq_true, if_false, if_true]
      refine .goes kept ?_ (.property rfl stacked' made unused
        (still.2.2.of_suffix (List.dropWhile_suffix _)) rest config count whole)
      simp [discards, symbols, configs]
    · exact absurd rfl acts
  · exact absurd rfl acts

/-- A word that takes part in a rule is dropped with its modifier, or both are made a suppression. -/
theorem moves_word (kind : top.kind = .identifier)
    (acts : Phrase.readWord top phrases ≠ .token top :: phrases) :
    parser.Moves kept (parser.wordRule? top below) := by
  have stacked : Stacked parser.tree (.token top :: below) (.token top :: phrases) := symbols ▸ shows
  unfold Phrase.readWord at acts
  split at acts
  · next modifier others =>
    split at acts
    · next suppress =>
      obtain ⟨outer, rfl⟩ := stacked.tail.exists_token
      have pair : (decide (modifier.kind = .modifier) && decide (modifier.text = "suppress")) =
          true := suppress
      simp only [wordRule?, pair, if_true]
      cases known : WarningClass.ofName? top.text with
      | none =>
        -- A class of no name is reported, and nothing is left of it.
        obtain ⟨before, whole, rest⟩ := exact.pop_pair
        refine .goes before ?_ (.still stacked.tail.tail still.2 rest)
        simp [whole, discards, symbols, kind, suppress, known]
      | some class_ =>
        have made := Tree.Keeps.alloc stacked.forest (.suppress class_)
          -- A class of that name makes a node of the two tokens.
          (modifier.span.through top.span)
        have stands := Tree.stands_alloc parser.tree (.suppress class_)
          (modifier.span.through top.span)
        refine .goes kept ?_ (.item ((stacked.tail.tail.keep made (by simp)).node stands
          stacked.tail.tail.nextId rfl) still.2 (exact.suppression suppress kind known))
        simp [discards, symbols, kind, known]
    · exact absurd rfl acts
  · exact absurd rfl acts

/-- A closing curly bracket that takes part in a rule ends a definition. -/
theorem moves_closeCurly (kind : top.kind = .closeCurly)
    (acts : Phrase.readCloseCurly top phrases ≠ .token top :: phrases) :
    parser.Moves kept (parser.closeCurlyRule? top below) := by
  have stacked : Stacked parser.tree (.token top :: below) (.token top :: phrases) := symbols ▸ shows
  unfold closeCurlyRule?
  dsimp only
  generalize bodyTop : below.head?.bind (Symbol.node? parser.tree .configs) = body
  generalize bodyRest : (if body.isSome = true then below.drop 1 else below) = front
  obtain ⟨stacked', holds⟩ := splitBody_stacked stacked.tail bodyTop bodyRest
  -- The body comes off first, and what is in front of it was still all the time.
  have still' := still.of_suffix (splitBody_suffix phrases)
  unfold Phrase.readCloseCurly at acts
  -- The rule acts only if a curly bracket and a header are found.
  split at acts
  · next opening others cut =>
    rw [cut] at stacked' still'
    split at acts
    · next curly =>
      split at acts
      · next header found =>
        obtain ⟨rest, rfl⟩ := stacked'.exists_token
        obtain ⟨next, made, shows'⟩ := @makeDefinition_yields _ _ _ _ opening top _ _
          stacked'.tail holds found
        simp only [curly, if_true, Header.ofSymbols?, map_eq_of_shows stacked'.tail, found,
          Option.map_some, made]
        refine .goes kept ?_ (.item shows' (still'.2.of_suffix (List.drop_suffix _ _))
          (exact.definition kind cut curly found))
        rw [discards_eq_nil symbols (by rw [kind]; decide) (by rw [kind]; decide), List.append_nil]
      · exact absurd rfl acts
    · exact absurd rfl acts
  · exact absurd rfl acts

end Read

/-- The token on top of a stack takes part in a rule, or nothing is left to do. -/
theorem moves_read {top : Token} (shows : parser.Shows (.token top :: phrases))
    (still : Still phrases) (exact : Exact (.token top :: phrases) kept) :
    parser.Moves kept parser.reduction? := by
  by_cases settled : Phrase.reduce (.token top :: phrases) = .token top :: phrases
  -- A token that stays as it is has no rule, and any other has the one for its kind.
  · exact moves_of_settled shows ⟨settled, still⟩ exact
  · obtain ⟨below, symbols⟩ := Stacked.exists_token shows
    rw [Phrase.reduce] at settled
    rw [reduction?, symbols]
    dsimp only
    -- Each kind of token that phrases are reduced for has its rule.
    split at settled
    · next value =>
      rw [if_pos value]
      exact moves_value symbols shows still exact value
    · next other =>
      rw [if_neg other]
      cases kind : top.kind with
      | semicolon => exact moves_semicolon symbols shows still exact kind (by simpa [kind] using settled)
      | type => exact moves_type symbols shows still exact kind (by simpa [kind] using settled)
      | identifier => exact moves_word symbols shows still exact kind (by simpa [kind] using settled)
      | closeCurly =>
        exact moves_closeCurly symbols shows still exact kind (by simpa [kind] using settled)
      | _ => simp [kind] at settled

/-- The rule for the top of a stack is applied and nothing goes wrong, whatever the stage. -/
theorem Stage.moves (stage : parser.Stage kept) : parser.Moves kept parser.reduction? := by
  -- One case for each stage, with the rule that is next in it.
  cases stage with
  | still shows still exact => exact moves_of_settled shows still exact
  | read shows still exact => exact moves_read shows still exact
  | item shows still exact => exact moves_item shows still exact
  | property symbols stacked stands fresh still exact config count whole =>
    subst whole
    exact moves_property symbols stacked stands fresh still exact config count

/-- At every stage the rule for the top of the stack is carried out without a lapse. -/
theorem Stage.attempt_eq (stage : parser.Stage kept) : parser.attempt = .ofRule parser.reduction? := by
  cases stage with
  | still shows | read shows | item shows => exact shows.attempt_eq
  -- A property shows no phrase of its own, but a node on top needs none.
  | property symbols => exact attempt_eq_of_node symbols

/-- At every stage carrying out a rule has no lapse, and it comes to what the rule does. -/
theorem Stage.carries_out (stage : parser.Stage kept) : (∀ lapse, parser.attempt ≠ .error lapse) ∧
    ∀ next, parser.Reduces next ↔ parser.attempt = .ok (some next) := by
  have moves := stage.moves
  -- The rule is known not to fail, and carrying it out is the rule.
  rw [stage.attempt_eq]
  unfold Reduces
  generalize parser.reduction? = rule at moves
  cases moves with
  | rests => exact ⟨nofun, fun next => ⟨nofun, nofun⟩⟩
  | @goes made rest =>
    refine ⟨nofun, fun next => ?_⟩
    simp [Attempt.ofRule, Attempt.ofTree, Except.mapError, Except.map]

/-- At every stage the stack yields the tokens that it was made of. -/
theorem Stage.yields (stage : parser.Stage kept) :
    parser.tree.Yields parser.stack.symbols kept := by
  cases stage with
  | still shows _ exact | read shows _ exact | item shows _ exact =>
    exact Tree.yields_of_exact shows exact
  | property symbols stacked stands _ _ exact config count whole =>
    -- The tokens of the property follow those of the stack below it.
    rw [symbols, whole]
    exact (Tree.yields_of_exact stacked exact).cons (.property stands config count)

/-- Events change nothing about the stage. -/
theorem Stage.record (stage : parser.Stage kept) (events : List Event) :
    (parser.record events).Stage kept := by
  -- No stage looks at the record.
  cases stage with
  | still shows still exact => exact .still shows still exact
  | read shows still exact => exact .read shows still exact
  | item shows still exact => exact .item shows still exact
  | property symbols stacked stands fresh still exact config count whole =>
    exact .property symbols stacked stands fresh still exact config count whole

/-- When nothing is left to do a token can be read. -/
theorem Moves.shift (moves : parser.Moves kept none) (token : Token) :
    (parser.shift token).Stage (kept ++ [token]) := by
  cases moves with
  | rests shows still exact => exact .read (Stacked.token shows token) still (exact.push token)

end Parser

end ArgSchema
