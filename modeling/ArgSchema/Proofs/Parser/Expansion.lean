import ArgSchema.Proofs.Parser.Soundness
import ArgSchema.Proofs.Parser.Stacked

/-! Expansions: the tokens that the symbols of a stack were made of, without any that were dropped. -/

namespace ArgSchema

/-- Number of semicolons among tokens. -/
def Token.semicolons (tokens : List Token) : Nat := tokens.countP (·.kind = .semicolon)

/-- The properties of an item. -/
def Item.statements : Item → List Statement
  | .suppress _ => []
  | .definition given => given.body

namespace Token

/-- No tokens have no semicolons. -/
@[simp] theorem semicolons_nil : semicolons [] = 0 := rfl

/-- Semicolons of tokens behind others are counted together. -/
@[simp] theorem semicolons_append (first second : List Token) :
    semicolons (first ++ second) = semicolons first + semicolons second := List.countP_append

/-- A first token is counted with the others. -/
theorem semicolons_cons (token : Token) (rest : List Token) :
    semicolons (token :: rest) = semicolons [token] + semicolons rest :=
  semicolons_append [token] rest

/-- A semicolon counts. -/
theorem semicolons_of_kind {token : Token} (kind : token.kind = .semicolon) :
    semicolons [token] = 1 := by
  simp [semicolons, kind]

/-- Any other token does not count. -/
theorem semicolons_of_other {token : Token} (other : token.kind ≠ .semicolon) :
    semicolons [token] = 0 := by
  simp [semicolons, other]

end Token

namespace Grammar

variable {tokens : List Token}

/-- Repetitions have as many semicolons as are needed for each of them. -/
theorem Sequence.length_flatMap_le {α β : Type} {Phrase : α → List Token → Prop} {items : List α}
    {need : α → List β}
    (each : ∀ {item last}, Phrase item last → (need item).length ≤ Token.semicolons last)
    (listed : Sequence Phrase items tokens) :
    (items.flatMap need).length ≤ Token.semicolons tokens := by
  induction listed with
  | none => exact Nat.le_refl 0
  | more _ last ih =>
    -- Each repetition brings its own tokens.
    have more := each last
    simp only [List.flatMap_append, List.flatMap_singleton, List.length_append,
      Token.semicolons_append]
    omega

/-- A property ends with a semicolon. -/
theorem Config.semicolons_pos {statement : Statement} (config : Config statement tokens) :
    1 ≤ Token.semicolons tokens := by
  cases config with
  | statement _ _ _ _ closing _ =>
    -- The semicolon behind the values is one, whatever strays follow it.
    rw [Token.semicolons_append, Token.semicolons_cons, Token.semicolons_of_kind closing]
    omega

/-- Each of some properties ends with a semicolon. -/
theorem length_le_semicolons {statements : List Statement}
    (listed : Sequence Config statements tokens) : statements.length ≤ Token.semicolons tokens := by
  simpa using @Sequence.length_flatMap_le _ _ Statement _ _ (fun statement => [statement])
    Config.semicolons_pos listed

/-- An item has a semicolon for each of its properties. -/
theorem FileItem.semicolons_le {item : Item} (given : FileItem item tokens) :
    item.statements.length ≤ Token.semicolons tokens := by
  cases given with
  | suppress => exact Nat.zero_le _
  | definition defined =>
    cases defined with
    | definition _ body =>
      cases body with
      | braces _ _ listed _ =>
        -- The properties stand between the brackets.
        have properties := length_le_semicolons listed
        simp only [Item.statements, Token.semicolons_append]
        rw [Token.semicolons_cons]
        omega

end Grammar

namespace Phrase

/-- Number of semicolons that a phrase is made of: the token that it is, or those that end its
properties. -/
def semicolons : Phrase → Nat
  | .token given => Token.semicolons [given]
  | .values _ | .types _ => 0
  | .configs statements => statements.length
  | .item given => given.statements.length
  | .file items => (items.flatMap Item.statements).length

/-- Number of semicolons that phrases are made of. -/
def closings (phrases : List Phrase) : Nat :=
  phrases.foldr (fun phrase rest => phrase.semicolons + rest) 0

variable {phrase : Phrase} {phrases below : List Phrase} {tokens kept : List Token}

/-- No phrases are made of no semicolons. -/
@[simp] theorem closings_nil : closings [] = 0 := rfl

/-- A phrase on top is counted with the others. -/
@[simp] theorem closings_cons (phrase : Phrase) (below : List Phrase) :
    closings (phrase :: below) = phrase.semicolons + closings below := rfl

/-- Phrases on top of others are counted with them. -/
@[simp] theorem closings_append (front below : List Phrase) :
    closings (front ++ below) = closings front + closings below := by
  -- By induction on the phrases in front.
  induction front with
  | nil => rw [List.nil_append, closings_nil, Nat.zero_add]
  | cons phrase front ih => rw [List.cons_append, closings_cons, closings_cons, ih, Nat.add_assoc]

/-- What a phrase is spelled by has the semicolons that it is made of, and more if any were dropped. -/
theorem Derives.semicolons_le (derived : Derives phrase tokens) :
    phrase.semicolons ≤ Token.semicolons tokens := by
  cases derived with
  | token => exact Nat.le_refl _
  | opening =>
    -- Semicolons behind an opening bracket count only among the tokens.
    rw [Token.semicolons_cons]
    exact Nat.le_add_right _ _
  | values | types => exact Nat.zero_le _
  | configs _ listed => exact Grammar.length_le_semicolons listed
  | item given => exact given.semicolons_le
  | file given =>
    cases given with
    | items _ listed => exact listed.length_flatMap_le Grammar.FileItem.semicolons_le

/-- What phrases are spelled by has the semicolons that they are made of. -/
theorem Spells.closings_le (spelled : Spells phrases tokens) :
    closings phrases ≤ Token.semicolons tokens := by
  -- By induction on the phrases, each of which has a semicolon for each property in it.
  induction spelled with
  | nothing => exact Nat.le_refl 0
  | more _ derived ih =>
    have last := derived.semicolons_le
    rw [closings_cons, Token.semicolons_append]
    omega

/-- Phrases are spelled by tokens of which none was dropped: each semicolon is a part of them. -/
structure Exact (phrases : List Phrase) (kept : List Token) : Prop where
  /-- The tokens spell the phrases. -/
  spells : Spells phrases kept
  /-- There are no more semicolons than the phrases are made of. -/
  count : Token.semicolons kept = closings phrases

/-- Values are made of no semicolons. -/
@[simp] theorem closings_addValues (values : List NodeKind) (below : List Phrase) :
    closings (addValues values below) = closings below := by
  unfold addValues
  split <;> simp [semicolons]

/-- Types are made of no semicolons. -/
@[simp] theorem closings_addType (name : String) (below : List Phrase) :
    closings (addType name below) = closings below := by
  unfold addType
  split <;> simp [semicolons]

/-- A property is made of one semicolon more. -/
@[simp] theorem closings_addStatement (statement : Statement) (below : List Phrase) :
    closings (addStatement statement below) = closings below + 1 := by
  unfold addStatement
  -- The property goes to a list that was begun or begins one.
  split <;> simp [semicolons] <;> omega

/-- An item is made of the semicolons of its properties. -/
@[simp] theorem closings_addItem (item : Item) (below : List Phrase) :
    closings (addItem item below) = closings below + item.statements.length := by
  unfold addItem
  split <;> simp [semicolons] <;> omega

/-- Suppressions are made of no semicolons. -/
theorem closings_dropWhile (phrases : List Phrase) :
    closings (phrases.dropWhile fun phrase => phrase.suppression?.isSome) = closings phrases := by
  induction phrases with
  | nil => rfl
  | cons phrase below ih =>
    rw [List.dropWhile_cons]
    split
    · next mark =>
      -- A suppression is made of none, so the others count alone.
      rw [ih, closings_cons]
      obtain ⟨kind, given⟩ := Option.isSome_iff_exists.mp mark
      unfold suppression? at given
      split at given <;> cases given
      exact (Nat.zero_add _).symm
    · rfl

/-- The properties on top of phrases are counted with those below. -/
theorem closings_splitBody (phrases : List Phrase) :
    closings phrases = (splitBody phrases).1.length + closings (splitBody phrases).2 := by
  -- A body on top has its properties, and without one there are none.
  unfold splitBody
  split
  · rfl
  · exact (Nat.zero_add _).symm

/-- Tokens in front of a body, in brackets or without them, are no semicolons if none between the
brackets is. -/
theorem closings_inSquares {Front : List Phrase → Prop} {optional : Bool} {front : List Phrase}
    (inner : ∀ {front}, Front front → closings front = 0) (given : InSquares Front optional front) :
    closings front = 0 := by
  cases given with
  | bare bare => exact inner bare
  | brackets closing given opening =>
    -- The brackets are no semicolons either.
    simp [semicolons, inner given, Token.semicolons_of_other, closing, opening]

/-- No names are semicolons. -/
theorem closings_names {labelled : Bool} {labels : List Label} {front : List Phrase}
    (given : NamesFront labelled labels front) : closings front = 0 := by
  cases given <;> simp [semicolons, Token.semicolons_of_other, *]

/-- No types are semicolons. -/
theorem closings_types {variadic : Bool} {names : List String} {front : List Phrase}
    (given : TypesFront names variadic front) : closings front = 0 := by
  cases given <;> simp [semicolons, Token.semicolons_of_other, *]

/-- No header has a semicolon. -/
theorem closings_headed {heading : Heading} {front : List Phrase} (headed : Headed heading front) :
    closings front = 0 := by
  -- No part of a heading closes a property.
  cases headed with
  | metadata | typeDefinition => simp [semicolons, Token.semicolons_of_other, *]
  | flag names => exact closings_inSquares closings_names names
  | positional names types | option names types =>
    rw [closings_append, closings_inSquares closings_names names,
      closings_inSquares closings_types types]

namespace Exact

/-- Nothing is made of nothing. -/
theorem nothing : Exact [] [] := ⟨.nothing, rfl⟩

/-- A token that is read is one more token that phrases are made of. -/
theorem push (exact : Exact phrases kept) (given : Token) :
    Exact (.token given :: phrases) (kept ++ [given]) := by
  -- The token is the last one that is spelled, and it counts among the phrases as it does there.
  refine ⟨exact.spells.push given, ?_⟩
  rw [Token.semicolons_append, exact.count, closings_cons, Nat.add_comm]
  rfl

/-- Both the phrase on top and those below it are made of tokens of which none was dropped. -/
theorem pop (exact : Exact (phrase :: below) kept) :
    ∃ before last, kept = before ++ last ∧ Exact below before ∧ Derives phrase last ∧
      Token.semicolons last = phrase.semicolons := by
  obtain ⟨before, last, rfl, spells, derived⟩ := exact.spells.pop
  have count := exact.count
  have least := spells.closings_le
  have least' := derived.semicolons_le
  rw [Token.semicolons_append, closings_cons] at count
  -- Neither part can have more semicolons, as the other would have fewer then.
  exact ⟨before, last, rfl, ⟨spells, by omega⟩, derived, by omega⟩

/-- A token on top is the last one. -/
theorem pop_token {given : Token} (exact : Exact (.token given :: below) kept) :
    ∃ before, kept = before ++ [given] ∧ Exact below before := by
  obtain ⟨before, last, rfl, rest, derived, count⟩ := exact.pop
  cases derived with
  | token => exact ⟨before, rfl, rest⟩
  -- An opening bracket could have strays behind it, but they would be one semicolon too many.
  | @opening _ strays _ dropped =>
    -- Semicolons behind a bracket would be too many.
    rw [Token.semicolons_cons] at count
    have none : Token.semicolons strays = 0 := by simpa [semicolons] using count
    cases strays with
    | nil => exact ⟨before, rfl, rest⟩
    | cons stray strays =>
      rw [Token.semicolons_cons, Token.semicolons_of_kind (dropped stray (List.mem_cons_self))]
        at none
      omega

/-- Two tokens on top are the last two. -/
theorem pop_pair {first second : Token}
    (exact : Exact (.token second :: .token first :: below) kept) :
    ∃ before, kept = before ++ [first, second] ∧ Exact below before := by
  -- The second is taken off, and then the first.
  obtain ⟨middle, rfl, rest⟩ := exact.pop_token
  obtain ⟨before, rfl, others⟩ := rest.pop_token
  exact ⟨before, by simp, others⟩

/-- A value that goes to its list is one more token of it. -/
theorem addValues (exact : Exact phrases kept) {value : Token} (isValue : value.kind.isValue = true) :
    Exact (Phrase.addValues value.leaf?.toList phrases) (kept ++ [value]) := by
  refine ⟨exact.spells.addValues isValue, ?_⟩
  -- Neither the list nor the new token counts a semicolon.
  have other : value.kind ≠ .semicolon := by
    intro kind
    rw [kind] at isValue
    cases isValue
  rw [Token.semicolons_append, exact.count, closings_addValues, Token.semicolons_of_other other]
  rfl

/-- A type that goes to its list is one more token of it. -/
theorem addType (exact : Exact phrases kept) {type : Token} (kind : type.kind = .type) :
    Exact (Phrase.addType type.text phrases) (kept ++ [type]) := by
  -- A type adds no semicolon and closes no property.
  refine ⟨exact.spells.addType kind, ?_⟩
  rw [Token.semicolons_append, exact.count, closings_addType,
    Token.semicolons_of_other (by rw [kind]; decide)]
  rfl

/-- A property that goes to its list brings the tokens that it was made of. -/
theorem addStatement (exact : Exact phrases kept) {statement : Statement} {last : List Token}
    (added : Grammar.Config statement last) (count : Token.semicolons last = 1) :
    Exact (Phrase.addStatement statement phrases) (kept ++ last) := by
  refine ⟨exact.spells.addStatement added, ?_⟩
  rw [Token.semicolons_append, exact.count, closings_addStatement, count]

/-- An item that goes to its file brings the tokens that it was made of. -/
theorem addItem {item : Item} (exact : Exact (.item item :: phrases) kept) :
    Exact (Phrase.addItem item phrases) kept := by
  -- The item is counted where it is, on top or in the file.
  obtain ⟨before, last, rfl, rest, derived, count⟩ := exact.pop
  cases derived with
  | item given =>
    refine ⟨rest.spells.addItem given, ?_⟩
    rw [Token.semicolons_append, rest.count, closings_addItem, count]
    rfl

/-- A suppression is made of its modifier and its word. -/
theorem suppression {modifier word : Token} {kind : WarningClass}
    (exact : Exact (.token word :: .token modifier :: below) kept)
    (suppress : modifier.isSuppress = true) (identifier : word.kind = .identifier)
    (known : WarningClass.ofName? word.text = some kind) :
    Exact (.item (.suppress kind) :: below) kept := by
  obtain ⟨before, rfl, rest⟩ := exact.pop_pair
  refine ⟨rest.spells.more (.item (.suppress (.pair suppress identifier known))), ?_⟩
  -- The modifier and the word are no semicolons, and a suppression needs none.
  have other : modifier.kind ≠ .semicolon := by
    intro kind
    simp [Token.isSuppress, kind] at suppress
  rw [Token.semicolons_append, Token.semicolons_cons, Token.semicolons_of_other other,
    Token.semicolons_of_other (by rw [identifier]; decide), rest.count, closings_cons]
  exact Nat.add_comm _ _

/-- A property is made of the suppressions in front of its keyword, the keyword, its values and one
semicolon. -/
theorem property {word semicolon : Token} {keyword : Label} {given : List NodeKind}
    (exact : Exact (.token semicolon :: .values given :: .token word :: phrases) kept)
    (named : word.keyword? = some keyword) (kind : semicolon.kind = .semicolon) :
    ∃ before last, kept = before ++ last ∧
      Exact (phrases.dropWhile fun phrase => phrase.suppression?.isSome) before ∧
      Grammar.Config ⟨(phrases.takeWhile fun phrase => phrase.suppression?.isSome).reverse.filterMap
        suppression?, keyword, given⟩ last ∧ Token.semicolons last = 1 := by
  obtain ⟨outer, rfl, rest⟩ := exact.pop_token
  have count := rest.count
  -- What the property is spelled by is known; what is left to show is how many semicolons it has.
  obtain ⟨before, last, same, spells, config⟩ := rest.spells.property named kind
  have total := congrArg Token.semicolons same
  have least := spells.closings_le
  have least' := config.semicolons_pos
  have other : word.kind ≠ .semicolon := by
    intro kind
    simp [Token.keyword?, Token.isKeyword, kind] at named
  -- The one semicolon that came in is the one that the property needs.
  simp only [Token.semicolons_append, Token.semicolons_of_kind kind, count, closings_cons, semicolons,
    Token.semicolons_of_other other] at total
  rw [closings_dropWhile] at least
  exact ⟨before, last, same, ⟨spells, by rw [closings_dropWhile]; omega⟩, config, by omega⟩

/-- A definition is made of its header, its brackets and its properties. -/
theorem definition {closing opening : Token} {rest : List Phrase} {header : Header}
    (exact : Exact (.token closing :: phrases) kept) (kind : closing.kind = .closeCurly)
    (front : (Phrase.splitBody phrases).2 = .token opening :: rest)
    (curly : opening.kind = .openCurly)
    (found : Header.ofParts? (rest.map part) = some header) :
    Exact (.item (.definition ⟨heading header.kind (rest.take header.length).reverse,
      (Phrase.splitBody phrases).1⟩) :: rest.drop header.length) kept := by
  obtain ⟨outer, rfl, inner⟩ := exact.pop_token
  obtain ⟨before, last, same, spells, defined⟩ := inner.spells.definition kind front curly found
  refine ⟨same ▸ spells.more (.item defined), ?_⟩
  obtain ⟨given, used, others, rfl, length, -, headed⟩ := headed_of_parts found
  -- Neither the header nor the brackets have a semicolon.
  rw [Token.semicolons_append, inner.count, closings_splitBody phrases, front, closings_cons,
    closings_append, closings_headed headed, length, List.drop_left, closings_cons,
    Token.semicolons_of_other (by rw [kind]; decide)]
  simp only [semicolons, Token.semicolons_of_other (show opening.kind ≠ .semicolon by
    rw [curly]; decide), Item.statements]
  omega

end Exact

end Phrase

/-- The tokens that a symbol was made of, none of which was dropped. -/
inductive Tree.Expands (tree : Tree) : Symbol → List Token → Prop
  /-- A token is itself. -/
  | token (given : Token) : Expands tree (.token given) [given]
  /-- The node of a phrase was made of tokens that spell it. -/
  | phrase {id : NodeId} {outline : Outline} {phrase : Phrase} {tokens : List Token} :
      tree.Stands id outline → phrase.piece = .node outline → phrase.Derives tokens →
      Token.semicolons tokens = phrase.semicolons → Expands tree (.node id) tokens
  /-- The node of a property was made of tokens that spell it, with the one semicolon that ends it. -/
  | property {id : NodeId} {statement : Statement} {tokens : List Token} :
      tree.Stands id statement.outline → Grammar.Config statement tokens →
      Token.semicolons tokens = 1 → Expands tree (.node id) tokens

/-- Symbols, each with the tokens that it was made of, are some tokens; the top symbol comes first. -/
def Tree.Yields (tree : Tree) (symbols : List Symbol) (kept : List Token) : Prop :=
  ∃ expansions, List.Forall₂ tree.Expands symbols.reverse expansions ∧ expansions.flatten = kept

namespace Tree

variable {tree : Tree} {symbol : Symbol} {symbols : List Symbol} {kept last : List Token}

/-- No symbols are no tokens. -/
theorem Yields.nil : tree.Yields [] [] := ⟨[], .nil, rfl⟩

/-- A symbol on top of others brings the tokens that it was made of. -/
theorem Yields.cons (yields : tree.Yields symbols kept) (expands : tree.Expands symbol last) :
    tree.Yields (symbol :: symbols) (kept ++ last) := by
  obtain ⟨expansions, each, rfl⟩ := yields
  refine ⟨expansions ++ [last], ?_, by simp⟩
  -- The top symbol comes last from the bottom up.
  rw [List.reverse_cons]
  exact List.rel_append each (.cons expands .nil)

/-- Symbols that show phrases were made of the tokens that the phrases are made of. -/
theorem yields_of_exact {phrases : List Phrase} (stacked : Stacked tree symbols phrases)
    (exact : Phrase.Exact phrases kept) : tree.Yields symbols kept := by
  -- Symbol by symbol from the top, each takes its own tokens from the end.
  induction symbols generalizing phrases kept with
  | nil =>
    obtain rfl := stacked.nil
    cases exact.spells
    exact .nil
  | cons symbol below ih =>
    obtain ⟨phrase, others, rfl⟩ := stacked.uncons
    have shown := stacked.head
    cases symbol with
    -- A token on the stack takes itself.
    | token given =>
      cases phrase with
      | token =>
        cases shown
        obtain ⟨before, rfl, rest⟩ := exact.pop_token
        exact (ih stacked.tail rest).cons (.token given)
      | _ => cases shown
    -- A node takes the tokens of its derivation.
    | node id =>
      obtain ⟨before, last, rfl, rest, derived, count⟩ := exact.pop
      refine (ih stacked.tail rest).cons ?_
      cases same : phrase.piece with
      | token =>
        rw [same] at shown
        cases shown
      | node outline =>
        rw [same] at shown
        exact .phrase shown same derived count

end Tree

end ArgSchema
