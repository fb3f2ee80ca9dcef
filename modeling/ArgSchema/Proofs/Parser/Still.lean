import ArgSchema.Proofs.Parser.Single
import Mathlib.Logic.Relation

/-! Still stacks: a reduction of the parser is all the single reductions that a token brings about, and
it leaves a stack that no rule applies to. -/

namespace ArgSchema

namespace Phrase

/-- No rule applies to the phrase on top of others. -/
def Settled : List Phrase → Prop
  | .item given :: below => addItem given below = .item given :: below
  | phrases => reduce phrases = phrases

/-- No rule applied to any phrase once it was on top. -/
def Still : List Phrase → Prop
  | [] => True
  | phrase :: below => Settled (phrase :: below) ∧ Still below

variable {phrases below : List Phrase}

/-- No rule applies to the top of phrases that are still. -/
theorem Still.settled (still : Still phrases) : Settled phrases := by
  -- This is what being still says of the top.
  cases phrases with
  | nil => rfl
  | cons phrase below => exact still.1

/-- Phrases below others that are still are still. -/
theorem Still.of_suffix (still : Still phrases) (behind : below <:+ phrases) : Still below := by
  obtain ⟨front, rfl⟩ := behind
  -- What lies on top of the phrases is taken away one by one.
  induction front with
  | nil => exact still
  | cons phrase front ih => exact ih still.2

/-- Values that go to a list leave phrases still. -/
theorem Still.addValues (still : Still below) (values : List NodeKind) :
    Still (addValues values below) := by
  -- Values join the list on top, or start one on a stack that is still.
  unfold Phrase.addValues
  split
  · exact ⟨rfl, still.2⟩
  · exact ⟨rfl, still⟩

/-- A type that goes to a list leaves phrases still. -/
theorem Still.addType (still : Still below) (name : String) : Still (addType name below) := by
  -- A type joins the list on top, or starts one on a stack that is still.
  unfold Phrase.addType
  split
  · exact ⟨rfl, still.2⟩
  · exact ⟨rfl, still⟩

/-- A property that goes to a list leaves phrases still. -/
theorem Still.addStatement (still : Still below) (statement : Statement) :
    Still (addStatement statement below) := by
  -- A statement joins the list on top, or starts one on a stack that is still.
  unfold Phrase.addStatement
  split
  · exact ⟨rfl, still.2⟩
  · exact ⟨rfl, still⟩

/-- An item that goes to its file, or stays where it is, leaves phrases still. -/
theorem Still.addItem (still : Still below) (given : Item) : Still (addItem given below) := by
  -- An item goes into the file on top, or starts one.
  cases below with
  | nil => exact ⟨rfl, trivial⟩
  | cons first rest =>
    cases first with
    | file before => exact ⟨rfl, still.2⟩
    | _ => exact ⟨rfl, still⟩

/-- What follows the properties on top of phrases are phrases below them. -/
theorem splitBody_suffix (phrases : List Phrase) : (splitBody phrases).2 <:+ phrases := by
  -- A body on top is taken off, and nothing else.
  unfold splitBody
  split
  · exact List.suffix_cons _ _
  · exact List.suffix_refl _

/-- A type stays on top of phrases, or leaves them still. -/
theorem Still.readType (still : Still below) (type : Token) :
    readType type below = .token type :: below ∨ Still (readType type below) := by
  -- A type that is not collected stays a token on top.
  unfold Phrase.readType
  split
  · exact .inr (still.addType _)
  · exact .inl rfl

/-- A word stays on top of phrases, or leaves them still. -/
theorem Still.readWord (still : Still below) (word : Token) :
    readWord word below = .token word :: below ∨ Still (readWord word below) := by
  -- A word that completes no suppression stays a token on top.
  unfold Phrase.readWord
  split
  · -- Behind its modifier the word is a suppression, or both are dropped.
    split
    · split
      · exact .inr (still.2.addItem _)
      · exact .inr still.2
    · exact .inl rfl
  · exact .inl rfl

/-- A semicolon stays on top of phrases, or leaves them still. -/
theorem Still.readSemicolon (still : Still below) (semicolon : Token) :
    readSemicolon semicolon below = .token semicolon :: below ∨
      Still (readSemicolon semicolon below) := by
  -- What the semicolon closes is replaced by something still, or the semicolon stays on top.
  unfold Phrase.readSemicolon
  split
  · split
    · exact .inr still
    · exact .inl rfl
  · exact .inr still
  · -- A property takes the suppressions in front of it, and those below were still.
    split
    · refine .inr ?_
      unfold closeProperty
      rw [List.span_eq_takeWhile_dropWhile]
      exact (still.2.2.of_suffix (List.dropWhile_suffix _)).addStatement _
    · exact .inl rfl
  · exact .inl rfl

/-- A closing curly bracket stays on top of phrases, or leaves them still. -/
theorem Still.readCloseCurly (still : Still below) (closing : Token) :
    readCloseCurly closing below = .token closing :: below ∨
      Still (readCloseCurly closing below) := by
  have inner := still.of_suffix (splitBody_suffix below)
  unfold Phrase.readCloseCurly
  split
  · next opening rest cut =>
    -- A definition takes its header, and what lies below was still.
    rw [cut] at inner
    split
    · split
      · exact .inr ((inner.2.of_suffix (List.drop_suffix _ _)).addItem _)
      · exact .inl rfl
    · exact .inl rfl
  · exact .inl rfl

/-- A token that is reduced on top of phrases that are still leaves them still. -/
theorem Still.reduce (still : Still below) (top : Token) : Still (reduce (.token top :: below)) := by
  have read : Phrase.reduce (.token top :: below) = .token top :: below ∨
      Still (Phrase.reduce (.token top :: below)) := by
    rw [Phrase.reduce]
    -- Values go to their list, and any other token is read by its kind.
    split
    · exact .inr (still.addValues _)
    · split
      · exact still.readSemicolon top
      · exact still.readType top
      · exact still.readWord top
      · exact still.readCloseCurly top
      · exact .inl rfl
  rcases read with same | still'
  · -- A token that nothing is made of is settled on top of the others.
    rw [same]
    exact ⟨same, still⟩
  · exact still'

/-- Phrases whose top is a token that was just read, or none at all. -/
inductive Fresh : List Phrase → Prop
  /-- Nothing was read. -/
  | nil : Fresh []
  /-- A token was read on top of phrases that are still. -/
  | token {below : List Phrase} (given : Token) : Still below → Fresh (.token given :: below)

/-- Reducing what was just read leaves phrases still. -/
theorem Fresh.reduce (fresh : Fresh phrases) : Still (reduce phrases) := by
  -- Without a token there is nothing to reduce, and behind a token reducing ends still.
  cases fresh with
  | nil => exact trivial
  | token given still => exact still.reduce given

end Phrase

namespace Parser

open Relation (ReflTransGen)

variable {parser next : Parser} {tree : Tree} {below : List Symbol} {id : NodeId} {kind : NodeKind}
  {span : Span}

/-- Gathering a node that is on top of the stack collects it with its own span. -/
theorem gather_set (parser : Parser) (marked : tree.mark? id = some (kind, span)) (list : NodeKind)
    (below : List Symbol) : (parser.set tree (.node id :: below)).gather list id below =
      parser.collect tree list below (.node id) span := by
  -- The node is live with that span, which is the one that gathering looks up.
  obtain ⟨node, found, rfl⟩ := Tree.node_of_mark? marked
  rw [gather, show (parser.set tree (.node id :: below)).tree.node id = .ok node from found]
  rfl

/-- A property that was made goes to a list by one more rule. -/
theorem reduction?_config (parser : Parser) (marked : tree.mark? id = some (kind, span))
    (config : kind.type = .config) (below : List Symbol) :
    (parser.set tree (.node id :: below)).reduction? =
      some (parser.collect tree .configs below (.node id) span) := by
  -- The rule for a node asks for a property first.
  rw [← gather_set parser marked]
  have typed : tree.isOfType (.only .config) id = true := by
    rw [Tree.isOfType_of_mark? marked, config]
    rfl
  exact if_pos typed

/-- An item that was made goes to its file by one more rule, or it stays where it is. -/
theorem getD_reduction?_item (parser : Parser) (marked : tree.mark? id = some (kind, span))
    (item : kind.type ∈ NodeTypes.toplevel) (below : List Symbol) :
    (parser.set tree (.node id :: below)).reduction?.getD (.ok (parser.set tree (.node id :: below))) =
      parser.place tree below id span := by
  have typed : tree.isOfType NodeTypes.toplevel id = true := by
    rw [Tree.isOfType_of_mark? marked]
    simpa using item
  -- A property is no part of a file, so the first rule for nodes does not apply.
  have other : ¬tree.isOfType (.only .config) id = true := by
    rw [Tree.isOfType_of_mark? marked, decide_eq_true_eq, NodeTypes.mem_only]
    intro config
    rw [config] at item
    revert item
    decide
  have rule : (parser.set tree (.node id :: below)).reduction? =
      if below.isEmpty || (below.head?.bind (Symbol.node? tree .file)).isSome then
        some (parser.collect tree .file below (.node id) span) else none := by
    rw [← gather_set parser marked]
    exact (if_neg other).trans (if_pos typed)
  rw [rule]
  unfold place
  dsimp only
  split <;> rfl

/-- Closing a property makes it and then applies the rule for it. -/
theorem closeProperty_eq (parser : Parser) (keyword : Token) (values : NodeId) (semicolon : Token)
    (below : List Symbol) : parser.closeProperty keyword values semicolon below =
      (parser.makeProperty keyword values semicolon below).bind fun made =>
        made.reduction?.getD (.ok made) := by
  unfold closeProperty makeProperty
  simp only [List.span_eq_takeWhile_dropWhile]
  generalize (List.takeWhile _ below).reverse ++ _ = parts
  cases attached : (parser.tree.alloc .config (keyword.span.through semicolon.span)).attachAll
      parser.tree.nextId parts with
  | error error => rfl
  | ok grown =>
    -- The new node is a property, which stays so while its parts are hung below it.
    have marked := Tree.mark?_attachAll attached (Tree.mark?_alloc_nextId parser.tree _ _)
    have rule := reduction?_config parser marked rfl
      (below.dropWhile fun symbol => (Symbol.node? parser.tree .suppress symbol).isSome)
    show _ = Option.getD (Parser.reduction? _) _
    rw [rule]
    rfl

/-- Closing a definition makes it and then applies the rule for it, if there is one. -/
theorem closeDefinition_eq (parser : Parser) {header : Header}
    (defines : header.kind.type ∈ NodeTypes.toplevel) (opening : Token) (body : Option NodeId)
    (closing : Token) (below : List Symbol) :
    parser.closeDefinition header opening body closing below =
      (parser.makeDefinition header opening body closing below).bind fun made =>
        made.reduction?.getD (.ok made) := by
  -- The two differ behind the names: one places the definition, the other leaves it on top for the
  -- next rule.
  unfold closeDefinition makeDefinition
  dsimp only
  generalize (if header.kind.type = .metadata then [] else (below.take header.length).reverse) = names
  generalize ((below.take header.length).reverse.head?.bind (Symbol.span? parser.tree)).getD
    opening.span = start
  cases attached : (parser.tree.alloc header.kind (start.through closing.span)).attachAll
      parser.tree.nextId names with
  | error error => rfl
  | ok named =>
    have marked := Tree.mark?_attachAll attached (Tree.mark?_alloc_nextId parser.tree _ _)
    -- With or without a body, the definition keeps its mark and goes to its place.
    have settle : ∀ {grown : Tree},
        grown.mark? parser.tree.nextId = some (header.kind, start.through closing.span) →
        parser.place grown (below.drop header.length) parser.tree.nextId (start.through closing.span) =
          (parser.set grown (.node parser.tree.nextId :: below.drop header.length)).reduction?.getD
            (.ok (parser.set grown (.node parser.tree.nextId :: below.drop header.length))) :=
      fun marked => (getD_reduction?_item parser marked defines _).symm
    cases body with
    -- With properties they are hung below, and nothing is made.
    | some configs =>
      cases linked : named.addChild parser.tree.nextId configs with
      | error error => simp only [bind, Except.bind, linked]
      | ok grown =>
        have kept := (Tree.mark?_addChild linked parser.tree.nextId).trans marked
        simp only [bind, Except.bind, pure, Except.pure, linked]
        exact settle kept
    | none =>
      cases linked : (named.alloc .configs (opening.span.through closing.span)).addChild
          parser.tree.nextId named.nextId with
      | error error => simp only [bind, Except.bind, linked]
      | ok grown =>
        have kept := (Tree.mark?_addChild linked parser.tree.nextId).trans
          (Tree.mark?_alloc_of_mark? _ _ marked)
        simp only [bind, Except.bind, pure, Except.pure, linked]
        exact settle kept

/-- A header defines something that a file is made of. -/
theorem toplevel_of_header {parts : List HeaderPart} {header : Header}
    (headed : Header.ofParts? parts = some header) : header.kind.type ∈ NodeTypes.toplevel := by
  -- Each form of a header names the kind that it defines.
  unfold Header.ofParts? at headed
  split at headed
  · cases headed
    decide
  · cases headed
    decide
  · -- A header with labels or a bracketed name defines an option or a positional argument.
    obtain ⟨names, -, formed⟩ := Option.bind_eq_some_iff.mp headed
    unfold Header.ofForms? at formed
    dsimp only at formed
    split at formed
    · cases formed
      exact (by decide : NodeType.option ∈ NodeTypes.toplevel)
    · split at formed
      · cases formed
      · cases formed
        exact (by decide : NodeType.positional ∈ NodeTypes.toplevel)

/-- How a reduction of the parser is made of single ones, the first by some rule: there is none, there
is one, or what the first one makes goes on to its place if a rule takes it there. -/
inductive Completes (parser : Parser) : Option (Except TreeError Parser) → Except TreeError Parser →
    Prop
  /-- No rule applies. -/
  | idle : Completes parser none (.ok parser)
  /-- One rule does everything. -/
  | once (answer : Except TreeError Parser) : Completes parser (some answer) answer
  /-- Another rule may apply to what the first one makes. -/
  | twice (made : Except TreeError Parser) : Completes parser (some made)
      (made.bind fun middle => middle.reduction?.getD (.ok middle))

/-- A semicolon is dropped by one rule, and ends a property by two. -/
theorem completes_semicolon (parser : Parser) (semicolon : Token) (below : List Symbol) :
    Completes parser (parser.semicolonRule? semicolon below)
      (parser.readSemicolon semicolon below) := by
  unfold readSemicolon semicolonRule?
  cases below with
  | nil => exact .idle
  | cons first rest =>
    cases first with
    | token opening =>
      -- A semicolon behind an opening bracket is dropped by one rule.
      dsimp only
      split
      · exact .once _
      · exact .idle
    | node id =>
      dsimp only
      split
      · exact .once _
      · cases parser.tree.isOfType (.only .values) id with
        | false => exact .idle
        | true =>
          match rest with
          | [] | .node _ :: _ => exact .idle
          | .token keyword :: outer =>
            -- A property is made by one rule and goes to its list by another.
            dsimp only
            split
            · rw [closeProperty_eq]
              exact .twice _
            · exact .idle

/-- A type goes to its list by one rule. -/
theorem completes_type (parser : Parser) (type : Token) (below : List Symbol) :
    Completes parser (parser.typeRule? type below) (parser.readType type below) := by
  -- Collecting a type is one rule, and there is nothing to do behind it.
  unfold readType typeRule?
  dsimp only
  split
  · exact .once _
  · exact .idle

/-- A word of an unknown class is dropped by one rule, and a suppression is made and goes to its file
by two. -/
theorem completes_word (parser : Parser) (word : Token) (below : List Symbol) :
    Completes parser (parser.wordRule? word below) (parser.readWord word below) := by
  unfold readWord wordRule?
  match below with
  | [] | .node _ :: _ => exact .idle
  | .token modifier :: rest =>
    dsimp only
    split
    · cases WarningClass.ofName? word.text with
      | some kind =>
        -- The suppression that is made goes to its file by a rule of its own.
        have settle := getD_reduction?_item (parser.record [.suppress kind])
          (Tree.mark?_alloc_nextId parser.tree (.suppress kind) (modifier.span.through word.span))
          (show NodeType.suppress ∈ NodeTypes.toplevel by decide) rest
        dsimp only
        rw [← settle]
        exact .twice (.ok _)
      | none => exact .once _
    · exact .idle

/-- A definition is made and goes to its file by two rules. -/
theorem completes_closeCurly (parser : Parser) (closing : Token) (below : List Symbol) :
    Completes parser (parser.closeCurlyRule? closing below) (parser.readCloseCurly closing below) := by
  unfold readCloseCurly closeCurlyRule?
  dsimp only
  generalize below.head?.bind (Symbol.node? parser.tree .configs) = body
  -- Without an opening bracket and a header nothing is done; otherwise a definition is made, which
  -- a second rule adds to the file.
  match if body.isSome then below.drop 1 else below with
  | [] | .node _ :: _ => exact .idle
  | .token opening :: rest =>
    dsimp only
    split
    · cases headed : Header.ofSymbols? parser.tree rest with
      | none => exact .idle
      | some header =>
        dsimp only
        rw [closeDefinition_eq parser (toplevel_of_header headed)]
        exact .twice _
    · exact .idle

/-- A reduction of the parser is made of single ones. -/
theorem completes_reduce {token : Token} (top : parser.stack.symbols = .token token :: below) :
    Completes parser parser.reduction? parser.reduce := by
  -- The rule for a token depends on its kind alone.
  unfold reduce reduction?
  rw [top]
  dsimp only
  split
  · exact .once _
  · -- One rule for each kind of token that closes something; all others do nothing.
    cases kind : token.kind with
    | semicolon => exact completes_semicolon ..
    | type => exact completes_type ..
    | identifier => exact completes_word ..
    | closeCurly => exact completes_closeCurly ..
    | _ => exact .idle

/-- What a reduction comes to is what was there before, or it comes from one or two single ones. -/
theorem Completes.of_ok {rule : Option (Except TreeError Parser)} {whole : Except TreeError Parser}
    (completes : Completes parser rule whole) (done : whole = .ok next) :
    (rule = none ∧ next = parser) ∨
      ∃ middle, rule = some (.ok middle) ∧ (next = middle ∨ middle.Reduces next) := by
  -- The three ways in which a reduction completes, each read backwards.
  cases completes with
  | idle =>
    cases done
    exact .inl ⟨rfl, rfl⟩
  | once answer =>
    subst done
    exact .inr ⟨next, rfl, .inl rfl⟩
  | twice made =>
    obtain ⟨middle, rfl, rest⟩ := ok_of_bind done
    -- The second rule applies to what the first one made, or what it made stays.
    refine .inr ⟨middle, rfl, ?_⟩
    unfold Reduces
    revert rest
    cases middle.reduction? with
    | none => exact fun rest => .inl (Except.ok.inj rest).symm
    | some answer => exact fun rest => .inr (congrArg some rest)

variable {phrases : List Phrase}

/-- What is left to be reduced below a token is told by what the stack shows. -/
theorem Shows.load_eq {token : Token} (shows : parser.Shows (.token token :: phrases)) :
    parser.load = 3 * (phrases.length + 1) + 2 := by
  -- The stack has a symbol for each phrase, and a token on top counts two more.
  have length := shows.shown.length_eq
  rw [List.length_map, List.length_cons] at length
  cases top : parser.stack.symbols with
  | nil =>
    have stacked : Stacked parser.tree [] (.token token :: phrases) := top ▸ shows
    cases stacked.nil
  | cons symbol below =>
    have stacked : Stacked parser.tree (symbol :: below) (.token token :: phrases) := top ▸ shows
    cases symbol with
    | node => cases stacked.head
    | token =>
      rw [load, length, pending, top]

/-- No rule applies to a node that is neither a property nor part of a file. -/
theorem reduction?_inert (top : parser.stack.symbols = .node id :: below)
    (config : parser.tree.isOfType (.only .config) id = false)
    (item : parser.tree.isOfType NodeTypes.toplevel id = false) : parser.reduction? = none := by
  rw [reduction?, top]
  simp only [config, item, Bool.false_eq_true, if_false]

/-- No rule applies to a part of a file that has something in front of it which is no file. -/
theorem reduction?_blocked (top : parser.stack.symbols = .node id :: below)
    (config : parser.tree.isOfType (.only .config) id = false)
    (blocked : (below.isEmpty ||
      (below.head?.bind (Symbol.node? parser.tree .file)).isSome) = false) :
    parser.reduction? = none := by
  rw [reduction?, top]
  simp only [config, blocked, Bool.false_eq_true, if_false, ite_self]

/-- No rule applies to a node that shows a settled phrase. -/
theorem reduction?_of_node {phrase : Phrase} (top : parser.stack.symbols = .node id :: below)
    (stacked : Stacked parser.tree (.node id :: below) (phrase :: phrases))
    (settled : Phrase.Settled (phrase :: phrases)) : parser.reduction? = none := by
  -- A node on top is taken up by a rule only if it is a property or an item.
  have inert : ∀ {kind : NodeKind} {outlines : List Outline},
      parser.tree.Stands id (.node kind outlines) → kind.type ≠ .config →
      kind.type ∉ NodeTypes.toplevel → parser.reduction? = none := by
    intro kind outlines stands config item
    have type : (Outline.node kind outlines).type = kind.type := rfl
    refine reduction?_inert top ?_ ?_ <;>
      simp only [stands.isOfType, type, NodeTypes.mem_only, config, item, decide_false]
  cases phrase with
  | token => cases stacked.head
  | item given =>
    have stands : parser.tree.Stands id given.outline := stacked.head
    refine reduction?_blocked top ?_ ?_
    · -- An item is no property.
      rw [stands.isOfType, decide_eq_false_iff_not, NodeTypes.mem_only]
      intro config
      have item := Phrase.item_accepted given
      rw [config] at item
      revert item
      decide
    · -- An item alone or behind a file would go to a file, and so would not be settled.
      cases below with
      | nil =>
        rw [stacked.tail.nil] at settled
        cases settled
      | cons first others =>
        obtain ⟨phrase, phrases, rfl⟩ := stacked.tail.uncons
        have file := stacked.tail.head.node? .file
        simp only [List.isEmpty_cons, Bool.false_or, List.head?_cons, Option.bind_some, file,
          decide_eq_false_iff_not]
        intro typed
        obtain ⟨items, rfl⟩ := Phrase.of_type? typed
        cases settled
  -- Lists are neither, and no rule takes them up from the top.
  | values given => exact inert stacked.head (by decide) (by decide)
  | types names => exact inert stacked.head (by decide) (by decide)
  | configs statements => exact inert stacked.head (by decide) (by decide)
  | file items => exact inert stacked.head (by decide) (by decide)

/-- No rule applies to a stack that shows a settled phrase on top. -/
theorem Shows.reduction?_eq_none (shows : parser.Shows phrases) (settled : Phrase.Settled phrases) :
    parser.reduction? = none := by
  cases top : parser.stack.symbols with
  | nil => rw [reduction?, top]
  | cons symbol below =>
    have stacked : Stacked parser.tree (symbol :: below) phrases := top ▸ shows
    obtain ⟨phrase, rest, rfl⟩ := stacked.uncons
    cases symbol with
    | node id => exact reduction?_of_node top stacked settled
    | token token =>
      cases phrase with
      | token given =>
        -- A rule would leave less to be reduced, but the stack shows the same.
        obtain ⟨next, done, shows'⟩ := reduce_yields shows
        rw [show Phrase.reduce (.token given :: rest) = .token given :: rest from settled] at shows'
        have same : next.load = parser.load := shows'.load_eq.trans shows.load_eq.symm
        rcases (completes_reduce top).of_ok done with ⟨none, -⟩ | ⟨middle, first, rfl | second⟩
        · exact none
        · exact absurd (Reduces.load_lt first) (by omega)
        · have := Reduces.load_lt first
          have := second.load_lt
          omega
      | _ => cases stacked.head

/-- A reduction of the parser applies every rule that a token brings about: single reductions lead to
what it leaves, and no rule applies to that. -/
theorem Shows.reduce_settles (shows : parser.Shows phrases) (fresh : Phrase.Fresh phrases) :
    ∃ next, parser.reduce = .ok next ∧ ReflTransGen Reduces parser next ∧ next.reduction? = none ∧
      next.Shows (Phrase.reduce phrases) ∧ Phrase.Still (Phrase.reduce phrases) := by
  obtain ⟨next, done, shows'⟩ := reduce_yields shows
  -- What phrases are reduced to is still, so the stack that shows them has no rule left.
  have still := fresh.reduce
  refine ⟨next, done, ?_, shows'.reduction?_eq_none still.settled, shows', still⟩
  cases top : parser.stack.symbols with
  | nil =>
    rw [reduce, top] at done
    cases done
    exact .refl
  | cons symbol below =>
    have stacked : Stacked parser.tree (symbol :: below) phrases := top ▸ shows
    cases fresh with
    | nil => cases stacked.shown
    | token given =>
      cases symbol with
      | node => cases stacked.head
      | token =>
        -- The reduction was no rule, one rule or two of them.
        rcases (completes_reduce top).of_ok done with ⟨-, rfl⟩ | ⟨middle, first, rfl | second⟩
        · exact .refl
        · exact .single first
        · exact .head first (.single second)

end Parser

end ArgSchema
