import ArgSchema.Proofs.Parser.Collecting
import Mathlib.Data.List.Nodup
import Mathlib.Data.List.TakeDrop
import Mathlib.Data.List.TakeWhile

/-! Closing brackets and semicolons: definitions and properties take the parts in front of them. -/

namespace ArgSchema

/-- The nodes of symbols in the other order. -/
theorem Symbol.ids_reverse (symbols : List Symbol) :
    Symbol.ids symbols.reverse = (Symbol.ids symbols).reverse := by
  simp [Symbol.ids, List.filterMap_reverse]

/-- Lists that agree one by one split at the same place. -/
theorem forall₂_span {α β : Type} {R : α → β → Prop} {p : α → Bool} {q : β → Bool}
    {as : List α} {bs : List β} (related : List.Forall₂ R as bs)
    (agree : ∀ {a b}, R a b → p a = q b) :
    List.Forall₂ R (as.takeWhile p) (bs.takeWhile q) ∧
      List.Forall₂ R (as.dropWhile p) (bs.dropWhile q) := by
  induction related with
  | nil => exact ⟨.nil, .nil⟩
  | @cons a b as bs head tail ih =>
    -- The heads agree, so either both lists go on or both stop.
    simp only [List.takeWhile_cons, List.dropWhile_cons, agree head]
    cases q b
    · exact ⟨.nil, .cons head tail⟩
    · exact ⟨.cons head ih.1, ih.2⟩

/-- A new node takes the pieces that parts show, which leaves the other symbols as they are. -/
theorem Stacked.attachAll {tree : Tree} {others parts : List Symbol} {phrases : List Phrase}
    {pieces : List Piece} (stacked : Stacked tree others phrases) (kind : NodeKind) (span : Span)
    (shown : List.Forall₂ tree.Shows parts pieces) (once : (Symbol.ids parts).Nodup)
    (apart : ∀ id ∈ Symbol.ids parts, id ∉ Symbol.ids others)
    (accepted : ∀ outline ∈ pieces.filterMap Piece.outline?, outline.type ∈ kind.type.whitelist)
    (room : ∀ max, kind.type.maxChildren? = some max →
      (pieces.filterMap Piece.outline?).length ≤ max) :
    ∃ after, (tree.alloc kind span).attachAll tree.nextId parts = .ok after ∧
      Stacked after others phrases ∧
      (∀ {id outline}, id ∉ Symbol.ids parts → tree.Stands id outline → after.Stands id outline) ∧
      after.Stands tree.nextId (.node kind (pieces.filterMap Piece.outline?)) := by
  have made := Tree.Keeps.alloc stacked.forest kind span
  -- The new node is none of the parts, as those are live.
  have fresh : tree.nextId ∉ Symbol.ids parts := by
    intro member
    obtain ⟨node, found, -⟩ := Tree.live_of_shows shown _ member
    exact Tree.ne_nextId found rfl
  -- So they can all be hung below it, one after the other.
  obtain ⟨after, attached, kept, stands⟩ := Tree.attachAll_stands made.forest
    (Tree.stands_alloc tree kind span) (made.showsAll (by simp) shown)
    (List.nodup_cons.mpr ⟨fresh, once⟩)
    (fun piece member outline given =>
      accepted outline (List.mem_filterMap.mpr ⟨piece, member, given⟩))
    (by simpa using room)
  refine ⟨after, attached, (stacked.keep made (by simp)).keep kept ?_, ?_, stands⟩
  · -- Only the new node and the parts are used, and none of them is on the rest of the stack.
    intro id member used
    rcases List.mem_cons.mp used with rfl | used
    · exact stacked.nextId member
    · exact apart id used member
  · intro id outline unused given
    refine kept.stands ?_ (made.stands (by simp) given)
    rw [List.mem_cons, not_or]
    exact ⟨given.ne_nextId, unused⟩

namespace Parser

variable {parser : Parser} {below : List Symbol} {phrases : List Phrase}

/-- Suppressions on a stack are those of its phrases. -/
theorem suppression?_eq {tree : Tree} {symbol : Symbol} {phrase : Phrase}
    (shown : tree.Shows symbol phrase.piece) :
    (symbol.node? tree .suppress).isSome = phrase.suppression?.isSome := by
  rw [shown.node?]
  -- No outline of a definition is that of a suppression.
  cases phrase with
  | item item =>
    cases item with
    | suppress => rfl
    | definition given =>
      obtain ⟨⟨form, names, types⟩, body⟩ := given
      cases form <;> rfl
  | _ => rfl

/-- Suppressions hold what they suppress. -/
theorem outlines_of_suppressions {marks : List Phrase}
    (all : ∀ phrase ∈ marks, phrase.suppression?.isSome = true) :
    (marks.map Phrase.piece).filterMap Piece.outline? =
      (marks.filterMap Phrase.suppression?).map fun kind => Outline.leaf (.suppress kind) := by
  induction marks with
  | nil => rfl
  | cons phrase marks ih =>
    obtain ⟨kind, given⟩ := Option.isSome_iff_exists.mp (all phrase (by simp))
    have rest := ih fun phrase member => all phrase (by simp [member])
    unfold Phrase.suppression? at given
    -- Only an item that is a suppression passes.
    split at given <;> cases given
    simp only [List.map_cons, List.filterMap_cons, Phrase.piece, Piece.outline?, rest]
    rfl

/-- The suppressions on top of a stack are those on top of its phrases. -/
theorem span_suppressions {tree : Tree} (stacked : Stacked tree below phrases) :
    ∃ front rest marks others,
      below.span (fun symbol => (Symbol.node? tree .suppress symbol).isSome) = (front, rest) ∧
      phrases.span (fun phrase => phrase.suppression?.isSome) = (marks, others) ∧
      (∀ phrase ∈ marks, phrase.suppression?.isSome = true) ∧
      List.Forall₂ tree.Shows front (marks.map Phrase.piece) ∧ Stacked tree rest others ∧
      (Symbol.ids front).Nodup ∧ (∀ id ∈ Symbol.ids front, id ∉ Symbol.ids rest) ∧
      Symbol.ids below = Symbol.ids front ++ Symbol.ids rest := by
  let p : Symbol → Bool := fun symbol => (Symbol.node? tree .suppress symbol).isSome
  let q : Phrase → Bool := fun phrase => phrase.suppression?.isSome
  obtain ⟨marked, _⟩ := forall₂_span (p := p) (q := q)
    (List.forall₂_map_right_iff.mp stacked.shown) suppression?_eq
  -- Both lists split at the same place, so the stack splits there as a whole.
  have whole := stacked
  rw [← List.takeWhile_append_dropWhile (p := p) (l := below),
    ← List.takeWhile_append_dropWhile (p := q) (l := phrases)] at whole
  obtain ⟨front, remaining, once, apart⟩ := whole.split marked.length_eq
  refine ⟨below.takeWhile p, below.dropWhile p, phrases.takeWhile q, phrases.dropWhile q,
    List.span_eq_takeWhile_dropWhile p below, List.span_eq_takeWhile_dropWhile q phrases,
    fun phrase member => List.mem_takeWhile_imp (p := q) member, front, remaining, once, apart, ?_⟩
  rw [← Symbol.ids_append, List.takeWhile_append_dropWhile]

/-- A property goes to the end of the properties in front of it, or begins them. -/
theorem addStatement_yields {tree : Tree} {id : NodeId} {statement : Statement}
    (stacked : Stacked tree below phrases) (stands : tree.Stands id statement.outline)
    (fresh : id ∉ Symbol.ids below) (span : Span) :
    Yields (parser.collect tree .configs below (.node id) span)
      (Phrase.addStatement statement phrases) := by
  -- A list of properties takes properties, and a single one is all that is hung.
  have accepted : ∀ outline ∈ (Piece.node statement.outline).outline?,
      outline.type ∈ NodeType.configs.whitelist := by
    rintro _ ⟨⟩
    exact NodeTypes.mem_only.mpr rfl
  have shown : tree.Shows (.node id) (.node statement.outline) := stands
  unfold Phrase.addStatement
  -- Either a list of properties is on top, or the property begins one.
  split
  case h_1 before rest =>
    refine collect_onto stacked shown (by simpa using fresh) span rfl accepted rfl ?_
    simp [Phrase.piece, Piece.outline?, configsOutline]
  case h_2 other =>
    refine collect_new stacked shown (by simpa using fresh) span ?_ accepted rfl rfl
    intro top member typed
    obtain ⟨rest, rfl⟩ := List.head?_eq_some_iff.mp member
    obtain ⟨given, rfl⟩ := Phrase.of_type? typed
    exact other given rest rfl

/-- What names a property is a label. -/
theorem label?_of_keyword? {keyword : Token} {label : Label} (named : keyword.keyword? = some label) :
    keyword.label? = some label := by
  unfold Token.keyword? at named
  split at named <;> simp_all

/-- A property accepts its suppressions, its keyword and its values. -/
theorem accepted_of_statement (statement : Statement) :
    ∀ outline ∈ statement.outline.children, outline.type ∈ NodeType.config.whitelist := by
  -- A property has suppressions, a keyword and values, and all three are on its list.
  intro outline member
  rcases List.mem_append.mp member with mark | final
  · obtain ⟨kind, _, rfl⟩ := List.mem_map.mp mark
    exact NodeTypes.mem_ofList.mpr (.head _)
  · rcases List.mem_cons.mp final with rfl | final
    · exact NodeTypes.mem_ofList.mpr (.tail _ (.head _))
    · obtain rfl := List.mem_singleton.mp final
      exact NodeTypes.mem_ofList.mpr (.tail _ (.tail _ (.head _)))

/-- Suppressions, a keyword and values show what the property that they make holds. -/
theorem outlines_of_statement {marks : List Phrase} {keyword : Token} {label : Label}
    (all : ∀ phrase ∈ marks, phrase.suppression?.isSome = true)
    (named : keyword.label? = some label) (given : List NodeKind) :
    ((marks ++ [Phrase.token keyword, .values given]).map Phrase.piece).filterMap Piece.outline? =
      (Statement.outline ⟨marks.filterMap Phrase.suppression?, label, given⟩).children := by
  -- The suppressions come first, one for each mark; the keyword and the values are one each.
  rw [List.map_append, List.filterMap_append, outlines_of_suppressions all]
  simp [Phrase.piece, Piece.outline?, Token.leaf?_of_label? named, Statement.outline,
    Outline.children]

/-- A new property takes the suppressions in front of its keyword, the keyword and its values. -/
theorem attachProperty_stands {tree : Tree} {keyword : Token} {values : NodeId}
    {given : List NodeKind} {label : Label}
    (stacked : Stacked tree (.node values :: .token keyword :: below)
      (.values given :: .token keyword :: phrases))
    (named : keyword.keyword? = some label) (span : Span) :
    ∃ grown, (tree.alloc .config span).attachAll tree.nextId
        ((below.takeWhile fun symbol => (Symbol.node? tree .suppress symbol).isSome).reverse ++
          [.token keyword, .node values]) = .ok grown ∧
      Stacked grown (below.dropWhile fun symbol => (Symbol.node? tree .suppress symbol).isSome)
        (phrases.dropWhile fun phrase => phrase.suppression?.isSome) ∧
      tree.nextId ∉ Symbol.ids
        (below.dropWhile fun symbol => (Symbol.node? tree .suppress symbol).isSome) ∧
      grown.Stands tree.nextId (Statement.outline
        ⟨(phrases.takeWhile fun phrase => phrase.suppression?.isSome).reverse.filterMap
          Phrase.suppression?, label, given⟩) := by
  -- The suppressions on top of the stack are taken together, as far as they go.
  obtain ⟨front, rest, marks, others, cut, cut', all, shown, remaining, once, apart, ids⟩ :=
    span_suppressions stacked.tail.tail
  rw [List.span_eq_takeWhile_dropWhile, Prod.mk.injEq] at cut cut'
  rw [cut.1, cut.2, cut'.1, cut'.2]
  have fresh := stacked.fresh
  rw [Symbol.ids_token, ids, List.mem_append, not_or] at fresh
  -- What hangs below the property are its suppressions, its keyword and its values.
  let used : List Phrase := marks.reverse ++ [.token keyword, .values given]
  have outlines : (used.map Phrase.piece).filterMap Piece.outline? = (Statement.outline
      ⟨marks.reverse.filterMap Phrase.suppression?, label, given⟩).children :=
    outlines_of_statement (fun phrase member => all phrase (List.mem_reverse.mp member))
      (label?_of_keyword? named) given
  have parts : List.Forall₂ tree.Shows
      (front.reverse ++ [.token keyword, .node values]) (used.map Phrase.piece) := by
    rw [List.map_append, List.map_reverse]
    exact List.rel_append (List.forall₂_reverse_iff.mpr shown)
      (.cons stacked.tail.head (.cons stacked.head .nil))
  have members : Symbol.ids (front.reverse ++ [.token keyword, .node values]) =
      (Symbol.ids front).reverse ++ [values] := by
    simp [Symbol.ids_reverse]
  -- The nodes to be hung are different from each other, and none is left on the stack.
  have different : ((Symbol.ids front).reverse ++ [values]).Nodup := by
    refine List.nodup_append.mpr ⟨List.nodup_reverse.mpr once, by simp, ?_⟩
    rintro id member _ final rfl
    rw [List.mem_singleton.mp final, List.mem_reverse] at member
    exact fresh.1 member
  -- So all of them hang below the new node, and what is left of the stack is as it was.
  obtain ⟨grown, attached, stacked', _, stands⟩ := remaining.attachAll .config span parts
    (by rwa [members])
    (by
      intro id member
      rw [members, List.mem_append, List.mem_reverse, List.mem_singleton] at member
      rcases member with member | rfl
      · exact apart id member
      · exact fresh.2)
    (by rw [outlines]; exact accepted_of_statement _) (by rintro max ⟨⟩)
  rw [outlines] at stands
  exact ⟨grown, attached, stacked', remaining.nextId, stands⟩

/-- A property takes its suppressions, its keyword and its values, and goes to its list. -/
theorem closeProperty_yields {keyword semicolon : Token} {values : NodeId}
    {given : List NodeKind} {label : Label}
    (stacked : Stacked parser.tree (.node values :: .token keyword :: below)
      (.values given :: .token keyword :: phrases))
    (named : keyword.keyword? = some label) :
    Yields (parser.closeProperty keyword values semicolon below)
      (Phrase.closeProperty label given phrases) := by
  obtain ⟨grown, attached, stacked', unused, stands⟩ :=
    attachProperty_stands stacked named (keyword.span.through semicolon.span)
  -- Making the property leaves a stack on which it is collected.
  simp only [closeProperty, List.span_eq_takeWhile_dropWhile, attached, Phrase.closeProperty]
  exact addStatement_yields stacked' stands unused _

/-- A token can name a property exactly when it has such a name. -/
theorem isSome_keyword? (token : Token) : token.keyword?.isSome = token.isKeyword := by
  unfold Token.keyword? Token.label? Token.category? Token.isKeyword
  cases token.kind <;> simp

/-- A semicolon behind values ends a property if they have a keyword. -/
theorem closeValues_yields {semicolon : Token} {id : NodeId} {given : List NodeKind}
    (shows : parser.Shows (.token semicolon :: .values given :: phrases))
    (stacked : Stacked parser.tree (.token semicolon :: .node id :: below)
      (.token semicolon :: .values given :: phrases)) :
    Yields (parser.readSemicolon semicolon (.node id :: below))
      (Phrase.readSemicolon semicolon (.values given :: phrases)) := by
  have same := yields_of_shows shows
  have configs := stacked.tail.head.isOfType .configs
  have values := stacked.tail.head.isOfType .values
  simp only [Phrase.piece, Piece.type?, valuesOutline, Outline.type, Outline.kind, NodeKind.type,
    Option.some.injEq, reduceCtorEq, decide_true, decide_false] at configs values
  simp only [readSemicolon, configs, values, Bool.false_eq_true, if_false]
  -- Values with nothing, a node, or a token below them: only a keyword completes them.
  cases below with
  | nil =>
    rw [stacked.tail.tail.nil] at same ⊢
    exact same
  | cons first outer =>
    obtain ⟨phrase, others, rfl⟩ := stacked.tail.tail.uncons
    have named := stacked.tail.tail.head
    cases first with
    -- A node below the values is no keyword on either side.
    | node id =>
      cases phrase with
      | token => cases named
      | _ => exact same
    | token keyword =>
      cases phrase with
      | token word =>
        cases named
        have known := isSome_keyword? keyword
        simp only [Phrase.readSemicolon]
        -- The token is a keyword for the parser if it is one for the phrases.
        cases label : keyword.keyword? with
        | none =>
          rw [label] at known
          rw [← known]
          exact same
        | some name =>
          rw [label] at known
          rw [← known]
          exact closeProperty_yields stacked.tail label
      | _ => cases named

/-- A semicolon ends a property, is dropped inside a body, or stays as it is. -/
theorem readSemicolon_yields {semicolon : Token}
    (shows : parser.Shows (.token semicolon :: phrases))
    (top : parser.stack.symbols = .token semicolon :: below) :
    Yields (parser.readSemicolon semicolon below) (Phrase.readSemicolon semicolon phrases) := by
  -- What a semicolon closes is decided by the symbol below it, and symbol and phrase are of one
  -- kind.
  have stacked : Stacked parser.tree (.token semicolon :: below) (.token semicolon :: phrases) :=
    top ▸ shows
  have same := yields_of_shows shows
  cases below with
  | nil =>
    rw [stacked.tail.nil] at same ⊢
    exact same
  | cons first rest =>
    obtain ⟨phrase, others, rfl⟩ := stacked.tail.uncons
    have shown := stacked.tail.head
    cases first with
    -- Behind a token: an opening bracket makes it an empty statement, which is dropped.
    | token opening =>
      cases phrase with
      | token given =>
        cases shown
        simp only [readSemicolon, Phrase.readSemicolon]
        by_cases curly : opening.kind = .openCurly
        · simp only [curly, if_true]
          exact ⟨_, rfl, stacked.tail⟩
        · simp only [curly, if_false]
          exact same
      | _ => cases shown
    -- Behind a node: a body makes it stray, and values make it the end of a property.
    | node id =>
      by_cases configs : phrase.piece.type? = some .configs
      · obtain ⟨statements, rfl⟩ := Phrase.of_type? configs
        simp only [readSemicolon, shown.isOfType, configs, decide_true, if_true]
        exact ⟨_, rfl, stacked.tail⟩
      · by_cases values : phrase.piece.type? = some .values
        · obtain ⟨given, rfl⟩ := Phrase.of_type? values
          exact closeValues_yields shows stacked
        · -- Behind any other node nothing ends.
          simp only [readSemicolon, shown.isOfType, configs, values, decide_false,
            Bool.false_eq_true, if_false]
          cases phrase with
          | token => cases shown
          | configs => exact absurd rfl configs
          | values => exact absurd rfl values
          | _ => exact same

/-- The properties that a body holds, which stand apart from some symbols. -/
def Holds (tree : Tree) (others : List Symbol) (statements : List Statement) :
    Option NodeId → Prop
  | none => statements = []
  | some id => tree.Stands id (configsOutline statements) ∧ id ∉ Symbol.ids others

/-- A definition takes its properties, or an empty list of them. -/
theorem addBody_stands {tree : Tree} {definition : NodeId} {form : Form} {outlines : List Outline}
    {statements : List Statement} {body : Option NodeId} (stacked : Stacked tree below phrases)
    (stands : tree.Stands definition (.node form.kind outlines))
    (fresh : definition ∉ Symbol.ids below) (holds : Holds tree below statements body)
    (accepted : NodeType.configs ∈ form.kind.type.whitelist)
    (room : ∀ max, form.kind.type.maxChildren? = some max → outlines.length + 1 ≤ max)
    (span : Span) :
    ∃ grown, (match body with
      | some configs => tree.addChild definition configs
      | none => (tree.alloc .configs span).addChild definition tree.nextId) = .ok grown ∧
      Stacked grown below phrases ∧
      grown.Stands definition (.node form.kind (outlines ++ [configsOutline statements])) := by
  -- The properties that were collected become a child, or an empty list is made for them.
  cases body with
  | some configs =>
    obtain ⟨grown, linked, kept, result⟩ := Tree.addChild_stands stacked.forest stands holds.1
      accepted (fun max limited => room max limited)
    refine ⟨grown, linked, stacked.keep kept ?_, result⟩
    intro id member used
    rcases List.mem_cons.mp used with rfl | used
    · exact fresh member
    · rw [List.mem_singleton.mp used] at member
      exact holds.2 member
  | none =>
    cases holds
    -- The list is new, so it is neither the definition nor on the stack.
    have made := Tree.Keeps.alloc stacked.forest .configs span
    obtain ⟨grown, linked, kept, result⟩ := Tree.addChild_stands made.forest
      (made.stands (by simp) stands) (Tree.stands_alloc tree .configs span) accepted
      (fun max limited => room max limited)
    refine ⟨grown, linked, (stacked.keep made (by simp)).keep kept ?_, result⟩
    intro id member used
    rcases List.mem_cons.mp used with rfl | used
    · exact fresh member
    · rw [List.mem_singleton.mp used] at member
      exact stacked.nextId member

/-- A new definition takes the names and the types of its header, and the body stays what it is. -/
theorem attachHeading_stands {tree : Tree} {heading : Heading} {front rest : List Phrase}
    (stacked : Stacked tree below (front ++ rest)) (headed : Phrase.Headed heading front)
    (span : Span) :
    ∃ named, (tree.alloc heading.form.kind span).attachAll tree.nextId
        (if heading.form.kind.type = .metadata then [] else (below.take front.length).reverse) =
          .ok named ∧
      Stacked named (below.drop front.length) rest ∧
      tree.nextId ∉ Symbol.ids (below.drop front.length) ∧
      named.Stands tree.nextId (.node heading.form.kind heading.outlines) ∧
      ∀ {statements body}, Holds tree below statements body →
        Holds named (below.drop front.length) statements body := by
  -- The symbols of the heading are cut off the stack, and what is below them stays as it was.
  have size := stacked.shown.length_eq
  rw [List.length_map, List.length_append] at size
  have whole := stacked
  rw [← List.take_append_drop front.length below] at whole
  obtain ⟨shown, remaining, once, apart⟩ := whole.split (by rw [List.length_take]; omega)
  have ids : Symbol.ids below =
      Symbol.ids (below.take front.length) ++ Symbol.ids (below.drop front.length) := by
    rw [← Symbol.ids_append, List.take_append_drop]
  -- The word for the schema itself is the only heading that is not attached.
  generalize symbols : (if heading.form.kind.type = .metadata then []
    else (below.take front.length).reverse) = names
  -- The attached symbols show the heading's phrases in the order of the source.
  have attached : List.Forall₂ tree.Shows names
      ((if heading.form.kind.type = .metadata then [] else front.reverse).map Phrase.piece) := by
    rw [← symbols]
    split
    · exact .nil
    · rw [List.map_reverse]
      exact List.forall₂_reverse_iff.mpr shown
  -- The attached nodes are among those that were cut off,
  have members : ∀ id ∈ Symbol.ids names, id ∈ Symbol.ids (below.take front.length) := by
    intro id member
    rw [← symbols] at member
    split at member
    · cases member
    · simpa [Symbol.ids_reverse] using member
  -- and each of them is attached once.
  have different : (Symbol.ids names).Nodup := by
    rw [← symbols]
    split
    · exact List.nodup_nil
    · rw [Symbol.ids_reverse]
      exact List.nodup_reverse.mpr once
  have outlines : ((if heading.form.kind.type = .metadata then [] else front.reverse).map
      Phrase.piece).filterMap Piece.outline? = heading.outlines := by
    rw [List.filterMap_map]
    exact headed.outlines
  -- A definition accepts its header, and has room for the properties besides.
  obtain ⟨named, done, stacked', kept, stands⟩ := remaining.attachAll heading.form.kind span
    attached different (fun id member => apart id (members id member))
    (by rw [outlines]; exact headed.accepted.2)
    (fun max limited => by
      rw [outlines]
      exact Nat.le_of_succ_le (headed.room max limited))
  rw [outlines] at stands
  refine ⟨named, done, stacked', remaining.nextId, stands, fun {statements body} holds => ?_⟩
  -- The properties of the body are on the stack nowhere, so not among the names either.
  cases body with
  | none => exact holds
  | some configs =>
    have unused := holds.2
    rw [ids, List.mem_append, not_or] at unused
    exact ⟨kept (fun member => unused.1 (members configs member)) holds.1, unused.2⟩

/-- A new definition takes its names, its types and its properties, and stands in their place. -/
theorem attachDefinition_stands {tree : Tree} {header : Header} {body : Option NodeId}
    {statements : List Statement} (stacked : Stacked tree below phrases)
    (holds : Holds tree below statements body)
    (found : Header.ofParts? (phrases.map Phrase.part) = some header) (span extent : Span) :
    ∃ named grown, (tree.alloc header.kind span).attachAll tree.nextId
        (if header.kind.type = .metadata then [] else (below.take header.length).reverse) =
          .ok named ∧
      (match body with
      | some configs => named.addChild tree.nextId configs
      | none => (named.alloc .configs extent).addChild tree.nextId named.nextId) = .ok grown ∧
      Stacked grown (.node tree.nextId :: below.drop header.length)
        (.item (.definition ⟨Phrase.heading header.kind (phrases.take header.length).reverse,
          statements⟩) :: phrases.drop header.length) := by
  obtain ⟨given, front, rest, rfl, length, kind, headed⟩ := Phrase.headed_of_parts found
  rw [length, kind, List.take_left, List.drop_left, headed.heading_eq]
  -- First the heading, whose nodes the body leaves as they are.
  obtain ⟨named, done, stacked', fresh, stands, still⟩ :=
    attachHeading_stands stacked headed span
  obtain ⟨grown, linked, stacked'', result⟩ := addBody_stands stacked' stands fresh (still holds)
    headed.accepted.1 headed.room extent
  exact ⟨named, grown, done, linked, stacked''.node result fresh rfl⟩

/-- A definition takes its names, its types and its properties, and goes to its place. -/
theorem closeDefinition_yields {header : Header} {opening closing : Token} {body : Option NodeId}
    {statements : List Statement} (stacked : Stacked parser.tree below phrases)
    (holds : Holds parser.tree below statements body)
    (found : Header.ofParts? (phrases.map Phrase.part) = some header) :
    Yields (parser.closeDefinition header opening body closing below)
      (Phrase.addItem (.definition ⟨Phrase.heading header.kind
        (phrases.take header.length).reverse, statements⟩) (phrases.drop header.length)) := by
  -- The definition stands for the text from its header to its bracket.
  generalize extent : ((((below.take header.length).reverse.head?.bind
    (Symbol.span? parser.tree)).getD opening.span).through closing.span) = span
  obtain ⟨named, grown, done, linked, top⟩ :=
    attachDefinition_stands stacked holds found span (opening.span.through closing.span)
  obtain ⟨next, placed, final⟩ := place_yields parser top span
  refine ⟨next, ?_, final⟩
  -- These are the steps of closing a definition, whether it has properties or not.
  simp only [closeDefinition, extent]
  rw [done]
  cases body with
  | none =>
    simp only [bind, Except.bind] at linked ⊢
    rw [linked]
    exact placed
  | some configs =>
    simp only [bind, Except.bind] at linked ⊢
    rw [linked]
    exact placed

/-- Symbols are the parts of a header that their phrases are. -/
theorem map_eq_of_shows {tree : Tree} (stacked : Stacked tree below phrases) :
    below.map (HeaderPart.ofSymbol tree) = phrases.map Phrase.part := by
  -- Symbol by symbol: a header looks at no more than what a phrase tells of it.
  induction below generalizing phrases with
  | nil => rw [stacked.nil]; rfl
  | cons first rest ih =>
    obtain ⟨phrase, others, rfl⟩ := stacked.uncons
    rw [List.map_cons, List.map_cons, stacked.head.part, ih stacked.tail]

/-- The properties on top of a stack are those on top of its phrases. -/
theorem splitBody_stacked {tree : Tree} {body : Option NodeId} {front : List Symbol}
    (stacked : Stacked tree below phrases)
    (top : below.head?.bind (Symbol.node? tree .configs) = body)
    (rest : (if body.isSome then below.drop 1 else below) = front) :
    Stacked tree front (Phrase.splitBody phrases).2 ∧
      Holds tree front (Phrase.splitBody phrases).1 body := by
  subst top rest
  cases below with
  | nil =>
    obtain rfl := stacked.nil
    exact ⟨stacked, rfl⟩
  | cons first rest =>
    obtain ⟨phrase, others, rfl⟩ := stacked.uncons
    have typed := stacked.head.node? .configs
    -- A list of properties on top is taken off in both, and anything else is left in both.
    by_cases configs : phrase.piece.type? = some .configs
    · obtain ⟨statements, rfl⟩ := Phrase.of_type? configs
      obtain ⟨id, named⟩ := Option.isSome_iff_exists.mp (typed.trans (decide_eq_true configs))
      obtain rfl := Tree.eq_of_node? named
      simp only [List.head?_cons, Option.bind_some, named, Option.isSome_some, if_true]
      exact ⟨stacked.tail, stacked.head, stacked.fresh⟩
    · have none : Symbol.node? tree .configs first = none := by simpa [configs] using typed
      simp only [List.head?_cons, Option.bind_some, none, Option.isSome_none, Bool.false_eq_true,
        if_false]
      cases phrase with
      | configs => exact absurd rfl configs
      | _ => exact ⟨stacked, rfl⟩

/-- A closing bracket ends a definition if a header stands in front of its body. -/
theorem readCloseCurly_yields {closing : Token}
    (shows : parser.Shows (.token closing :: phrases))
    (top : parser.stack.symbols = .token closing :: below) :
    Yields (parser.readCloseCurly closing below) (Phrase.readCloseCurly closing phrases) := by
  have stacked : Stacked parser.tree (.token closing :: below) (.token closing :: phrases) :=
    top ▸ shows
  have same := yields_of_shows shows
  -- The body comes off first, if there is one.
  simp only [readCloseCurly, Phrase.readCloseCurly]
  generalize bodyTop : below.head?.bind (Symbol.node? parser.tree .configs) = body
  generalize bodyRest : (if body.isSome = true then below.drop 1 else below) = front
  obtain ⟨stacked', holds⟩ := splitBody_stacked stacked.tail bodyTop bodyRest
  generalize (Phrase.splitBody phrases).1 = statements at holds ⊢
  generalize (Phrase.splitBody phrases).2 = others at stacked' ⊢
  -- Below the body the opening bracket is expected; behind anything else nothing is closed.
  cases front with
  | nil =>
    obtain rfl := stacked'.nil
    exact same
  | cons first rest =>
    obtain ⟨phrase, others, rfl⟩ := stacked'.uncons
    have shown := stacked'.head
    cases first with
    -- A node where the bracket should be.
    | node id =>
      cases phrase with
      | token => cases shown
      | _ => exact same
    | token opening =>
      cases phrase with
      | token given =>
        cases shown
        by_cases curly : opening.kind = .openCurly
        -- The header is read off the phrases as it is off the symbols.
        · have parts : rest.map (HeaderPart.ofSymbol parser.tree) = others.map Phrase.part :=
            map_eq_of_shows stacked'.tail
          simp only [curly, if_true, Header.ofSymbols?, parts]
          cases found : Header.ofParts? (others.map Phrase.part) with
          | none => exact same
          | some header => exact closeDefinition_yields stacked'.tail holds found
        · simp only [curly, if_false]
          exact same
      | _ => cases shown

end Parser

end ArgSchema
