import ArgSchema.Proofs.Grammar.Derivation
import ArgSchema.Proofs.Preprocessor.Slices
import ArgSchema.Proofs.Tree.Growth

/-! Extents: the tokens that nodes are made of, and where the spans of nodes begin and end among them. -/

namespace ArgSchema

namespace Span

/-- The span from the start of one to the end of another. -/
def upTo (first last : Span) : Span := { first with stop := last.stop }

/-- A span begins and ends within another. -/
structure Inside (inner outer : Span) : Prop where
  /-- It begins no earlier. -/
  start : inner.start.reaches outer.start
  /-- It ends no later. -/
  stop : outer.stop.reaches inner.stop

/-- A merge goes from the start of the first to the end of the second if that is in order. -/
theorem through_eq_upTo {first last : Span} (forward : last.stop.reaches first.start) :
    first.through last = first.upTo last :=
  if_neg forward

end Span

namespace Token.Increasing

variable {tokens : List Token} {first last token : Token}

/-- The first token starts in front of all others. -/
theorem reaches_head (increasing : Increasing tokens) (head : tokens.head? = some first)
    (member : token ∈ tokens) : token.span.start.reaches first.span.start := by
  -- Any other token is one of those behind it.
  obtain ⟨rest, rfl⟩ := List.head?_eq_some_iff.mp head
  rcases List.mem_cons.mp member with rfl | behind
  · exact Position.reaches_refl _
  · -- A later token starts behind the end of the first.
    have apart := (List.pairwise_cons.mp increasing.apart).1 token behind
    have ordered := increasing.ordered first (List.mem_cons_self ..)
    unfold Span.Ordered Position.reaches Position.before at *
    omega

/-- The last token ends behind all others. -/
theorem getLast_reaches (increasing : Increasing tokens) (final : tokens.getLast? = some last)
    (member : token ∈ tokens) : last.span.stop.reaches token.span.stop := by
  -- Any other token is one of those in front of it.
  obtain ⟨front, rfl⟩ := List.getLast?_eq_some_iff.mp final
  rcases List.mem_append.mp member with earlier | same
  · -- An earlier token ends in front of the start of the last.
    have apart := (List.pairwise_append.mp increasing.apart).2.2 token earlier last (by simp)
    have ordered := increasing.ordered last (by simp)
    unfold Span.Ordered Position.reaches Position.before at *
    omega
  · rw [List.mem_singleton.mp same]
    exact Position.reaches_refl _

end Token.Increasing

/-- The tokens that a node is made of. -/
structure Extent where
  /-- Suppressions in front of a keyword, which spans leave out. -/
  ahead : List Token
  /-- The tokens of the node's span. -/
  within : List Token

namespace Extent

/-- All tokens of a node. -/
def tokens (extent : Extent) : List Token := extent.ahead ++ extent.within

/-- A token alone. -/
def single (token : Token) : Extent := ⟨[], [token]⟩

/-- Extents one behind the other: what is ahead of the first is ahead of them all. -/
def join : List Extent → Extent
  | [] => ⟨[], []⟩
  | first :: rest => ⟨first.ahead, first.within ++ rest.flatMap tokens⟩

/-- A span goes from the start of the first token that it is for to the end of the last. -/
def Spans (extent : Extent) (span : Span) : Prop :=
  ∃ first last, extent.within.head? = some first ∧ extent.within.getLast? = some last ∧
    span = first.span.upTo last.span

variable {extent other : Extent} {span later : Span} {extents : List Extent}

/-- The tokens of one token alone. -/
@[simp] theorem tokens_single (token : Token) : (single token).tokens = [token] := rfl

/-- The tokens of extents one behind the other are those of each. -/
@[simp] theorem tokens_join (extents : List Extent) :
    (join extents).tokens = extents.flatMap tokens := by
  cases extents with
  | nil => rfl
  | cons first rest => simp [join, tokens]

/-- One more extent comes behind the others. -/
theorem join_append (some : extents ≠ []) (last : Extent) :
    join (extents ++ [last]) = ⟨(join extents).ahead, (join extents).within ++ last.tokens⟩ := by
  cases extents with
  | nil => exact absurd rfl some
  | cons first rest => simp [join]

/-- What spans leave in of one of some extents is left in of them all. -/
theorem within_join (member : extent ∈ extents) : extent.within.Sublist (join extents).within := by
  -- The first part keeps its span as it is, and the others are inside behind it.
  cases extents with
  | nil => cases member
  | cons first rest =>
    rcases List.mem_cons.mp member with rfl | behind
    · exact List.sublist_append_left _ _
    · -- Of all but the first nothing is left out.
      have whole : extent.tokens.Sublist (rest.flatMap tokens) :=
        List.sublist_flatten_of_mem (List.mem_map_of_mem behind)
      exact ((List.sublist_append_right _ _).trans whole).trans (List.sublist_append_right _ _)

/-- What is left in are some of all tokens. -/
theorem within_sublist (extent : Extent) : extent.within.Sublist extent.tokens :=
  List.sublist_append_right _ _

/-- The span of a token is for the token alone. -/
theorem spans_single (token : Token) : (single token).Spans token.span :=
  ⟨token, token, rfl, rfl, rfl⟩

/-- A span is for some token. -/
theorem Spans.ne_nil (spans : extent.Spans span) : extent.within ≠ [] := by
  -- There is a first token.
  obtain ⟨first, last, head, -⟩ := spans
  rintro none
  rw [none] at head
  cases head

/-- The end of a span is that of the last token. -/
theorem Spans.getLast? (spans : extent.Spans span) :
    ∃ last, extent.tokens.getLast? = some last ∧ span.stop = last.span.stop := by
  -- What stands ahead of a span does not change how the tokens end.
  obtain ⟨first, last, head, final, rfl⟩ := spans
  refine ⟨last, ?_, rfl⟩
  rw [tokens, List.getLast?_append, final]
  rfl

/-- Spans of tokens in order are ordered. -/
theorem Spans.ordered (spans : extent.Spans span)
    (increasing : Token.Increasing extent.within) : span.Ordered := by
  obtain ⟨first, last, head, final, rfl⟩ := spans
  have member : last ∈ extent.within := List.mem_of_getLast? final
  exact Position.reaches_trans (increasing.ordered last member) (increasing.reaches_head head member)

/-- A span for some of the tokens of another lies inside it. -/
theorem Spans.inside (spans : extent.Spans span) (others : other.Spans later)
    (increasing : Token.Increasing other.within) (among : extent.within.Sublist other.within) :
    span.Inside later := by
  -- The inner first and last tokens are tokens of the outer span, which its own first and last
  -- enclose.
  obtain ⟨first, last, head, final, rfl⟩ := spans
  obtain ⟨first', last', head', final', rfl⟩ := others
  exact ⟨increasing.reaches_head head' (among.subset (List.mem_of_head? head)),
    increasing.getLast_reaches final' (among.subset (List.mem_of_getLast? final))⟩

/-- Spans for tokens one behind the other are apart. -/
theorem Spans.before (spans : extent.Spans span) (others : other.Spans later)
    (increasing : Token.Increasing (extent.within ++ other.within)) :
    span.stop.before later.start := by
  -- The last token of the one stands in front of the first of the other.
  obtain ⟨first, last, head, final, rfl⟩ := spans
  obtain ⟨first', last', head', final', rfl⟩ := others
  exact (List.pairwise_append.mp increasing.apart).2.2 last (List.mem_of_getLast? final) first'
    (List.mem_of_head? head')

/-- The merge of spans for tokens one behind the other is for all of them. -/
theorem Spans.through (spans : extent.Spans span) (others : other.Spans later)
    (increasing : Token.Increasing (extent.tokens ++ other.tokens)) :
    (⟨extent.ahead, extent.within ++ other.tokens⟩ : Extent).Spans (span.through later) := by
  have inner : Token.Increasing (extent.within ++ other.within) :=
    increasing.sublist (extent.within_sublist.append other.within_sublist)
  have apart := spans.before others inner
  have ordered := spans.ordered (inner.sublist (List.sublist_append_left _ _))
  have ordered' := others.ordered (inner.sublist (List.sublist_append_right _ _))
  obtain ⟨last', final', stop⟩ := others.getLast?
  obtain ⟨first, last, head, final, rfl⟩ := spans
  -- The second ends behind the start of the first, so they are not swapped.
  rw [Span.through_eq_upTo (by
    unfold Span.Ordered Position.reaches Position.before at *
    omega)]
  refine ⟨first, last', ?_, ?_, ?_⟩
  · rw [List.head?_append, head]
    rfl
  · rw [List.getLast?_append, final']
    rfl
  · rw [Span.upTo, stop]
    rfl

/-- The merge of the first token's span with the last one's is for all tokens in between. -/
theorem spans_through {ahead within : List Token} {first last : Token}
    (increasing : Token.Increasing within) (head : within.head? = some first)
    (final : within.getLast? = some last) :
    (⟨ahead, within⟩ : Extent).Spans (first.span.through last.span) := by
  refine ⟨first, last, head, final, Span.through_eq_upTo ?_⟩
  have member : last ∈ within := List.mem_of_getLast? final
  exact Position.reaches_trans (increasing.ordered last member) (increasing.reaches_head head member)

end Extent

/-- What stands for a token has no children. -/
theorem Token.isLeaf_of_leaf? {token : Token} {kind : NodeKind} (leaf : token.leaf? = some kind) :
    kind.type.isLeaf = true := by
  unfold Token.leaf? at leaf
  split at leaf <;> cases leaf <;> rfl

namespace Tree

/-- How a node is made of tokens, given the extents of its children. -/
inductive Covers (tree : Tree) (extents : NodeId → Extent) (node : Node) : Extent → Prop
  /-- A leaf is made of the token that it stands for. -/
  | leaf {token : Token} : token.leaf? = some node.kind → node.children = [] →
      Covers tree extents node (.single token)
  /-- A suppression is made of its modifier and its word. -/
  | suppression {kind : WarningClass} {tokens : List Token} : node.kind = .suppress kind →
      Grammar.Suppression kind tokens → node.children = [] → Covers tree extents node ⟨[], tokens⟩
  /-- A list is made of what its elements are made of. -/
  | list : node.type ∈ [.values, .types, .configs, .file] →
      Covers tree extents node (.join (node.children.map extents))
  /-- The properties of a body without any are its brackets. -/
  | braces {opening closing : Token} : node.kind = .configs → node.children = [] →
      node.parent? ≠ none → opening.kind = .openCurly → closing.kind = .closeCurly →
      Covers tree extents node ⟨[], [opening, closing]⟩
  /-- A property is made of its keyword, its values and its semicolon, behind its suppressions. -/
  | property {marks : List NodeId} {keyword values : NodeId} {word closing : Token} :
      node.kind = .config → node.children = marks ++ [keyword, values] →
      (∀ mark ∈ marks, tree.isOfType (.only .suppress) mark = true) →
      tree.isOfType (.only .identifier) keyword = true → extents keyword = .single word →
      word.isKeyword = true → tree.isOfType (.only .values) values = true →
      closing.kind = .semicolon → Covers tree extents node
        ⟨marks.flatMap fun mark => (extents mark).tokens,
          word :: (extents values).tokens ++ [closing]⟩
  /-- A definition is made of its header and its body. -/
  | definition {heading : Heading} {header inner : List Token} {names : List NodeId}
      {configs : NodeId} {opening closing : Token} : node.kind = heading.form.kind →
      Grammar.Header heading header → node.children = names ++ [configs] →
      (names.flatMap fun name => (extents name).tokens).Sublist header →
      opening.kind = .openCurly → closing.kind = .closeCurly →
      (extents configs).tokens = inner ∨
        inner = [] ∧ (extents configs).tokens = [opening, closing] →
      Covers tree extents node ⟨[], header ++ opening :: inner ++ [closing]⟩

variable {tree : Tree} {extents : NodeId → Extent} {node : Node} {extent : Extent} {child : NodeId}

/-- What a node is made of depends only on what it is and on its children. -/
theorem Covers.congr (covers : tree.Covers extents node extent) {after : Tree}
    {changed : NodeId → Extent} {other : Node} (kind : other.kind = node.kind)
    (children : other.children = node.children)
    (parent : node.parent? ≠ none → other.parent? ≠ none)
    (same : ∀ child ∈ node.children, changed child = extents child ∧
      ∀ types, after.isOfType types child = tree.isOfType types child) :
    after.Covers changed other extent := by
  have flat : ∀ ids ⊆ node.children, (ids.flatMap fun id => (changed id).tokens) =
      ids.flatMap fun id => (extents id).tokens :=
    fun ids inside => List.flatMap_congr fun id member => by rw [(same id (inside member)).1]
  -- One case for each way to be made of tokens; the children's tokens are the same.
  cases covers with
  | leaf leaf none => exact .leaf (kind ▸ leaf) (children.trans none)
  | suppression shown pair none => exact .suppression (kind.trans shown) pair (children.trans none)
  | list typed =>
    have mapped : node.children.map extents = other.children.map changed := by
      rw [children]
      exact List.map_congr_left fun id member => (same id member).1.symm
    rw [mapped]
    exact .list (by rwa [Node.type, kind])
  | braces shown none linked opened closed =>
    exact .braces (kind.trans shown) (children.trans none) (parent linked) opened closed
  -- A property's children are its suppressions, its keyword and its values, in that order.
  | @property marks keyword values word closing shown listed marked named single able typed closed =>
    have member : ∀ id ∈ marks ++ [keyword, values], id ∈ node.children :=
      fun id inside => listed ▸ inside
    obtain ⟨known, type⟩ := same keyword (member keyword (by simp))
    obtain ⟨held, type'⟩ := same values (member values (by simp))
    have types : ∀ mark ∈ marks, after.isOfType (.only .suppress) mark = true := fun mark inside =>
      ((same mark (member mark (by simp [inside]))).2 _).trans (marked mark inside)
    rw [← flat marks (fun id inside => member id (by simp [inside])), ← held]
    exact .property (kind.trans shown) (children.trans listed) types ((type _).trans named)
      (known.trans single) able ((type' _).trans typed) closed
  -- A definition's are its names and, last, the list in its braces.
  | @definition heading header inner names configs opening closing shown headed listed among
      opened closed body =>
    have member : ∀ id ∈ names ++ [configs], id ∈ node.children := fun id inside => listed ▸ inside
    rw [← flat names fun id inside => member id (by simp [inside])] at among
    rw [← (same configs (member configs (by simp))).1] at body
    exact .definition (kind.trans shown) headed (children.trans listed) among opened closed body

/-- A list that hangs nowhere is made of its elements. -/
theorem Covers.eq_join (covers : tree.Covers extents node extent)
    (typed : node.type ∈ [.values, .types, .configs, .file]) (detached : node.parent? = none) :
    extent = .join (node.children.map extents) := by
  -- None of the other ways to be made of tokens is one of a list.
  have other : ∀ type ∈ [NodeType.values, .types, .configs, .file],
      type.isLeaf = false ∧ type ≠ .suppress ∧ type ≠ .config ∧ type ∉ NodeTypes.definitions := by
    decide
  obtain ⟨inner, suppress, config, defines⟩ := other _ typed
  unfold Node.type at inner suppress config defines
  cases covers with
  | list => rfl
  | leaf leaf => cases (Token.isLeaf_of_leaf? leaf).symm.trans inner
  | suppression shown => exact absurd (congrArg NodeKind.type shown) suppress
  | braces _ _ linked => exact absurd detached linked
  | property shown => exact absurd (congrArg NodeKind.type shown) config
  | @definition heading _ _ _ _ _ _ shown =>
    rw [shown] at defines
    exact absurd heading.form.type_mem_definitions defines

/-- A name is made of the token that it is the leaf of. -/
theorem Covers.exists_token {name : String} {category : Category}
    (covers : tree.Covers extents node extent) (kind : node.kind = .identifier name category) :
    ∃ token, extent = .single token ∧ token.leaf? = some (.identifier name category) := by
  -- A name is no list, no suppression, no body, no property and no definition.
  cases covers with
  | leaf leaf => exact ⟨_, rfl, kind ▸ leaf⟩
  | list typed => simp [Node.type, kind, NodeKind.type] at typed
  | suppression shown | braces shown | property shown => cases kind.symm.trans shown
  | @definition heading _ _ _ _ _ _ shown =>
    have defines := heading.form.type_mem_definitions
    rw [← shown, kind] at defines
    exact absurd defines (by simp [NodeKind.type, NodeTypes.definitions])

/-- The tokens of a node's children are some of its own, in their order. -/
theorem Covers.flatMap_children (covers : tree.Covers extents node extent) :
    (node.children.flatMap fun child => (extents child).tokens).Sublist extent.tokens := by
  cases covers with
  | leaf _ none | suppression _ _ none | braces _ none =>
    rw [none]
    exact List.nil_sublist _
  | list => rw [Extent.tokens_join, List.flatMap_map]
  | property _ listed _ _ single =>
    -- All but the semicolon belongs to a child.
    rw [listed, List.flatMap_append, List.flatMap_cons, List.flatMap_cons, List.flatMap_nil, single]
    refine (List.Sublist.refl _).append ?_
    simp
  | @definition heading header inner names configs opening closing _ _ listed among _ _ body =>
    rw [listed, List.flatMap_append, List.flatMap_singleton]
    show (_ ++ (extents configs).tokens).Sublist (header ++ (opening :: inner) ++ [closing])
    rw [List.append_assoc]
    -- The properties stand between the brackets, or are the brackets.
    rcases body with rfl | ⟨rfl, same⟩
    · exact among.append (.cons _ (List.sublist_append_left _ _))
    · rw [same]
      exact among.append (.refl _)

/-- A node has one type. -/
theorem eq_of_isOfType {id : NodeId} {first second : NodeType}
    (typed : tree.isOfType (.only first) id = true) (typed' : tree.isOfType (.only second) id = true) :
    first = second := by
  obtain ⟨given, found, type⟩ := exists_of_isOfType_only typed
  rw [isOfType_of_get? found, decide_eq_true_eq, NodeTypes.mem_only] at typed'
  exact type.symm.trans typed'

/-- A child is made of some of the tokens of its parent. -/
theorem Covers.tokens_child (covers : tree.Covers extents node extent)
    (member : child ∈ node.children) : (extents child).tokens.Sublist extent.tokens :=
  (List.sublist_flatten_of_mem (List.mem_map_of_mem member)).trans covers.flatMap_children

/-- Suppressions of a property stand in front of its span, and any other child within the parent's. -/
theorem Covers.sublist_child (covers : tree.Covers extents node extent) (member : child ∈ node.children) :
    if node.type = .config ∧ tree.isOfType (.only .suppress) child = true
    then (extents child).tokens.Sublist extent.ahead
    else (extents child).within.Sublist extent.within := by
  -- Only a property has something in front of its span: its suppressions.
  have among := covers.tokens_child member
  have inner := (extents child).within_sublist
  cases covers with
  | leaf _ none | suppression _ _ none | braces _ none =>
    rw [none] at member
    cases member
  | list typed =>
    have other : node.type ≠ .config := by
      intro config
      simp [config] at typed
    rw [if_neg fun both => other both.1]
    exact Extent.within_join (List.mem_map_of_mem member)
  | @property marks keyword values word closing _ listed marked named single _ held =>
    have member : child ∈ marks ++ [keyword, values] := listed ▸ member
    rcases List.mem_append.mp member with mark | part
    · rw [if_pos ⟨by simp [Node.type, NodeKind.type, *], marked child mark⟩]
      exact List.sublist_flatten_of_mem (List.mem_map_of_mem mark)
    · have other : ¬(node.type = .config ∧ tree.isOfType (.only .suppress) child = true) := by
        rintro ⟨-, mark⟩
        rcases List.mem_pair.mp part with rfl | rfl
        · cases eq_of_isOfType mark named
        · cases eq_of_isOfType mark held
      rw [if_neg other]
      -- The keyword is the first token of the span, and the values stand behind it.
      rcases List.mem_pair.mp part with rfl | rfl
      · rw [single]
        exact (List.nil_sublist _).cons_cons word
      · exact .cons word (inner.trans (List.sublist_append_left _ _))
  | @definition heading _ _ _ _ _ _ shown =>
    -- A definition has nothing in front of its header.
    have other : node.type ≠ .config := by
      intro config
      have defines := heading.form.type_mem_definitions
      rw [← shown, show node.kind.type = .config from config] at defines
      exact absurd defines (by decide)
    rw [if_neg fun both => other both.1]
    exact inner.trans among

/-- Nothing is ahead of the span of a definition. -/
theorem Covers.ahead_eq_nil (covers : tree.Covers extents node extent)
    (defines : node.type ∈ NodeTypes.definitions) : extent.ahead = [] := by
  cases covers with
  | leaf | suppression | braces | definition => rfl
  -- Neither a list nor a property defines anything.
  | list typed =>
    have none : ∀ type ∈ [NodeType.values, .types, .configs, .file], type ∉ NodeTypes.definitions := by
      decide
    exact absurd defines (none _ typed)
  | property config =>
    rw [Node.type, config] at defines
    exact absurd defines (by decide)

/-- A node ends in front of the start of another. -/
def Precedes (tree : Tree) (left right : NodeId) : Prop :=
  ∃ first second, tree.get? left = some first ∧ tree.get? right = some second ∧
    first.span.stop.before second.span.start

/-- Below a node everything is made of tokens that stand one behind the other, and has a span that is
for them. -/
structure Spanned (tree : Tree) (extents : NodeId → Extent) (top : NodeId) : Prop where
  /-- The tree is well formed. -/
  forest : tree.Forest
  /-- Each node is made of its tokens and has its span. -/
  covers : ∀ {id node}, tree.Under top id → tree.get? id = some node →
    tree.Covers extents node (extents id) ∧ (extents id).Spans node.span
  /-- The tokens stand one behind the other. -/
  increasing : Token.Increasing (extents top).tokens

namespace Spanned

variable {top id : NodeId} {below : Node} (spanned : tree.Spanned extents top)
  (under : tree.Under top id)

include spanned

/-- What lies below a node is made of some of its tokens, in their order. -/
theorem sublist {inner : NodeId} (under : tree.Under top id) (lower : tree.Under id inner) :
    (extents inner).tokens.Sublist (extents id).tokens := by
  -- By induction on the way down: each node has the tokens of its children.
  induction lower with
  | top => exact .refl _
  | child lower found member ih =>
    exact ((spanned.covers (under.trans lower) found).1.tokens_child member).trans ih

include under

/-- The tokens of each node stand one behind the other. -/
theorem increasing_at : Token.Increasing (extents id).tokens :=
  spanned.increasing.sublist (spanned.sublist .top under)

/-- No span ends in front of its start. -/
theorem ordered (found : tree.get? id = some node) : node.span.Ordered :=
  (spanned.covers under found).2.ordered
    ((spanned.increasing_at under).sublist (extents id).within_sublist)

/-- Children stand one behind the other. -/
theorem siblings (found : tree.get? id = some node) : node.children.Pairwise tree.Precedes := by
  have among := (spanned.covers under found).1.flatMap_children
  have increasing := (spanned.increasing_at under).sublist among
  have live : ∀ child ∈ node.children, ∃ given, tree.get? child = some given ∧
      (extents child).Spans given.span := by
    intro child member
    obtain ⟨given, lower, -⟩ := spanned.forest.child found child member
    exact ⟨given, lower, (spanned.covers (under.child found member) lower).2⟩
  generalize node.children = children at increasing live
  -- The tokens of each child stand in front of those of all behind it.
  induction children with
  | nil => exact .nil
  | cons first rest ih =>
    rw [List.flatMap_cons] at increasing
    refine .cons (fun other member => ?_) (ih (increasing.sublist (List.sublist_append_right _ _))
      fun child behind => live child (.tail _ behind))
    obtain ⟨given, lower, spans⟩ := live first (List.mem_cons_self ..)
    obtain ⟨given', lower', spans'⟩ := live other (.tail _ member)
    have later : (extents other).within.Sublist (rest.flatMap fun child => (extents child).tokens) :=
      (Extent.within_sublist _).trans (List.sublist_flatten_of_mem (List.mem_map_of_mem member))
    exact ⟨given, given', lower, lower', spans.before spans'
      (increasing.sublist ((Extent.within_sublist _).append later))⟩

/-- A child lies inside its parent, or it is a suppression in front of a property. -/
theorem span_child (found : tree.get? id = some node) (member : child ∈ node.children)
    (lower : tree.get? child = some below) :
    if node.type = .config ∧ below.type = .suppress then below.span.stop.before node.span.start
    else below.span.Inside node.span := by
  obtain ⟨covers, spans⟩ := spanned.covers under found
  have inner := (spanned.covers (under.child found member) lower).2
  have increasing := spanned.increasing_at under
  have among := covers.sublist_child member
  simp only [isOfType_of_get? lower, NodeTypes.mem_only, decide_eq_true_eq] at among
  -- A suppression in front of a property ends before it; all else lies among the node's tokens.
  split at among
  · next mark =>
    rw [if_pos mark]
    exact inner.before spans (increasing.sublist
      (((Extent.within_sublist _).trans among).append (.refl _)))
  · next other =>
    rw [if_neg other]
    exact inner.inside spans (increasing.sublist (Extent.within_sublist _)) among

/-- A suppression in front of a property lies inside the definition that the property belongs to. -/
theorem exists_definition {file : Node} (here : tree.get? top = some file) (root : file.type = .file)
    (found : tree.get? id = some node) (config : node.type = .config) (member : child ∈ node.children)
    (lower : tree.get? child = some below) :
    ∃ definition ∈ file.children, ∃ outer, tree.get? definition = some outer ∧
      outer.type ∈ NodeTypes.definitions ∧ tree.Under definition id ∧
      below.span.Inside outer.span := by
  -- The way down from the file starts at one of its children.
  have other : id ≠ top := by
    rintro rfl
    cases here.symm.trans found
    cases root.symm.trans config
  obtain ⟨definition, listed, inner⟩ := under.exists_child other
  have listed : definition ∈ file.children := by simpa [children, here] using listed
  obtain ⟨outer, upper, -, accepted⟩ := spanned.forest.child here definition listed
  -- A file accepts definitions and suppressions, and suppressions accept nothing.
  have defines : outer.type ∈ NodeTypes.definitions := by
    rw [root] at accepted
    refine (NodeTypes.mem_union.mp accepted).resolve_right fun mark => ?_
    rw [NodeTypes.mem_only] at mark
    have apart : id ≠ definition := by
      rintro rfl
      cases upper.symm.trans found
      cases mark.symm.trans config
    obtain ⟨next, below, -⟩ := inner.exists_child apart
    have below : next ∈ outer.children := by simpa [children, upper] using below
    obtain ⟨given, -, -, fits⟩ := spanned.forest.child upper next below
    rw [mark] at fits
    exact absurd fits (NodeTypes.not_mem_empty _)
  obtain ⟨covers, spans⟩ := spanned.covers (.child .top here listed) upper
  -- A definition starts with its own first token, so all its tokens are within its span.
  have whole : (extents definition).tokens = (extents definition).within := by
    rw [Extent.tokens, covers.ahead_eq_nil defines, List.nil_append]
  have increasing := spanned.increasing_at (.child .top here listed)
  have among := spanned.sublist (.child .top here listed) (inner.child found member)
  rw [whole] at increasing among
  exact ⟨definition, listed, outer, upper, defines, inner,
    (spanned.covers (under.child found member) lower).2.inside spans increasing
      ((Extent.within_sublist _).trans among)⟩

end Spanned

end Tree

end ArgSchema
