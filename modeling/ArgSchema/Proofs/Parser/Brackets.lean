import ArgSchema.Parser.Analysis
import ArgSchema.Proofs.Parser.Heading
import Mathlib.Data.List.TakeDrop

/-! Brackets: the ones that matching leaves over among tokens stay on the stack, and are explained. -/

namespace ArgSchema

/-- The brackets that matching leaves over. -/
structure Unmatched where
  /-- Closing brackets in front of which none was open, in order. -/
  closing : List Token
  /-- Opening brackets that are never closed, the innermost first. -/
  opening : List Token

/-- A shape of brackets. -/
inductive Bracket where
  /-- Brackets around a body. -/
  | curly
  /-- Brackets around what is optional. -/
  | square

namespace Bracket

/-- The opening bracket. -/
def opening : Bracket → TokenKind
  | .curly => .openCurly
  | .square => .openSquare

/-- The closing bracket. -/
def closing : Bracket → TokenKind
  | .curly => .closeCurly
  | .square => .closeSquare

/-- The problem with an opening bracket that is never closed. -/
def unterminated : Bracket → ParseProblem
  | .curly => .unterminatedCurly
  | .square => .unterminatedSquare

/-- The problem with a closing bracket that closes nothing. -/
def unopened : Bracket → ParseProblem
  | .curly => .unmatchedCloseCurly
  | .square => .missingOpenSquare

variable (bracket : Bracket)

/-- What is left over behind a token: a closing bracket takes the innermost open one with it. -/
def pass (left : Unmatched) (token : Token) : Unmatched :=
  if token.kind = bracket.opening then { left with opening := token :: left.opening }
  else if token.kind = bracket.closing then
    match left.opening with
    | [] => { left with closing := left.closing ++ [token] }
    | _ :: outer => { left with opening := outer }
  else left

/-- The brackets that matching leaves over among tokens. -/
def unmatched (tokens : List Token) : Unmatched := tokens.foldl bracket.pass ⟨[], []⟩

/-- The brackets that matching leaves over among the tokens of phrases, of which the last comes
first. -/
def among : List Phrase → Unmatched
  | [] => ⟨[], []⟩
  | .token given :: below => bracket.pass (among below) given
  | _ :: below => among below

variable {bracket} {left : Unmatched} {token : Token}

/-- A token of another kind leaves everything as it is. -/
theorem pass_of_ne (notOpening : token.kind ≠ bracket.opening)
    (notClosing : token.kind ≠ bracket.closing) : bracket.pass left token = left := by
  simp [pass, notOpening, notClosing]

/-- A pair of brackets of either shape leaves everything as it is. -/
theorem pass_pair (pair : Bracket) {opened closed : Token} (opens : opened.kind = pair.opening)
    (closes : closed.kind = pair.closing) : bracket.pass (bracket.pass left opened) closed = left := by
  cases bracket <;> cases pair <;>
    simp_all [pass, Bracket.opening, Bracket.closing]

end Bracket

/-- Whether a kind of token is a bracket. -/
def TokenKind.isBracket : TokenKind → Bool
  | .openCurly | .closeCurly | .openSquare | .closeSquare => true
  | _ => false

namespace Bracket

variable {bracket : Bracket} {left : Unmatched} {token : Token}

/-- A token that is no bracket leaves everything as it is. -/
theorem pass_of_plain (plain : token.kind.isBracket = false) : bracket.pass left token = left := by
  apply pass_of_ne <;> intro same <;> rw [same] at plain <;> cases bracket <;> cases plain

section Phrases

variable (bracket) (below : List Phrase)

/-- Values hold no brackets. -/
@[simp] theorem among_addValues (values : List NodeKind) :
    bracket.among (Phrase.addValues values below) = bracket.among below := by
  unfold Phrase.addValues
  split <;> rfl

/-- Type names hold no brackets. -/
@[simp] theorem among_addType (name : String) :
    bracket.among (Phrase.addType name below) = bracket.among below := by
  unfold Phrase.addType
  split <;> rfl

/-- Properties hold no brackets. -/
@[simp] theorem among_addStatement (statement : Statement) :
    bracket.among (Phrase.addStatement statement below) = bracket.among below := by
  unfold Phrase.addStatement
  split <;> rfl

/-- Items hold no brackets that are left over. -/
@[simp] theorem among_addItem (item : Item) :
    bracket.among (Phrase.addItem item below) = bracket.among below := by
  unfold Phrase.addItem
  split <;> rfl

/-- The properties on top of phrases hold no brackets. -/
theorem among_splitBody : bracket.among (Phrase.splitBody below).2 = bracket.among below := by
  unfold Phrase.splitBody
  split <;> rfl

/-- Suppressions that become part of a property hold no brackets. -/
theorem among_closeProperty (keyword : Label) (values : List NodeKind) :
    bracket.among (Phrase.closeProperty keyword values below) = bracket.among below := by
  -- Suppressions in front of the property are passed over, and none is a bracket.
  simp only [Phrase.closeProperty, List.span_eq_takeWhile_dropWhile, among_addStatement]
  induction below with
  | nil => rfl
  | cons phrase rest ih =>
    rw [List.dropWhile_cons]
    split
    · -- A suppression is an item, and no token.
      next mark =>
      cases phrase with
      | item => exact ih
      | _ => cases mark
    · rfl

variable {bracket below}

/-- Phrases in square brackets leave everything as it is if what stands between the brackets does. -/
theorem among_inSquares {Front : List Phrase → Prop} {optional : Bool} {front : List Phrase}
    (given : Phrase.InSquares Front optional front)
    (plain : ∀ {inner}, Front inner → ∀ below, bracket.among (inner ++ below) = bracket.among below) :
    bracket.among (front ++ below) = bracket.among below := by
  cases given with
  | bare inner => exact plain inner below
  | @brackets closing inner opening closes given opens =>
    -- What stands inside changes nothing, so the two brackets meet.
    simp only [List.cons_append, List.append_assoc, List.nil_append, among, plain given]
    exact pass_pair .square opens closes

/-- The names in front of a body hold no brackets. -/
theorem among_namesFront {labelled : Bool} {labels : List Label} {front : List Phrase}
    (given : Phrase.NamesFront labelled labels front) (below : List Phrase) :
    bracket.among (front ++ below) = bracket.among below := by
  -- Names are plain tokens in each of their forms.
  cases given with
  | word kind | short kind | long kind => exact pass_of_plain (by rw [kind]; rfl)
  | both short long =>
    exact (pass_of_plain (by rw [long]; rfl)).trans (pass_of_plain (by rw [short]; rfl))

/-- The types in front of a body hold no brackets. -/
theorem among_typesFront {variadic : Bool} {names : List String} {front : List Phrase}
    (given : Phrase.TypesFront names variadic front) (below : List Phrase) :
    bracket.among (front ++ below) = bracket.among below := by
  -- A type's name and the mark behind it are plain tokens.
  cases given with
  | once => rfl
  | variadic kind => exact pass_of_plain (by rw [kind]; rfl)

/-- The square brackets of a header are pairs. -/
theorem among_headed {heading : Heading} {front : List Phrase}
    (headed : Phrase.Headed heading front) :
    bracket.among (front ++ below) = bracket.among below := by
  cases headed with
  -- The word for the schema and the name of a type stand alone; lists of an argument may be
  -- optional.
  | metadata kind | typeDefinition kind => exact pass_of_plain (by rw [kind]; rfl)
  | flag names => exact among_inSquares names among_namesFront
  | positional names types | option names types =>
    rw [List.append_assoc, among_inSquares types among_typesFront,
      among_inSquares names among_namesFront]

/-- Without a header that phrases end with, everything that they leave over is left over. -/
theorem among_drop_header {header : Header} (found : Header.ofParts? (below.map Phrase.part) = some header) :
    bracket.among (below.drop header.length) = bracket.among below := by
  -- The phrases that are dropped are those of the header that was found.
  obtain ⟨heading, front, rest, rfl, length, -, headed⟩ := Phrase.headed_of_parts found
  rw [length, List.drop_left, among_headed headed]

end Phrases

section Readers

variable {below : List Phrase} {token : Token}

/-- A type's name is no bracket, whether it joins a list or not. -/
theorem among_readType (kind : token.kind = .type) :
    bracket.among (Phrase.readType token below) = bracket.among below := by
  -- A type joins a list, or stays the plain token it is.
  unfold Phrase.readType
  split
  · exact bracket.among_addType below _
  · exact pass_of_plain (by rw [kind]; rfl)

/-- A word is no bracket, and neither is the modifier that it takes with it. -/
theorem among_readWord (kind : token.kind = .identifier) :
    bracket.among (Phrase.readWord token below) = bracket.among below := by
  have kept : ∀ phrases, bracket.among (.token token :: phrases) = bracket.among phrases :=
    fun _ => pass_of_plain (by rw [kind]; rfl)
  unfold Phrase.readWord
  split
  · next modifier rest =>
    split
    · next suppress =>
      -- Both the suppression and the one that is dropped began with a modifier.
      have word : modifier.kind = .modifier := by
        simp only [Token.isSuppress, Bool.and_eq_true, decide_eq_true_eq] at suppress
        exact suppress.1
      have without : bracket.among (.token modifier :: rest) = bracket.among rest :=
        pass_of_plain (by rw [word]; rfl)
      rw [without]
      split
      · exact bracket.among_addItem rest _
      · rfl
    · exact kept _
  · exact kept _

/-- A semicolon is no bracket, and a property that it closes holds none. -/
theorem among_readSemicolon (kind : token.kind = .semicolon) :
    bracket.among (Phrase.readSemicolon token below) = bracket.among below := by
  have kept : ∀ phrases, bracket.among (.token token :: phrases) = bracket.among phrases :=
    fun _ => pass_of_plain (by rw [kind]; rfl)
  unfold Phrase.readSemicolon
  split
  · split
    · rfl
    · exact kept _
  · rfl
  · next given word rest =>
    split
    · next keyword named =>
      -- The word of the property is no bracket either.
      have plain : word.kind.isBracket = false := by
        cases kind : word.kind <;>
          first | rfl | simp [Token.keyword?, Token.isKeyword, kind] at named
      rw [bracket.among_closeProperty]
      exact (pass_of_plain plain).symm
    · exact kept _
  · exact kept _

/-- A closing curly bracket that makes a definition takes the one in front of the body with it; any
other stays. -/
theorem among_readCloseCurly (kind : token.kind = .closeCurly) :
    bracket.among (Phrase.readCloseCurly token below) =
      bracket.pass (bracket.among below) token := by
  unfold Phrase.readCloseCurly
  split
  · next opening rest body =>
    split
    · next opens =>
      split
      · next header found =>
        -- The header is gone with its pairs, and the brackets of the body are another pair.
        have split : bracket.among below = bracket.pass (bracket.among rest) opening := by
          rw [← bracket.among_splitBody below, body]
          rfl
        rw [bracket.among_addItem, among_drop_header found, split]
        exact (pass_pair .curly opens kind).symm
      · rfl
    · rfl
  · rfl

/-- Reading a token leaves over what matching does behind it: no reduction takes a bracket that
something else would match, or leaves one that is matched. -/
theorem among_read (phrases : List Phrase) (token : Token) :
    bracket.among (Phrase.read phrases token) = bracket.pass (bracket.among phrases) token := by
  unfold Phrase.read Phrase.reduce
  -- One case for each kind of token that is reduced, and the last for those that only stay.
  dsimp only
  split
  · next value =>
    rw [bracket.among_addValues, pass_of_plain]
    cases kind : token.kind <;> simp_all [TokenKind.isValue, TokenKind.isBracket]
  · split
    · next kind => rw [among_readSemicolon kind, pass_of_plain (by rw [kind]; rfl)]
    · next kind => rw [among_readType kind, pass_of_plain (by rw [kind]; rfl)]
    · next kind => rw [among_readWord kind, pass_of_plain (by rw [kind]; rfl)]
    · next kind => exact among_readCloseCurly kind
    · rfl

/-- What matching leaves over among tokens is left over on the stack once they are read. -/
theorem among_readAll (phrases : List Phrase) (tokens : List Token) :
    bracket.among (Phrase.readAll phrases tokens) = tokens.foldl bracket.pass (bracket.among phrases) := by
  induction tokens generalizing phrases with
  | nil => rfl
  | cons token rest ih =>
    -- One more token is one more step of both.
    rw [Phrase.readAll, List.foldl_cons, ← Phrase.readAll, ih, among_read, List.foldl_cons]

end Readers

end Bracket

end ArgSchema
