import ArgSchema.Proofs.Preprocessor.Raw

/-! Skips: text that does not count ends at the directive that closes it, or at the end of its file. -/

namespace ArgSchema

/-- How many conditionals are open behind tokens, unless one of them closes the text around them. -/
def RawText.nesting? (depth : Nat) : List Token → Option Nat
  | [] => some depth
  | found :: rest =>
    if opensConditional found then nesting? (depth + 1) rest
    else if closesConditional found then
      match depth with
      | 0 => none
      | depth + 1 => nesting? depth rest
    else nesting? depth rest

/-- Each token that is dropped opens a conditional, closes one, or does neither. -/
theorem RawText.nesting?_cons (depth : Nat) (found : Token) (rest : List Token) :
    nesting? depth (found :: rest) =
      if opensConditional found then nesting? (depth + 1) rest
      else if closesConditional found then
        match depth with
        | 0 => none
        | depth + 1 => nesting? depth rest
      else nesting? depth rest := by
  rw [nesting?.eq_def]

namespace Lexer

/-- Tokens that a lexer gives one after the other, in front of its end. -/
inductive Gives : Lexer → List Token → Lexer → Prop
  /-- It gives none. -/
  | nil {lexer : Lexer} : Gives lexer [] lexer
  /-- It gives one in front of others. -/
  | cons {lexer later : Lexer} {token : Token} {tokens : List Token} :
      lexer.pop.result = .ok token → token.isEnd = false → Gives lexer.pop.next tokens later →
      Gives lexer (token :: tokens) later

variable {lexer later : Lexer} {tokens : List Token}

/-- A lexer gives no more tokens than it weighs. -/
theorem Gives.length_le (gives : Gives lexer tokens later) :
    tokens.length + later.weight ≤ lexer.weight := by
  induction gives with
  | nil => simp
  | @cons lexer later token tokens taken inside _ ih =>
    -- Each token takes at least one unit of the weight.
    have lighter := weight_pop taken inside
    have positive := token.weight_pos
    rw [List.length_cons]
    omega

/-- What stops a skip in the text of a conditional, around which others were opened, and what the skip
comes to. -/
inductive Stops (later : Lexer) : Nat → Reading Lexer Bool → Prop
  /-- The directive that closes the text. -/
  | closed {token : Token} : later.pop.result = .ok token →
      RawText.closesConditional token = true → Stops later 0 (.ok true later.pop.next)
  /-- The end of the file, which is put back. -/
  | ended {depth : Nat} {token : Token} : later.pop.result = .ok token → token.isEnd = true →
      Stops later depth (.ok false (later.pop.next.push token))
  /-- Text that cannot be read. -/
  | failed {depth : Nat} {failure : Failure} : later.pop.result = .error failure →
      Stops later depth (.fail failure later.pop.next)

/-- A skip drops tokens up to what stops it. -/
structure Skipped (lexer : Lexer) (depth : Nat) (dropped : List Token) (later : Lexer) (inner : Nat)
    (reading : Reading Lexer Bool) : Prop where
  /-- The tokens are dropped one after the other. -/
  gives : lexer.Gives dropped later
  /-- Every conditional that is closed within them was opened, here or around the skip. -/
  nested : RawText.nesting? depth dropped = some inner
  /-- Behind them the skip stops. -/
  stops : later.Stops inner reading

/-- One more token is dropped in front of others. -/
theorem Skipped.cons {token : Token} {depth nested inner : Nat} {reading : Reading Lexer Bool}
    (skipped : lexer.pop.next.Skipped nested tokens later inner reading)
    (taken : lexer.pop.result = .ok token) (inside : token.isEnd = false)
    (step : RawText.nesting? depth (token :: tokens) = RawText.nesting? nested tokens) :
    lexer.Skipped depth (token :: tokens) later inner reading :=
  ⟨.cons taken inside skipped.gives, step.trans skipped.nested, skipped.stops⟩

/-- Every skip meets the directive that closes the text, the end of the file or a failure. -/
theorem exists_skipped (depth : Nat) (lexer : Lexer) :
    ∃ dropped later inner, lexer.Skipped depth dropped later inner (lexer.skipConditional depth) := by
  -- A turn stops the skip, or drops a token in front of those that the rest of the skip drops.
  fun_induction Lexer.skipConditional depth lexer with
  | case1 depth lexer why failed => exact ⟨[], lexer, depth, .nil, rfl, .failed failed⟩
  | case2 depth lexer token taken ended => exact ⟨[], lexer, depth, .nil, rfl, .ended taken ended⟩
  -- One more to close.
  | case3 depth lexer token taken inside opening ih =>
    have opens : RawText.opensConditional token = true := by
      simpa [RawText.opensConditional] using opening
    obtain ⟨dropped, later, inner, skipped⟩ := ih
    exact ⟨_, later, inner, skipped.cons taken (by simpa using inside)
      (by rw [RawText.nesting?_cons, if_pos opens])⟩
  -- The one that closes the skip.
  | case4 lexer token taken inside opening closing =>
    have closes : RawText.closesConditional token = true := by
      simpa [RawText.closesConditional] using closing
    exact ⟨[], lexer, 0, .nil, rfl, .closed taken closes⟩
  -- One fewer to close.
  | case5 lexer token taken inside opening closing depth ih =>
    have opens : ¬RawText.opensConditional token = true := by
      simpa [RawText.opensConditional] using opening
    have closes : RawText.closesConditional token = true := by
      simpa [RawText.closesConditional] using closing
    obtain ⟨dropped, later, inner, skipped⟩ := ih
    exact ⟨_, later, inner, skipped.cons taken (by simpa using inside)
      (by rw [RawText.nesting?_cons, if_neg opens, if_pos closes])⟩
  -- Any other token.
  | case6 depth lexer token taken inside opening closing ih =>
    have opens : ¬RawText.opensConditional token = true := by
      simpa [RawText.opensConditional] using opening
    have closes : ¬RawText.closesConditional token = true := by
      simpa [RawText.closesConditional] using closing
    obtain ⟨dropped, later, inner, skipped⟩ := ih
    exact ⟨_, later, inner, skipped.cons taken (by simpa using inside)
      (by rw [RawText.nesting?_cons, if_neg opens, if_neg closes])⟩

end Lexer

end ArgSchema
