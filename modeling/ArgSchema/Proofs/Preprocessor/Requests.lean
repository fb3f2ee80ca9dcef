import ArgSchema.Proofs.Preprocessor.Raw

/-! Requests to a stream: what taking, showing and putting back tokens gives, if a plain text stood for
the stream. -/

namespace ArgSchema

/-- What can be done with a stream of tokens. -/
structure Operations (stream : Type) where
  /-- Takes the next token. -/
  pop : stream → Reading stream Token
  /-- Shows the next token. -/
  peek : stream → Reading stream Token
  /-- Puts a token in front of the others. -/
  push : stream → Token → stream

/-- A request to a stream. Only tokens that the stream gave before can be put back, so they are called by
their number. -/
inductive Request where
  /-- The next token is taken. -/
  | pop
  /-- The next token is shown. -/
  | peek
  /-- A token that was given before is put back. -/
  | push (index : Nat)
deriving DecidableEq, Repr

namespace RawText

/-- Takes the first token of a text. The end comes again and again, but what is reported on the way to it
comes once. -/
def pop : RawText → Reading RawText Token
  | .token reports found rest => ⟨reports, .ok found, rest⟩
  | .ending reports last => ⟨reports, .ok last, .ending [] last⟩
  | .failure reports why => ⟨reports, .error why, .failure [] why⟩

/-- Puts a token in front of a text. -/
def push (text : RawText) (token : Token) : RawText := .token [] token text

/-- Shows the first token of a text, which stays in front of it. -/
def peek (text : RawText) : Reading RawText Token :=
  text.pop.andThen fun token rest => .ok token (rest.push token)

/-- A text as a stream, which tokens can be put in front of. -/
def operations : Operations RawText := ⟨pop, peek, push⟩

/-- All that is reported in a text. -/
def reports : RawText → List Diagnostic
  | .token reports _ rest => reports ++ rest.reports
  | .ending reports _ | .failure reports _ => reports

/-- Nothing is reported in a text behind a token that is an end. -/
def Closes : RawText → Prop
  | .token _ found rest => (found.isEnd = true → rest.reports = []) ∧ rest.Closes
  | .ending .. | .failure .. => True

/-- Taking a token takes what is reported on the way to it. -/
theorem reports_pop {text : RawText} {token : Token} (taken : text.pop.result = .ok token) :
    text.pop.reports ++ text.pop.next.reports = text.reports := by
  -- Only a token has reports behind it.
  cases text with
  | token before found rest => rfl
  | ending before last => exact List.append_nil before
  | failure before why => cases taken

/-- Behind an end that was taken nothing is reported. -/
theorem Closes.pop {text : RawText} (closes : text.Closes) {token : Token}
    (taken : text.pop.result = .ok token) :
    text.pop.next.Closes ∧ (token.isEnd = true → text.pop.next.reports = []) := by
  -- Behind the ending nothing is reported.
  cases text with
  | token before found rest =>
    cases taken
    exact ⟨closes.2, closes.1⟩
  | ending before last => exact ⟨trivial, fun _ => rfl⟩
  | failure before why => cases taken

/-- Behind a token that was taken nothing is left to be reported if it is an end, or if one was given
before. -/
theorem Closes.reports_next {text : RawText} (closes : text.Closes) {given : List Token}
    (silent : (∃ token ∈ given, token.isEnd = true) → text.reports = []) {token : Token}
    (taken : text.pop.result = .ok token)
    (ended : ∃ other ∈ given ++ [token], other.isEnd = true) : text.pop.next.reports = [] := by
  obtain ⟨other, member, last⟩ := ended
  -- Either the text had ended before, or the token that was taken is its end.
  rcases List.mem_append.mp member with old | new
  · have none := reports_pop taken
    rw [silent ⟨other, old, last⟩] at none
    exact (List.append_eq_nil_iff.mp none).2
  · exact (closes.pop taken).2 (List.mem_singleton.mp new ▸ last)

end RawText

namespace Operations

variable {stream : Type}

/-- Makes requests in order until one of them fails, and lists all tokens that are given, behind some that
were given before. -/
def run (ops : Operations stream) :
    List Request → List Token → stream → Reading stream (List Token)
  | [], given, tokens => .ok given tokens
  | .pop :: rest, given, tokens =>
    (ops.pop tokens).andThen fun token next => ops.run rest (given ++ [token]) next
  | .peek :: rest, given, tokens =>
    (ops.peek tokens).andThen fun token next => ops.run rest (given ++ [token]) next
  -- Only what was given can be put back.
  | .push index :: rest, given, tokens =>
    ops.run rest given (given[index]?.elim tokens (ops.push tokens))

/-- What a stream drains to, if tokens are only taken: each token with what is reported on the way to it,
up to the end or a failure. -/
inductive Drains (ops : Operations stream) : stream → RawText → Prop
  /-- A token in front of the end. -/
  | token {tokens next : stream} {reports : List Diagnostic} {found : Token} {rest : RawText} :
      ops.pop tokens = ⟨reports, .ok found, next⟩ → found.isEnd = false → Drains ops next rest →
      Drains ops tokens (.token reports found rest)
  /-- The end. -/
  | ending {tokens next : stream} {reports : List Diagnostic} {last : Token} :
      ops.pop tokens = ⟨reports, .ok last, next⟩ → last.isEnd = true →
      Drains ops tokens (.ending reports last)
  /-- A failure. -/
  | failure {tokens next : stream} {reports : List Diagnostic} {why : Failure} :
      ops.pop tokens = ⟨reports, .error why, next⟩ → Drains ops tokens (.failure reports why)

/-- Whatever is asked for, a stream gives the tokens that the text gives which it drains to, with the same
reports, and fails where the text does. Once the end was given, all that the text reports was reported. -/
def Replays (ops : Operations stream) (tokens : stream) : Prop :=
  ∃ text, ops.Drains tokens text ∧ ∀ requests : List Request,
    let asked := ops.run requests [] tokens
    -- The same requests are answered from the list of all tokens, last in first out.
    let ideal := RawText.operations.run requests [] text
    asked.result = ideal.result ∧ asked.reports = ideal.reports ∧
      ∀ given, asked.result = .ok given → (∃ token ∈ given, token.isEnd = true) →
        asked.reports = text.reports

/-- A token that is put back is the next one that is taken, and the stream is as before. -/
def Returns (ops : Operations stream) (tokens : stream) (token : Token) : Prop :=
  ops.pop (ops.push tokens token) = .ok token tokens

/-- A stream with tokens put back in front of it, the last of them first. -/
def pushAll (ops : Operations stream) (tokens : stream) (stack : List Token) : stream :=
  stack.foldr (fun token below => ops.push below token) tokens

/-- A stream that has nothing but an end, which can be put back in front of whatever was. -/
structure Ended (ops : Operations stream) (tokens : stream) (last : Token) : Prop where
  /-- The end comes again and again. -/
  again : ops.pop tokens = .ok last tokens
  /-- It can be put back. -/
  returns : ∀ stack, ops.Returns (ops.pushAll tokens stack) last

/-- A stream that drains to a text, and whose tokens can be put back once they were given. -/
inductive Serves (ops : Operations stream) : stream → RawText → Prop
  /-- A token in front of the end can be put back in front of anything. -/
  | token {tokens next : stream} {reports : List Diagnostic} {found : Token} {rest : RawText} :
      ops.pop tokens = ⟨reports, .ok found, next⟩ → found.isEnd = false →
      (∀ other, ops.Returns other found) → Serves ops next rest →
      Serves ops tokens (.token reports found rest)
  /-- Behind the end there is nothing else. -/
  | ending {tokens next : stream} {reports : List Diagnostic} {last : Token} :
      ops.pop tokens = ⟨reports, .ok last, next⟩ → last.isEnd = true → ops.Ended next last →
      Serves ops tokens (.ending reports last)
  /-- A failure. -/
  | failure {tokens next : stream} {reports : List Diagnostic} {why : Failure} :
      ops.pop tokens = ⟨reports, .error why, next⟩ → Serves ops tokens (.failure reports why)

variable {ops : Operations stream} {tokens : stream} {text : RawText}

/-- A stream drains to the text that it serves. -/
theorem Serves.drains (serves : ops.Serves tokens text) : ops.Drains tokens text := by
  -- By induction on what is served, request by request.
  induction serves with
  | token popped inside _ _ ih => exact .token popped inside ih
  | ending popped ended => exact .ending popped ended
  | failure popped => exact .failure popped

/-- No token in front of the end is an end, so nothing is reported behind one. -/
theorem Serves.closes (serves : ops.Serves tokens text) : text.Closes := by
  -- No token that is served is an end.
  induction serves with
  | token popped inside _ _ ih => exact ⟨fun ended => by simp [inside] at ended, ih⟩
  | ending => trivial
  | failure => trivial

/-- A token that was given can be put back: it is no end, or the stream has ended with it. -/
def Ready (ops : Operations stream) (tokens : stream) (token : Token) : Prop :=
  (∀ other, ops.Returns other token) ∨ ops.Ended tokens token

/-- A token that can be put back can be so in front of others that were. -/
theorem Ready.returns {token : Token} (ready : ops.Ready tokens token) (stack : List Token) :
    ops.Returns (ops.pushAll tokens stack) token :=
  ready.elim (fun all => all _) fun ended => ended.returns stack

/-- A token that can be put back still can be when another one was taken. -/
theorem Ready.next {token : Token} (ready : ops.Ready tokens token) {reports : List Diagnostic}
    {found : Token} {next : stream} (popped : ops.pop tokens = ⟨reports, .ok found, next⟩) :
    ops.Ready next token := by
  refine ready.imp_right fun ended => ?_
  -- Taking the end leaves the stream as it is.
  have same : tokens = next := congrArg Reading.next (ended.again.symm.trans popped)
  exact same ▸ ended

/-- A stream and a text with the same tokens put back in front of them, all of which were given before. -/
inductive Mirrors (ops : Operations stream) (given : List Token) : stream → RawText → Prop
  /-- Behind the tokens that were put back the stream serves the text. -/
  | stacked {base : stream} {rest : RawText} (stack : List Token) : ops.Serves base rest →
      (∀ token ∈ given, ops.Ready base token) → stack ⊆ given →
      Mirrors ops given (ops.pushAll base stack) (RawText.operations.pushAll rest stack)

variable {given : List Token}

/-- A stream that mirrors a text gives the token that the text gives, and mirrors it afterwards. -/
theorem Mirrors.pop (mirrors : ops.Mirrors given tokens text) :
    (ops.pop tokens).reports = text.pop.reports ∧ (ops.pop tokens).result = text.pop.result ∧
      ∀ token, text.pop.result = .ok token →
        ops.Mirrors (given ++ [token]) (ops.pop tokens).next text.pop.next := by
  obtain @⟨base, rest, stack, serves, ready, inside⟩ := mirrors
  cases stack with
  | cons token below =>
    -- The token that was put back last is taken from both.
    have listed : token ∈ given := inside (.head _)
    have popped : ops.pop (ops.pushAll base (token :: below)) = .ok token (ops.pushAll base below) :=
      (ready token listed).returns below
    rw [popped]
    refine ⟨rfl, rfl, ?_⟩
    rintro _ ⟨⟩
    refine .stacked below serves (fun other member => ?_) fun other member => ?_
    · rcases List.mem_append.mp member with old | new
      · exact ready other old
      · exact List.mem_singleton.mp new ▸ ready token listed
    · exact List.mem_append_left _ (inside (.tail _ member))
  | nil =>
    -- Nothing is left that was put back, so the next token is that of the stream itself.
    have later : ∀ {reports : List Diagnostic} {found : Token} {next : stream} {rest : RawText},
        ops.pop base = ⟨reports, .ok found, next⟩ → ops.Ready next found → ops.Serves next rest →
          ops.Mirrors (given ++ [found]) next rest := by
      intro reports found next rest popped fresh serves
      refine .stacked [] serves (fun other member => ?_) (List.nil_subset _)
      rcases List.mem_append.mp member with old | new
      · exact (ready other old).next popped
      · exact List.mem_singleton.mp new ▸ fresh
    show (ops.pop base).reports = rest.pop.reports ∧ (ops.pop base).result = rest.pop.result ∧
      ∀ token, rest.pop.result = .ok token →
        ops.Mirrors (given ++ [token]) (ops.pop base).next rest.pop.next
    -- The base serves the rest: a token, its end, or a failure that ends all serving.
    cases serves with
    | token popped _ returns serves =>
      rw [popped]
      refine ⟨rfl, rfl, ?_⟩
      rintro _ ⟨⟩
      exact later popped (.inl returns) serves
    | ending popped last ended =>
      rw [popped]
      refine ⟨rfl, rfl, ?_⟩
      rintro _ ⟨⟩
      exact later popped (.inr ended) (.ending ended.again last ended)
    | failure popped =>
      rw [popped]
      exact ⟨rfl, rfl, by rintro _ ⟨⟩⟩

/-- A token that was given can be put back in front of both a stream and the text that it mirrors. -/
theorem Mirrors.push (mirrors : ops.Mirrors given tokens text) {token : Token}
    (listed : token ∈ given) : ops.Mirrors given (ops.push tokens token) (text.push token) := by
  obtain @⟨base, rest, stack, serves, ready, inside⟩ := mirrors
  exact .stacked (token :: stack) serves ready (List.cons_subset.mpr ⟨listed, inside⟩)

/-- Requests to a stream that mirrors a text give what they give of the text. -/
theorem Mirrors.run
    (shows : ∀ tokens, ops.peek tokens =
      (ops.pop tokens).andThen fun token next => .ok token (ops.push next token))
    (requests : List Request) :
    ∀ {given : List Token} {tokens : stream} {text : RawText}, ops.Mirrors given tokens text →
      (ops.run requests given tokens).result = (RawText.operations.run requests given text).result ∧
        (ops.run requests given tokens).reports =
          (RawText.operations.run requests given text).reports := by
  -- What was given so far is the same on both sides, and so a number calls the same token.
  induction requests with
  | nil => exact fun _ => ⟨rfl, rfl⟩
  | cons request rest ih =>
    intro given tokens text mirrors
    obtain ⟨reports, result, next⟩ := mirrors.pop
    cases request with
    -- Taking a token reports the same, gives the same and leaves mirrors.
    | pop =>
      simp only [Operations.run, RawText.operations, Reading.andThen, reports, result]
      cases taken : text.pop.result with
      | error why => exact ⟨rfl, rfl⟩
      | ok token =>
        obtain ⟨result', reports'⟩ := ih (next token taken)
        exact ⟨result', congrArg (text.pop.reports ++ ·) reports'⟩
    | peek =>
      simp only [Operations.run, RawText.operations, RawText.peek, shows, Reading.andThen, reports,
        result]
      cases taken : text.pop.result with
      | error why => exact ⟨rfl, rfl⟩
      | ok token =>
        -- What is shown is put back at once.
        have back := (next token taken).push (List.mem_append_right given (List.mem_singleton_self _))
        obtain ⟨result', reports'⟩ := ih back
        exact ⟨result', congrArg ((text.pop.reports ++ []) ++ ·) reports'⟩
    | push index =>
      simp only [Operations.run]
      -- A token that was not given cannot be put back.
      cases called : given[index]? with
      | none => exact ih mirrors
      | some token => exact ih (mirrors.push (List.mem_of_getElem? called))

/-- What requests to a text report and what they leave to be reported is all that the text reports, and
nothing is left once an end was given. -/
theorem reports_run (requests : List Request) :
    ∀ {given all : List Token} {text : RawText}, text.Closes →
      ((∃ token ∈ given, token.isEnd = true) → text.reports = []) →
      (RawText.operations.run requests given text).result = .ok all →
      let asked := RawText.operations.run requests given text
      asked.reports ++ asked.next.reports = text.reports ∧
        ((∃ token ∈ all, token.isEnd = true) → asked.next.reports = []) := by
  -- Requests move reports from what is left to what was reported, and putting back moves none.
  induction requests with
  | nil =>
    intro given all text _ silent done
    cases done
    exact ⟨rfl, silent⟩
  | cons request rest ih =>
    intro given all text closes silent done
    have taking := fun {token} => @RawText.Closes.reports_next text closes given silent token
    cases request with
    -- What taking reports is what is no longer left.
    | pop =>
      simp only [Operations.run, RawText.operations, Reading.andThen] at done ⊢
      cases taken : text.pop.result with
      | error why => simp [taken] at done
      | ok token =>
        simp only [taken, Reading.after] at done ⊢
        obtain ⟨total, ended⟩ := ih (closes.pop taken).1 (taking taken) done
        refine ⟨?_, ended⟩
        rw [← RawText.reports_pop taken, ← total, List.append_assoc]
        rfl
    -- Looking puts the token back, without its reports.
    | peek =>
      simp only [Operations.run, RawText.operations, RawText.peek, Reading.andThen] at done ⊢
      cases taken : text.pop.result with
      | error why => simp [taken] at done
      | ok token =>
        simp only [taken, Reading.after, Reading.ok, List.append_nil] at done ⊢
        obtain ⟨closes', silent'⟩ := closes.pop taken
        -- What is shown is put back at once.
        have back : (text.pop.next.push token).Closes := ⟨silent', closes'⟩
        obtain ⟨total, ended⟩ := ih back (taking taken) done
        refine ⟨?_, ended⟩
        rw [← RawText.reports_pop taken, List.append_assoc]
        exact congrArg (text.pop.reports ++ ·) total
    | push index =>
      simp only [Operations.run] at done ⊢
      cases called : given[index]? with
      | none =>
        rw [called] at done
        exact ih closes silent done
      | some token =>
        rw [called] at done
        -- An end can only be put back when nothing is left to be reported.
        have listed := List.mem_of_getElem? called
        have back : (text.push token).Closes := ⟨fun ended => silent ⟨token, listed, ended⟩, closes⟩
        exact ih back silent done

/-- A stream serves some text if an invariant makes sure that each token can be put back, and that there
is less behind a token in front of the end. -/
theorem exists_serves {smaller : stream → stream → Prop} (wellFounded : WellFounded smaller)
    (Inv : stream → Prop)
    (inside : ∀ {tokens : stream} {found : Token}, Inv tokens →
      (ops.pop tokens).result = .ok found → found.isEnd = false →
        (∀ other, ops.Returns other found) ∧ Inv (ops.pop tokens).next ∧
          smaller (ops.pop tokens).next tokens)
    (ended : ∀ {tokens : stream} {last : Token}, Inv tokens →
      (ops.pop tokens).result = .ok last → last.isEnd = true → ops.Ended (ops.pop tokens).next last) :
    ∀ tokens, Inv tokens → ∃ text, ops.Serves tokens text := by
  -- The induction is on the stream, which gets smaller with each token in front of the end.
  intro tokens
  induction tokens using wellFounded.induction with
  | _ tokens ih =>
    intro inv
    -- What is taken is a failure, the end, or a token in front of what the rest serves.
    cases taken : (ops.pop tokens).result with
    | error why =>
      have popped : ops.pop tokens =
          ⟨(ops.pop tokens).reports, .error why, (ops.pop tokens).next⟩ := by rw [← taken]
      exact ⟨_, .failure popped⟩
    | ok found =>
      have popped : ops.pop tokens =
          ⟨(ops.pop tokens).reports, .ok found, (ops.pop tokens).next⟩ := by rw [← taken]
      cases last : found.isEnd with
      | true => exact ⟨_, .ending popped last (ended inv taken last)⟩
      | false =>
        obtain ⟨returns, inv', less⟩ := inside inv taken last
        obtain ⟨rest, serves⟩ := ih _ less inv'
        exact ⟨_, .token popped last returns serves⟩

/-- A stream that serves a text, and shows its next token by taking it and putting it back, gives what is
asked for as the text does. -/
theorem Serves.replays (serves : ops.Serves tokens text)
    (shows : ∀ tokens, ops.peek tokens =
      (ops.pop tokens).andThen fun token next => .ok token (ops.push next token)) :
    ops.Replays tokens := by
  refine ⟨text, serves.drains, fun requests => ?_⟩
  have mirrors : ops.Mirrors [] tokens text := .stacked [] serves (by simp) (List.nil_subset _)
  obtain ⟨result, reports⟩ := mirrors.run shows requests
  refine ⟨result, reports, fun given done ended => ?_⟩
  -- The text has reported everything once it gave its end.
  obtain ⟨total, silent⟩ := reports_run requests serves.closes (by simp) (result ▸ done)
  rw [reports, ← total, silent ended, List.append_nil]

end Operations

end ArgSchema
