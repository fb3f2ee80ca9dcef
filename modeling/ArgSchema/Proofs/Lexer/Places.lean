import ArgSchema.Proofs.Lexer.Local

/-! Places: positions and spans tell which bytes of a text were read. -/

namespace ArgSchema

namespace Position

/-- A position is not before itself. -/
theorem before_irrefl (a : Position) : ¬a.before a := by
  unfold before
  omega

/-- Positions are ordered. -/
theorem before_trans {a b c : Position} (first : a.before b) (second : b.before c) : a.before c := by
  unfold before at *
  omega

/-- Of two positions the later one is not before the other. -/
theorem not_before_of_before {a b : Position} (before : a.before b) : ¬b.before a := fun back =>
  before_irrefl a (before_trans before back)

/-- The position of the byte behind some bytes: the line ends and the bytes of the last line count. -/
def behind (bytes : Bytes) : Position :=
  ⟨bytes.countP (· = byte '\n') + 1, (bytes.reverse.takeWhile (· ≠ byte '\n')).length + 1⟩

/-- A line end starts a new line, and any other byte takes one column. -/
theorem behind_concat (bytes : Bytes) (b : UInt8) : behind (bytes ++ [b]) =
    if b = byte '\n' then ⟨(behind bytes).line + 1, 1⟩
    else ⟨(behind bytes).line, (behind bytes).column + 1⟩ := by
  -- The last byte is the first one from behind: a line end starts a line, any other widens it.
  unfold behind
  rw [List.countP_append, List.reverse_append, List.reverse_singleton, List.singleton_append]
  split
  · next line => simp [line]
  · next other => simp [other]

/-- Behind more bytes the position is later. -/
theorem before_behind_append (bytes : Bytes) {front : Bytes} (some : front ≠ []) :
    (behind bytes).before (behind (bytes ++ front)) := by
  -- One byte goes on by a column or to the next line.
  have one : ∀ (bytes : Bytes) b, (behind bytes).before (behind (bytes ++ [b])) := by
    intro bytes b
    rw [behind_concat]
    split
    · exact .inl (Nat.lt_succ_self _)
    · exact .inr ⟨rfl, Nat.lt_succ_self _⟩
  induction front generalizing bytes with
  | nil => exact absurd rfl some
  | cons b rest ih =>
    rw [← List.singleton_append, ← List.append_assoc]
    cases rest with
    | nil =>
      rw [List.append_nil]
      exact one bytes b
    | cons c rest => exact before_trans (one bytes b) (ih (bytes ++ [b]) (by simp))

/-- In one text different bytes stand at different positions. -/
theorem behind_inj {before before' back back' : Bytes} (text : before ++ back = before' ++ back')
    (same : behind before = behind before') : before = before' := by
  -- Of two beginnings of a text one goes on where the other ends.
  have equal : ∀ {x front : Bytes}, behind x = behind (x ++ front) → x = x ++ front := by
    intro x front same
    by_cases some : front = []
    · rw [some, List.append_nil]
    · have later := before_behind_append x some
      rw [← same] at later
      exact absurd later (before_irrefl _)
  rcases List.append_eq_append_iff.mp text with ⟨front, rfl, -⟩ | ⟨front, rfl, -⟩
  · exact equal same
  · exact (equal same.symm).symm

end Position

/-- A span denotes bytes of a text behind some others: it goes from the first of them to the last. -/
structure Span.Denotes (span : Span) (before slice : Bytes) : Prop where
  /-- There are such bytes. -/
  some : slice ≠ []
  /-- The first stands at the start. -/
  start : span.start = Position.behind before
  /-- The last stands at the end. -/
  stop : span.stop = Position.behind (before ++ slice.dropLast)

namespace Span.Denotes

variable {span other : Span} {before slice before' slice' : Bytes}

/-- In one text a span denotes the same bytes only. -/
theorem unique {after after' : Bytes} (first : span.Denotes before slice)
    (second : span.Denotes before' slice')
    (text : before ++ slice ++ after = before' ++ slice' ++ after') :
    before = before' ∧ slice = slice' := by
  rw [List.append_assoc, List.append_assoc] at text
  obtain rfl := Position.behind_inj text (first.start.symm.trans second.start)
  refine ⟨rfl, ?_⟩
  have whole := List.append_cancel_left text
  -- The bytes in front of the last are the same, and so is the last.
  have split := List.dropLast_append_getLast first.some
  have split' := List.dropLast_append_getLast second.some
  rw [← split, ← split', List.append_assoc, List.append_assoc] at whole
  have stop := first.stop.symm.trans second.stop
  have front := List.append_cancel_left (Position.behind_inj (by
    rw [List.append_assoc, List.append_assoc, whole]) stop)
  rw [front] at whole
  have last := List.append_cancel_left whole
  rw [← split, ← split', front, (List.cons.inj last).1]

/-- A span ends in front of spans of bytes that stand behind its own. -/
theorem stop_before (first : span.Denotes before slice)
    (second : other.Denotes (before ++ slice ++ before') slice') :
    span.stop.before other.start := by
  -- The end of a span is the place of its last byte, and the other span starts behind that.
  have split := List.dropLast_append_getLast first.some
  rw [first.stop, second.start, ← split, ← List.append_assoc, List.append_assoc,
    List.dropLast_concat]
  exact Position.before_behind_append _ (by simp)

end Span.Denotes

namespace Cursor

/-- A cursor stands behind some bytes of its text. -/
def Stands (cursor : Cursor) (before : Bytes) : Prop :=
  cursor.position = Position.behind before

/-- At the start of a text nothing is in front of the cursor. -/
theorem stands_ofSource (source : Bytes) : (ofSource source).Stands [] := rfl

namespace Stands

variable {cursor : Cursor} {before : Bytes}

/-- One step goes over one byte. -/
theorem step (stands : cursor.Stands before) {b : UInt8} {rest : Bytes}
    (found : cursor.rest = b :: rest) : cursor.step.Stands (before ++ [b]) := by
  -- The cursor counts lines and columns as the place behind the bytes does.
  unfold Stands at *
  rw [Position.behind_concat, ← stands]
  unfold Cursor.step
  simp only [found]
  split <;> rfl

/-- Going on goes over as many bytes as it counts. -/
theorem advance (stands : cursor.Stands before) {front back : Bytes}
    (found : cursor.rest = front ++ back) :
    (cursor.advance front.length).Stands (before ++ front) := by
  -- One step for each byte.
  induction front generalizing cursor before with
  | nil => rwa [List.append_nil]
  | cons b front ih =>
    have next : cursor.step.rest = front ++ back := by simp [rest_step, found]
    have given := ih (stands.step found) next
    rwa [List.append_assoc, List.singleton_append] at given

/-- The span over bytes that do not end with a line end denotes them. -/
theorem denotes (stands : cursor.Stands before) {slice back : Bytes}
    (found : cursor.rest = slice ++ back) (some : slice ≠ []) (solid : Solid slice)
    (breadcrumb : Breadcrumb) :
    (cursor.spanTo (cursor.advance slice.length) breadcrumb).Denotes before slice := by
  refine ⟨some, stands, ?_⟩
  have split := List.dropLast_append_getLast some
  have other : slice.getLast some ≠ byte '\n' := fun line =>
    solid (by rw [List.getLast?_eq_some_getLast some, line])
  -- Behind the last byte, which is no line end, one column more is counted than in front of it.
  have stop : (cursor.advance slice.length).position =
      ⟨(Position.behind (before ++ slice.dropLast)).line,
        (Position.behind (before ++ slice.dropLast)).column + 1⟩ := by
    rw [stands.advance found, ← split, ← List.append_assoc, Position.behind_concat, if_neg other,
      List.dropLast_concat]
  have last : (⟨(cursor.advance slice.length).line,
      max ((cursor.advance slice.length).column - 1) 1⟩ : Position) =
        Position.behind (before ++ slice.dropLast) := by
    have line := congrArg Position.line stop
    have column := congrArg Position.column stop
    have first : 0 < (Position.behind (before ++ slice.dropLast)).column := Nat.succ_pos _
    simp only [Cursor.position] at line column
    rw [line, column, Nat.add_sub_cancel, Nat.max_eq_left first]
  -- The last byte does not stand in front of the first.
  have latest : ¬(Position.behind (before ++ slice.dropLast)).before (Position.behind before) := by
    cases more : slice.dropLast with
    | nil =>
      rw [List.append_nil]
      exact Position.before_irrefl _
    | cons b rest =>
      exact Position.not_before_of_before (Position.before_behind_append before (by simp))
  show Position.latest _ _ = _
  rw [last, stands, Position.latest, if_neg latest]

end Stands

end Cursor

end ArgSchema
