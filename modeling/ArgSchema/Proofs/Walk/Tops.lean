import ArgSchema.Proofs.Walk.Fold

/-! Tops: the outermost nodes that a walk stops at, in document order. -/

namespace ArgSchema

namespace Growth

variable {S : Type}

mutual

/-- The outermost growths whose tops pass a test. -/
def tops (stops : NodeId → Bool) : Growth → List Growth
  | .node id children => if stops id then [.node id children] else topsAll stops children

/-- The outermost growths whose tops pass a test, one growth after the other. -/
def topsAll (stops : NodeId → Bool) : List Growth → List Growth
  | [] => []
  | growth :: rest => growth.tops stops ++ topsAll stops rest

end

variable {stops : NodeId → Bool}

/-- A growth whose top passes the test is the only one. -/
theorem tops_of_stops {growth : Growth} (stop : stops growth.id = true) :
    growth.tops stops = [growth] := by
  cases growth
  simp only [tops]
  exact if_pos stop

/-- A growth whose top fails the test leaves the choice to what is below it. -/
theorem tops_of_not_stops {growth : Growth} (pass : stops growth.id = false) :
    growth.tops stops = topsAll stops growth.children := by
  cases growth
  simp only [tops, children]
  exact if_neg (by simpa [id] using pass)

mutual

/-- What is done to a growth is done to its tops, one after the other. -/
theorem fold_eq_foldl (visit : NodeId → (S → S) → S → S) :
    ∀ (growth : Growth) (s : S), growth.fold stops visit s =
      (growth.tops stops).foldl (fun s top => visit top.id (foldAll stops visit top.children) s) s
  | .node id children, s => by
    simp only [fold, tops]
    split
    · rfl
    · exact foldAll_eq_foldl visit children s

/-- What is done to growths is done to their tops, one after the other. -/
theorem foldAll_eq_foldl (visit : NodeId → (S → S) → S → S) :
    ∀ (growths : List Growth) (s : S), foldAll stops visit growths s =
      (topsAll stops growths).foldl
        (fun s top => visit top.id (foldAll stops visit top.children) s) s
  | [], _ => rfl
  | growth :: rest, s => by
    simp only [foldAll, topsAll, List.foldl_append]
    rw [fold_eq_foldl visit growth s, foldAll_eq_foldl visit rest]

end

/-- If each growth stops or has nothing below it, the tops are those that stop. -/
theorem topsAll_shallow {growths : List Growth}
    (shallow : ∀ growth ∈ growths, stops growth.id = true ∨ growth.children = []) :
    topsAll stops growths = growths.filter (stops ·.id) := by
  induction growths with
  | nil => rfl
  | cons growth rest ih =>
    rw [topsAll, ih fun other member => shallow other (by simp [member])]
    cases stop : stops growth.id with
    | true => simp [tops_of_stops stop, stop]
    | false =>
      -- What does not stop has nothing below, so it gives no tops.
      have bare := (shallow growth (by simp)).resolve_left (by simp [stop])
      simp [tops_of_not_stops stop, bare, stop, topsAll]

/-- If no growth stops, the tops are below. -/
theorem topsAll_below {growths : List Growth}
    (pass : ∀ growth ∈ growths, stops growth.id = false) :
    topsAll stops growths = growths.flatMap fun growth => topsAll stops growth.children := by
  -- No growth of the list stops the walk, so each hands on what is below it.
  induction growths with
  | nil => rfl
  | cons growth rest ih =>
    rw [topsAll, ih fun other member => pass other (by simp [member]),
      tops_of_not_stops (pass growth (by simp)), List.flatMap_cons]

mutual

/-- If nothing below a stop stops, the tops are all that stop. -/
theorem map_id_tops {tree : Tree}
    (single : ∀ growth : Growth, tree.Grows growth → stops growth.id = true →
      ∀ id ∈ idsAll growth.children, stops id = false) :
    ∀ growth : Growth, tree.Grows growth → (growth.tops stops).map Growth.id =
      growth.ids.filter stops
  | .node id children, grows => by
    have below := single _ grows
    simp only [Tree.Grows] at grows
    obtain ⟨_, _, _, all⟩ := grows
    simp only [tops, ids]
    cases stop : stops id with
    | true =>
      -- A stop is the only one in its growth, since nothing below it stops.
      have none := List.filter_eq_nil_iff.mpr fun other member => by
        simpa using below stop other member
      simp only [Growth.children] at none
      simp [stop, none, Growth.id]
    | false => simpa [stop] using map_id_topsAll single children all

/-- If nothing below a stop stops, the tops of growths are all that stop. -/
theorem map_id_topsAll {tree : Tree}
    (single : ∀ growth : Growth, tree.Grows growth → stops growth.id = true →
      ∀ id ∈ idsAll growth.children, stops id = false) :
    ∀ growths : List Growth, tree.GrowsAll growths → (topsAll stops growths).map Growth.id =
      (idsAll growths).filter stops
  | [], _ => rfl
  | growth :: rest, grows => by
    simp only [Tree.GrowsAll] at grows
    rw [topsAll, List.map_append, idsAll, List.filter_append, map_id_tops single growth grows.1,
      map_id_topsAll single rest grows.2]

end

end Growth

end ArgSchema
