import ArgSchema.Proofs.SymbolTable.Entries
import Mathlib.Data.List.Forall2

/-! Tables that are alike: they hold the same names in order, for nodes that go together. -/

namespace ArgSchema

/-- Names that are written alike for nodes that go together. -/
structure Naming.Alike (Twin : NodeId → NodeId → Prop) (a b : Naming) : Prop where
  /-- The names are the same. -/
  id : a.id = b.id
  /-- The nodes have the same type. -/
  type : a.type = b.type
  /-- The nodes go together. -/
  node : Twin a.node b.node

/-- Entries of the same key for names that are alike. -/
structure Entry.Alike (Twin : NodeId → NodeId → Prop) (a b : Entry) : Prop where
  /-- The names are alike. -/
  naming : a.toNaming.Alike Twin b.toNaming
  /-- The keys are the same. -/
  rawId : a.rawId = b.rawId

/-- Entries that are alike are for nodes of the same type. -/
theorem Entry.Alike.type {Twin : NodeId → NodeId → Prop} {a b : Entry} (same : a.Alike Twin b) :
    a.type = b.type := same.naming.type

/-- Reports that are errors and warnings in the same order. -/
def SameSeverities (a b : List Diagnostic) : Prop :=
  a.map Diagnostic.severity = b.map Diagnostic.severity

namespace SameSeverities

variable {a b c d : List Diagnostic}

/-- Reports behind others have the same severities if both do. -/
theorem append (first : SameSeverities a b) (second : SameSeverities c d) :
    SameSeverities (a ++ c) (b ++ d) := by
  unfold SameSeverities at *
  rw [List.map_append, List.map_append, first, second]

/-- One of two lists is free of errors if the other is. -/
theorem silent (same : SameSeverities a b) (silent : ∀ report ∈ a, report.severity ≠ .error) :
    ∀ report ∈ b, report.severity ≠ .error := by
  -- An error on one side has its place, with an error in it, on the other.
  intro report member error
  have listed : Severity.error ∈ a.map Diagnostic.severity := by
    rw [same]
    exact List.mem_map.mpr ⟨report, member, error⟩
  obtain ⟨other, member, error⟩ := List.mem_map.mp listed
  exact silent other member error

end SameSeverities

namespace SymbolTable

variable {Twin : NodeId → NodeId → Prop} {a b : SymbolTable}

/-- Tables of entries that are alike one by one. -/
def Alike (Twin : NodeId → NodeId → Prop) (a b : SymbolTable) : Prop :=
  List.Forall₂ (Entry.Alike Twin) a.entries b.entries

namespace Alike

/-- Tables without names are alike. -/
theorem empty : Alike Twin SymbolTable.empty SymbolTable.empty := .nil

variable (alike : Alike Twin a b)

include alike

/-- Tables that are alike have the same keys. -/
theorem keys : a.keys = b.keys := by
  -- Alike entries have the same raw name, one by one.
  unfold SymbolTable.keys
  unfold Alike at alike
  generalize a.entries = entries, b.entries = others at alike
  induction alike with
  | nil => rfl
  | cons first _ ih => rw [List.map_cons, List.map_cons, first.rawId, ih]

/-- Tables that are alike hold names that are alike. -/
theorem namings : List.Forall₂ (Naming.Alike Twin) (a.entries.map (·.toNaming))
    (b.entries.map (·.toNaming)) :=
  List.forall₂_map_left_iff.mpr (List.forall₂_map_right_iff.mpr
    (List.Forall₂.imp (fun _ _ same => same.naming) alike))

/-- A name has entries that are alike in both tables, or an entry in neither. -/
theorem get? (id : String) : Option.Rel (Entry.Alike Twin) (a.get? id) (b.get? id) := by
  unfold SymbolTable.get?
  unfold Alike at alike
  generalize a.entries = entries, b.entries = others at alike
  induction alike with
  -- Entries go together in order and have the same keys, so the search stops at the same place.
  | nil => exact .none
  | cons first _ ih =>
    rw [List.find?_cons, List.find?_cons, first.rawId]
    split
    · exact .some first
    · exact ih

/-- A name is admitted by both tables or by neither. -/
theorem admits {x y : Naming} (same : x.Alike Twin y) : a.Admits x ↔ b.Admits y := by
  rw [Admits, Admits, same.type, same.id, alike.keys]

/-- Entering names that are alike leaves tables that are alike. -/
theorem enter {x y : Naming} (same : x.Alike Twin y) : Alike Twin (a.enter x) (b.enter y) :=
  List.rel_append alike (.cons ⟨same, congrArg ArgSchema.rawId same.id⟩ .nil)

end Alike

/-- Adding names that are alike leaves tables that are alike, and reports of the same severities. -/
theorem Alike.addAll {xs ys : List Naming} (same : List.Forall₂ (Naming.Alike Twin) xs ys)
    (alike : Alike Twin a b) :
    Alike Twin (a.addAll xs).1 (b.addAll ys).1 ∧
      SameSeverities (a.addAll xs).2 (b.addAll ys).2 := by
  induction same generalizing a b with
  | nil => exact ⟨alike, rfl⟩
  | @cons x y xs ys first _ ih =>
    by_cases admitted : a.Admits x
    · rw [addAll_cons_of_admits admitted, addAll_cons_of_admits ((alike.admits first).mp admitted)]
      exact ih (alike.enter first)
    -- The texts of the two reports may differ, as they name nodes, but both are errors.
    · obtain ⟨report, error, added⟩ := addAll_cons_of_not_admits admitted xs
      obtain ⟨report', error', added'⟩ :=
        addAll_cons_of_not_admits (fun other => admitted ((alike.admits first).mpr other)) ys
      obtain ⟨tables, reports⟩ := ih alike
      rw [added, added']
      exact ⟨tables, @SameSeverities.append [report] [report'] _ _ (by
        simp [SameSeverities, error, error']) reports⟩

end SymbolTable

end ArgSchema
