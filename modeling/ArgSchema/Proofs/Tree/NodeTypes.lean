import ArgSchema.Tree.Node

/-! Sets of node types have the members they are made of, and whitelists lead towards the leaves. -/

namespace ArgSchema

namespace NodeType

/-- A node type stands at its own place among all of them. -/
theorem getElem?_all_index (type : NodeType) : all[type.index.val]? = some type := by
  cases type <;> rfl

/-- Different node types have different bits. -/
theorem index_injective {a b : NodeType} (same : a.index.val = b.index.val) : a = b := by
  -- Both are what the list of all types holds at the common place.
  have left := getElem?_all_index a
  rw [same, getElem?_all_index b] at left
  exact (Option.some.inj left).symm

end NodeType

namespace NodeTypes

/-- The empty set has no members. -/
@[simp] theorem not_mem_empty (type : NodeType) : ¬type ∈ empty := by
  show ¬(0 : BitVec 18)[type.index.val] = true
  simp

/-- The set of one type has that type as its only member. -/
@[simp] theorem mem_only {type member : NodeType} : member ∈ only type ↔ member = type := by
  -- A set of one type has its single bit at the type's index.
  show (BitVec.twoPow 18 type.index.val)[member.index.val] = true ↔ member = type
  rw [BitVec.getElem_twoPow]
  constructor
  · intro same
    exact NodeType.index_injective (by simpa using same)
  · rintro rfl
    simp

/-- A union has the members of both sets. -/
@[simp] theorem mem_union {a b : NodeTypes} {type : NodeType} :
    type ∈ a ∪ b ↔ type ∈ a ∨ type ∈ b := by
  show (a.bits ||| b.bits)[type.index.val] = true ↔ _
  rw [BitVec.getElem_or, Bool.or_eq_true]
  rfl

/-- The set of a list has the list's members. -/
@[simp] theorem mem_ofList {types : List NodeType} {type : NodeType} :
    type ∈ ofList types ↔ type ∈ types := by
  -- Each type of the list adds itself to what was collected before.
  have general : ∀ (types : List NodeType) (bits : BitVec 18),
      type ∈ (⟨types.foldl (fun bits type => bits ||| (only type).bits) bits⟩ : NodeTypes) ↔
        type ∈ (⟨bits⟩ : NodeTypes) ∨ type ∈ types := by
    intro types
    induction types with
    | nil => simp
    | cons first rest ih =>
      intro bits
      have head := @mem_union ⟨bits⟩ (only first) type
      simp only [List.foldl_cons, ih, List.mem_cons, ← or_assoc]
      rw [← @mem_only first]
      exact or_congr head Iff.rfl
  have collected := general types 0
  exact collected.trans (or_iff_right (not_mem_empty type))

end NodeTypes

namespace NodeType

/-- How far a node can be above the leaves. -/
def rank : NodeType → Nat
  | .file => 5
  | .metadata | .typeDefinition | .positional | .option => 4
  | .configs | .types => 3
  | .config => 2
  | .values => 1
  | _ => 0

/-- Nothing is farther above the leaves than a file. -/
theorem rank_le_file (type : NodeType) : type.rank ≤ file.rank := by
  cases type <;> decide

/-- An accepted child is nearer to the leaves than its parent. -/
theorem rank_lt {parent child : NodeType} (accepted : child ∈ parent.whitelist) :
    child.rank < parent.rank := by
  -- Each whitelist is a short list of types, which all have a lower rank.
  cases parent <;>
    simp [whitelist, NodeTypes.toplevel, NodeTypes.definitions, NodeTypes.valueKinds] at accepted <;>
    grind [rank]

end NodeType

end ArgSchema
