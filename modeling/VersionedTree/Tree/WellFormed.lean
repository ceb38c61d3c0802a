import VersionedTree.Tree.Equality

/-!
# Well-formed nodes

A list of members stands for a set, and a list of pairs for a mapping, when no two members and no
two keys are equal. A node is well formed when this is so at every depth, also inside keys,
members and the arguments of invocations.
-/

namespace VersionedTree

/-- No member is equal to a later one, nor a later one to it. -/
def Distinct.Unequal (members : List Node) : Prop :=
  members.Pairwise fun x y => (x == y) = false ∧ (y == x) = false

namespace Node

mutual

/-- Set members and mapping keys are pairwise unequal at every depth. -/
def WellFormed : Node → Prop
  | .scalar _ => True
  | .sequence items => AllWellFormed items
  | .set members => Distinct.Unequal members ∧ AllWellFormed members
  | .mapping pairs => Distinct.Unequal (pairs.map Prod.fst) ∧ PairsWellFormed pairs
  | .invocation _ args => AllWellFormed args

/-- Each of the nodes is well formed. -/
def AllWellFormed : List Node → Prop
  | [] => True
  | n :: rest => n.WellFormed ∧ AllWellFormed rest

/-- Each key and each value is well formed. -/
def PairsWellFormed : List (Node × Node) → Prop
  | [] => True
  | (k, v) :: rest => k.WellFormed ∧ v.WellFormed ∧ PairsWellFormed rest

end

/-- A list is well formed when its members are. -/
theorem allWellFormed_iff {items : List Node} :
    AllWellFormed items ↔ ∀ n ∈ items, n.WellFormed := by
  induction items with
  | nil => simp [AllWellFormed]
  | cons n rest ih => simp [AllWellFormed, ih]

/-- A list of pairs is well formed when its keys and values are. -/
theorem pairsWellFormed_iff {pairs : List (Node × Node)} :
    PairsWellFormed pairs ↔ ∀ p ∈ pairs, p.1.WellFormed ∧ p.2.WellFormed := by
  induction pairs with
  | nil => simp [PairsWellFormed]
  | cons p rest ih =>
    obtain ⟨k, v⟩ := p
    simp [PairsWellFormed, ih, and_assoc]

end Node

end VersionedTree
