import VersionedTree.Tree.Node
import VersionedTree.Collection.Keyed

/-!
# Equality of nodes

Two nodes are equal when they have the same shape and the same scalars, where the order of set
members and of mapping pairs does not count. For sets and mappings the test is one-sided: the same
number of members or pairs, and every one of the left node found in the right one. That this is
an equivalence on nodes without repeated members or keys is a theorem, not part of the definition.

The test is written `==`; it is coarser than `=`, which also sees the order.
-/

namespace VersionedTree.Node

mutual

/-- Equality up to the order of sets and mappings. -/
def same : Node → Node → Bool
  | .scalar a, .scalar b => a == b
  | .sequence xs, .sequence ys => sameItems xs ys
  | .set xs, .set ys => xs.length == ys.length && membersWithin xs ys
  | .mapping ps, .mapping qs => ps.length == qs.length && pairsWithin ps qs
  | .invocation t xs, .invocation u ys => t == u && sameItems xs ys
  | _, _ => false
termination_by structural n => n

/-- Item by item. -/
def sameItems : List Node → List Node → Bool
  | [], [] => true
  | x :: xs, y :: ys => same x y && sameItems xs ys
  | _, _ => false
termination_by structural xs => xs

/-- Every member of the left list is found in the right one. -/
def membersWithin : List Node → List Node → Bool
  | [], _ => true
  | x :: xs, ys => ys.any (same x) && membersWithin xs ys
termination_by structural xs => xs

/-- Every key of the left list is found in the right one, first match first, with an equal value. -/
def pairsWithin : List (Node × Node) → List (Node × Node) → Bool
  | [], _ => true
  | (k, v) :: ps, qs =>
    (match qs.find? fun q => same k q.1 with
      | some q => same v q.2
      | none => false) && pairsWithin ps qs
termination_by structural ps => ps

end

instance : BEq Node := ⟨same⟩

/-- The set of the given nodes; the first of equal ones stays. -/
def ofMembers (members : List Node) : Node := .set (Distinct.ofList members)

/-- The mapping of the given pairs; a later pair replaces the value of an equal key. -/
def ofPairs (pairs : List (Node × Node)) : Node := .mapping (Keyed.ofList pairs)

end VersionedTree.Node
