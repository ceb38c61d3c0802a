import VersionedTree.Tree.Scalar

/-!
# Nodes

A node is a scalar, an ordered sequence, a set, a mapping, or the invocation of a qualifier: a tag
with arguments, to be expanded for each version.

Sets and mappings are lists here, in the order in which they were filled;
`VersionedTree.Tree.Equality` says when two nodes are equal and `VersionedTree.Tree.WellFormed`
which lists are sets and mappings.

In messages a node has a compact form: `[a, b]`, `set[a, b]`, `{k: v}` or `tag(a, b)`.
-/

namespace VersionedTree

/-- The name under which a qualifier is registered. -/
structure Tag where
  /-- The name itself. -/
  name : String
  deriving DecidableEq

/-- A tree with qualifier invocations in it. -/
inductive Node where
  /-- A leaf. -/
  | scalar (value : Scalar)
  /-- An ordered list. -/
  | sequence (items : List Node)
  /-- Members without an order of their own, listed as they were inserted. -/
  | set (members : List Node)
  /-- Keys with values, listed as they were inserted. -/
  | mapping (pairs : List (Node × Node))
  /-- A tag with unresolved arguments. -/
  | invocation (tag : Tag) (args : List Node)

namespace Node

/-- The absent value. -/
abbrev nil : Node := .scalar .nil

/-- A truth value. -/
abbrev bool (value : Bool) : Node := .scalar (.bool value)

/-- An integer. -/
abbrev int (value : Int64) : Node := .scalar (.int value)

/-- A text. -/
abbrev str (value : String) : Node := .scalar (.str value)

/-- An identifier. -/
abbrev symbol (value : String) : Node := .scalar (.symbol value)

instance : Inhabited Node := ⟨nil⟩

/-- Is the node itself an invocation? -/
def isInvocation : Node → Bool
  | .invocation _ _ => true
  | _ => false

/-- The text of a string or of a symbol. -/
def text? : Node → Option String
  | .scalar (.str value) => some value
  | .scalar (.symbol value) => some value
  | _ => none

mutual

/-- Does an invocation occur in the tree? What an invocation has as arguments does not matter: it
is one itself. -/
def hasInvocation : Node → Bool
  | .scalar _ => false
  | .sequence items => anyInvocation items
  | .set members => anyInvocation members
  | .mapping pairs => anyPairInvocation pairs
  | .invocation _ _ => true

/-- Does an invocation occur in one of the nodes? -/
def anyInvocation : List Node → Bool
  | [] => false
  | n :: rest => n.hasInvocation || anyInvocation rest

/-- Does an invocation occur in a key or a value? -/
def anyPairInvocation : List (Node × Node) → Bool
  | [] => false
  | (k, v) :: rest => k.hasInvocation || v.hasInvocation || anyPairInvocation rest

end

mutual

/-- The greatest number of collections and invocations around a scalar. -/
def depth : Node → Nat
  | .scalar _ => 0
  | .sequence items => listDepth items + 1
  | .set members => listDepth members + 1
  | .mapping pairs => pairsDepth pairs + 1
  | .invocation _ args => listDepth args + 1

/-- The depth of the deepest of the nodes. -/
def listDepth : List Node → Nat
  | [] => 0
  | n :: rest => max n.depth (listDepth rest)

/-- The depth of the deepest key or value. -/
def pairsDepth : List (Node × Node) → Nat
  | [] => 0
  | (k, v) :: rest => max (max k.depth v.depth) (pairsDepth rest)

end

/-- A member of a list is at most as deep as the list. -/
theorem depth_le_listDepth {n : Node} {items : List Node} (h : n ∈ items) :
    n.depth ≤ listDepth items := by
  induction items with
  | nil => simp at h
  | cons m rest ih =>
    rw [listDepth]
    rcases List.mem_cons.1 h with rfl | h
    · exact Nat.le_max_left _ _
    · exact Nat.le_trans (ih h) (Nat.le_max_right _ _)

/-! ### Nodes as text for people -/

mutual

/-- The compact text of a node. -/
def display : Node → String
  | .scalar value => value.display
  | .sequence items => "[" ++ Text.commaSeparated (displayItems items) ++ "]"
  | .set members => "set[" ++ Text.commaSeparated (displayItems members) ++ "]"
  | .mapping pairs => "\x7b" ++ Text.commaSeparated (displayPairs pairs) ++ "\x7d"
  | .invocation tag args => tag.name ++ "(" ++ Text.commaSeparated (displayItems args) ++ ")"

/-- The texts of the nodes of a list. -/
def displayItems : List Node → List String
  | [] => []
  | n :: rest => n.display :: displayItems rest

/-- The texts of the pairs of a mapping. -/
def displayPairs : List (Node × Node) → List String
  | [] => []
  | (k, v) :: rest => (k.display ++ ": " ++ v.display) :: displayPairs rest

end

instance : ToString Node := ⟨display⟩

end Node

end VersionedTree
