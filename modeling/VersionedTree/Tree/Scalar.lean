import VersionedTree.Text.Basic

/-!
# Scalars

The leaves of a tree. Strings and symbols are different leaves even where they hold the same text.
-/

namespace VersionedTree

/-- A leaf value. -/
inductive Scalar where
  /-- The absent value. -/
  | nil
  /-- A truth value. -/
  | bool (value : Bool)
  /-- A signed integer of 64 bits. -/
  | int (value : Int64)
  /-- A text. -/
  | str (value : String)
  /-- An identifier: a keyword, a flag or the name of a version. -/
  | symbol (value : String)
  deriving DecidableEq

namespace Scalar

/-- The place of the kind of a scalar in the order of scalars. -/
def rank : Scalar → Nat
  | .nil => 0
  | .bool _ => 1
  | .int _ => 2
  | .str _ => 3
  | .symbol _ => 4

/-- Scalars are ordered by kind, and within a kind by value. -/
instance : Ord Scalar where
  compare a b :=
    match a, b with
    | .bool x, .bool y => compare x y
    | .int x, .int y => compare x.toInt y.toInt
    | .str x, .str y => compare x y
    | .symbol x, .symbol y => compare x y
    | _, _ => compare a.rank b.rank

/-- The text of a scalar for people: strings are quoted, symbols are bare. -/
def display : Scalar → String
  | .nil => "nil"
  | .bool value => if value then "true" else "false"
  | .int value => toString value.toInt
  | .str value => Text.quoted value
  | .symbol value => value

end Scalar

end VersionedTree
