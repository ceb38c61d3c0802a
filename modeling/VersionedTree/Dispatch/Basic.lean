import VersionedTree.Collection.Table
import VersionedTree.Tree.Equality
import VersionedTree.Tree.Fingerprint
import VersionedTree.Version.Basic

/-!
# Dispatch tables

The outcome of a compilation is an artifact: one tree for every version, or a table that leads from
a version to its group and from the group to its tree. At run time the current version selects a
tree; a table refuses a version that it does not know, and a selection without a version.
-/

namespace VersionedTree

/-- The number of a group of versions that share a tree. -/
structure GroupId where
  /-- The number itself. -/
  index : Nat
  deriving DecidableEq

/-- The name of a group. -/
def GroupId.name (g : GroupId) : String := "group-" ++ toString g.index

/-- A table from versions to groups and from groups to trees. -/
structure Dispatch where
  /-- The name of the value that holds the current version at run time. -/
  selector : String
  /-- The versions that the table is made for. -/
  known : KnownVersions
  /-- The group of each version. -/
  assigned : Table Version GroupId
  /-- The tree of each group. -/
  trees : Table GroupId Node

/-- No tree can be selected: no version is bound, or one that the table does not know. -/
structure SelectionError where
  /-- The name of the value that should hold the version. -/
  selector : String
  /-- What it holds, if anything. -/
  value : Option Version
  /-- The versions that the table knows. -/
  known : List Version
  deriving DecidableEq

/-- The wording of the error. -/
def SelectionError.message (e : SelectionError) : String :=
  match e.value with
  | none =>
    "version selector `" ++ e.selector ++ "` is not bound; expected one of [" ++
      Version.names e.known ++ "]"
  | some value =>
    "version selector `" ++ e.selector ++ "` is bound to unrecognized version `" ++ value.name ++
      "`; expected one of [" ++ Version.names e.known ++ "]"

namespace Dispatch

/-- The number of groups. -/
def groupCount (d : Dispatch) : Nat := d.trees.size

/-- The group of a version. -/
def groupOf? (d : Dispatch) (v : Version) : Option GroupId := d.assigned.get? v

/-- The tree of a group. -/
def tree? (d : Dispatch) (g : GroupId) : Option Node := d.trees.get? g

/-- The versions of a group, in the order of the table. -/
def versionsIn (d : Dispatch) (g : GroupId) : List Version :=
  (d.assigned.entries.filter fun entry => entry.2 == g).map Prod.fst

/-- The fingerprint of the tree of a group. -/
def groupFingerprint? (d : Dispatch) (g : GroupId) : Option Fingerprint :=
  (d.tree? g).map Node.fingerprint

/-- The tree for the current version. -/
def select (d : Dispatch) (current : Option Version) : Except SelectionError Node :=
  match (current.bind d.groupOf?).bind d.tree? with
  | some tree => .ok tree
  | none => .error ⟨d.selector, current, d.known.toList⟩

/-- Two tables are equal when their parts are: the known versions as sets, the two tables as maps,
the trees as nodes. -/
instance : BEq Dispatch where
  beq d e := d.selector == e.selector && d.known == e.known && d.assigned == e.assigned &&
    d.trees == e.trees

end Dispatch

/-- The outcome of a compilation. -/
inductive Artifact where
  /-- One tree for every version. -/
  | resolved (tree : Node)
  /-- Trees by version. -/
  | dispatch (d : Dispatch)

namespace Artifact

/-- Was no table needed? -/
def isElided : Artifact → Bool
  | .resolved _ => true
  | .dispatch _ => false

/-- The number of trees. -/
def groupCount : Artifact → Nat
  | .resolved _ => 1
  | .dispatch d => d.groupCount

/-- The tree for the current version. One tree for every version needs none to be bound. -/
def select (a : Artifact) (current : Option Version) : Except SelectionError Node :=
  match a with
  | .resolved tree => .ok tree
  | .dispatch d => d.select current

/-- Artifacts are equal when they are of one kind and hold equal trees or equal tables. -/
def same : Artifact → Artifact → Bool
  | .resolved m, .resolved n => m == n
  | .dispatch d, .dispatch e => d == e
  | _, _ => false

instance : BEq Artifact := ⟨same⟩

end Artifact

end VersionedTree
