import VersionedTree.Dispatch.Basic

/-!
# Consistency of a table

A table is consistent when it groups the known versions in the order of declaration, every group
that it uses has a tree, every tree belongs to a group that is used, and no two groups have equal
trees. Checking a table names the first fault.
-/

namespace VersionedTree

/-- What is wrong with a table. -/
inductive DispatchFault where
  /-- A known version has no group. -/
  | ungrouped (version : Version)
  /-- A version has a group and is not known. -/
  | unknownVersion (version : Version) (known : List Version)
  /-- The versions are not grouped in the order of declaration. -/
  | outOfOrder (grouped : List Version)
  /-- A version belongs to a group without a tree. -/
  | missingTree (version : Version) (group : GroupId)
  /-- No version belongs to a group that has a tree. -/
  | unusedGroup (group : GroupId)
  /-- Two groups have equal trees. -/
  | duplicateTree (first second : GroupId)
  deriving DecidableEq

/-- The wording of a fault. -/
def DispatchFault.message : DispatchFault → String
  | .ungrouped version => "version " ++ version.name ++ " has no group"
  | .unknownVersion version known =>
    "grouped version " ++ version.name ++ " is not one of the known versions " ++
      Version.names known
  | .outOfOrder grouped =>
    "grouped versions [" ++ Version.names grouped ++ "] are not in declaration order"
  | .missingTree version group =>
    "version " ++ version.name ++ " points at " ++ group.name ++ ", which has no tree"
  | .unusedGroup group => group.name ++ " is not selected by any version"
  | .duplicateTree first second =>
    first.name ++ " and " ++ second.name ++ " carry the same tree"

namespace Dispatch

/-- The first fault in how versions are grouped. -/
def groupingFault? (d : Dispatch) : Option DispatchFault :=
  match d.assigned.keys.find? fun v => !d.known.contains v with
  | some v => some (.unknownVersion v d.known.toList)
  | none =>
    match d.known.toList.find? fun v => !d.assigned.contains v with
    | some v => some (.ungrouped v)
    | none =>
      if d.assigned.keys = d.known.toList then none
      else some (.outOfOrder d.assigned.keys)

/-- The first version whose group has no tree. -/
def missingTree? (d : Dispatch) : Option DispatchFault :=
  (d.assigned.entries.find? fun entry => !d.trees.contains entry.2).map fun entry =>
    .missingTree entry.1 entry.2

/-- The first group that is not used or has the tree of an earlier one; `used` are the groups of the
versions, and `seen` are the trees before with their groups. -/
def treeFault? (used : List GroupId) :
    (seen : List (Node × GroupId)) → List (GroupId × Node) → Option DispatchFault
  | _, [] => none
  | seen, (group, tree) :: rest =>
    if used.contains group then
      match seen.lookup tree with
      | some first => some (.duplicateTree first group)
      | none => treeFault? used (seen ++ [(tree, group)]) rest
    else some (.unusedGroup group)

/-- The first fault of a table. -/
def fault? (d : Dispatch) : Option DispatchFault :=
  d.groupingFault? <|> d.missingTree? <|> treeFault? d.assigned.values [] d.trees.entries

/-- Accept a table without a fault. -/
def validate (d : Dispatch) : Except DispatchFault Unit :=
  match d.fault? with
  | some fault => .error fault
  | none => .ok ()

end Dispatch

end VersionedTree
