import VersionedTree.Version.Basic
import VersionedTree.Collection.Table

/-!
# Feature manifests

A manifest says which feature flags each version ships. A version that is not listed ships none. A
flag that no version ships is unknown.
-/

namespace VersionedTree

/-- The flags of each version, in the order in which the versions were first listed. -/
structure Manifest where
  /-- The flags by version. -/
  flags : Table Version (List String)

namespace Manifest

/-- The manifest that lists no version. -/
def empty : Manifest := ⟨∅⟩

instance : Inhabited Manifest := ⟨empty⟩

/-- Set the flags of one version. They replace what was listed for it before, and a flag given twice
counts once. -/
def insert (m : Manifest) (v : Version) (flags : List String) : Manifest :=
  ⟨m.flags.insert v (Distinct.ofList flags)⟩

/-- The manifest of the given versions, inserted from left to right. -/
def ofList (rows : List (Version × List String)) : Manifest :=
  rows.foldl (fun m row => m.insert row.1 row.2) empty

/-- The number of versions listed. -/
def size (m : Manifest) : Nat := m.flags.size

/-- The flags of a version, if it is listed. -/
def flagsFor? (m : Manifest) (v : Version) : Option (List String) := m.flags.get? v

/-- Does the version ship the flag? -/
def isEnabled (m : Manifest) (v : Version) (flag : String) : Bool :=
  (m.flagsFor? v).any fun flags => flags.contains flag

/-- Does some version ship the flag? -/
def isKnownFlag (m : Manifest) (flag : String) : Bool :=
  m.flags.values.any fun flags => flags.contains flag

/-- The versions listed, in order. -/
def knownVersions (m : Manifest) : KnownVersions := ⟨m.flags.keys, m.flags.nodup_keys⟩

/-- Every flag once, in the order of first appearance. -/
def knownFlags (m : Manifest) : List String := Distinct.ofList m.flags.values.flatten

end Manifest

end VersionedTree
