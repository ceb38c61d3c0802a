/-!
# The release of the library

The trees, the compiler and the bundled qualifiers are released together and carry one version
number.
-/

namespace VersionedTree

/-- The parts that are released together. -/
inductive Component where
  /-- Nodes, versions and fingerprints. -/
  | tree
  /-- Resolution, compilation and dispatch. -/
  | compiler
  /-- The bundled qualifiers and manifests. -/
  | qualifiers
  deriving DecidableEq

/-- All parts. -/
def Component.all : List Component := [.tree, .compiler, .qualifiers]

/-- The version number of a part. -/
def Component.release : Component → String
  | .tree | .compiler | .qualifiers => "0.1.0"

end VersionedTree
