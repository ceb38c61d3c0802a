import VersionedTree.Collection.Keyed
import VersionedTree.Collection.Table
import VersionedTree.Compilation.Compile
import VersionedTree.Compilation.Error
import VersionedTree.Compilation.Settings
import VersionedTree.Digest.Blake3
import VersionedTree.Digest.Fingerprint
import VersionedTree.Digest.Hex
import VersionedTree.Digest.Transcript
import VersionedTree.Dispatch.Basic
import VersionedTree.Dispatch.Consistency
import VersionedTree.Json.Lexer
import VersionedTree.Json.Number
import VersionedTree.Json.Reader
import VersionedTree.Json.Text
import VersionedTree.Json.Value
import VersionedTree.Log.Event
import VersionedTree.Log.Logged
import VersionedTree.Qualifier.Arguments
import VersionedTree.Qualifier.Basic
import VersionedTree.Qualifier.ChangeLog
import VersionedTree.Qualifier.FeatureCase
import VersionedTree.Qualifier.Inclusion
import VersionedTree.Qualifier.Sample
import VersionedTree.Qualifier.Standard
import VersionedTree.Qualifier.Switch
import VersionedTree.Release
import VersionedTree.Resolution.FixedPoint
import VersionedTree.Resolution.Form
import VersionedTree.Resolution.Walk
import VersionedTree.Storage.Decode
import VersionedTree.Storage.Dispatch
import VersionedTree.Storage.Node
import VersionedTree.Storage.Settings
import VersionedTree.Storage.Toml
import VersionedTree.Storage.Version
import VersionedTree.Text.Basic
import VersionedTree.Text.Printable
import VersionedTree.Toml.Reader
import VersionedTree.Toml.Scalar
import VersionedTree.Toml.Value
import VersionedTree.Tree.Equality
import VersionedTree.Tree.Fingerprint
import VersionedTree.Tree.Node
import VersionedTree.Tree.Scalar
import VersionedTree.Tree.WellFormed
import VersionedTree.Version.Basic
import VersionedTree.Version.Context
import VersionedTree.Version.Manifest
import VersionedTree.Proofs.Equivalence
import VersionedTree.Proofs.Outcome
import VersionedTree.Proofs.Insertion
import VersionedTree.Proofs.Walking
import VersionedTree.Proofs.Grouping
import VersionedTree.Proofs.Contexts
import VersionedTree.Proofs.Simulation
import VersionedTree.Proofs.Bundled
import VersionedTree.Proofs.Compiling
import VersionedTree.Proofs.VersionByVersion
import VersionedTree.Proofs.BreadthFirst
import VersionedTree.Proofs.Pivots
import VersionedTree.Proofs.Compaction
import VersionedTree.Proofs.Success
import VersionedTree.Proofs.Rules
import VersionedTree.Proofs.Following
import VersionedTree.Proofs.Reading
import VersionedTree.Proofs.Selection
import VersionedTree.Proofs.Descent
import VersionedTree.Proofs.Isolation
import VersionedTree.Proofs.MoreVersions
import VersionedTree.Proofs.Reordering
import VersionedTree.Proofs.Matching
import VersionedTree.Proofs.EqualTrees
import VersionedTree.Proofs.Fingerprints
import VersionedTree.Proofs.Collisions
import VersionedTree.Proofs.Literals
import VersionedTree.Proofs.Rendering
import VersionedTree.Proofs.Decoding
import VersionedTree.Proofs.StoredNodes
import VersionedTree.Proofs.Building
import VersionedTree.Proofs.Consistency
import VersionedTree.Proofs.StoredArtifacts
import VersionedTree.Proofs.Faults
import VersionedTree.Proofs.Unconditional
import VersionedTree.Proofs.Survivors
import VersionedTree.Proofs.PlainTrees
import VersionedTree.Proofs.SideBySide
import VersionedTree.Proofs.PassLimit
import VersionedTree.Proofs.KeyCollisions
import VersionedTree.Proofs.ExactCover
import VersionedTree.Proofs.LatestChange
import VersionedTree.Proofs.Spelling
import VersionedTree.Proofs.Content
import VersionedTree.Proofs.FirstMatch
import VersionedTree.Proofs.Refusals
import VersionedTree.Proofs.Replay
import VersionedTree.Proofs.Mentioned
import VersionedTree.Proofs.Ambiguity
import VersionedTree.Proofs.DeclarationOrder
import VersionedTree.Proofs.Counterparts
import VersionedTree.Proofs.Renumbering
import VersionedTree.Proofs.Hexadecimal
import VersionedTree.Proofs.NeverSettling
import VersionedTree.Proofs.ManifestHistory
