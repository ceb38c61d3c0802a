import VersionedTree.Storage.Decode
import VersionedTree.Version.Manifest

/-!
# Versions, manifests and fingerprints as JSON

A version is its name. Known versions are an array of names, a manifest is an object that leads from
versions to arrays of flags, and a fingerprint is its hexadecimal text.

A manifest may name a version more than once, and then the last row counts, at the place of the
first; known versions may not.
-/

namespace VersionedTree

/-- The JSON form of a version. -/
def Version.toJson (v : Version) : Json := .ofText v.name

/-- Read a version. -/
def Version.ofJson (v : Json) : Except DecodeError Version := Version.mk <$> v.asText

namespace KnownVersions

/-- The JSON form of known versions. -/
def toJson (known : KnownVersions) : Json := .array (known.toList.map Version.toJson)

/-- Read known versions; a repeated one is refused. -/
def ofJson (left : Nat) (v : Json) : Except DecodeError KnownVersions := do
  let versions ← v.asList left fun _ item => Version.ofJson item
  match ofList versions with
  | .ok known => return known
  | .error cause => throw (.version cause)

/-- The text of known versions. -/
def toText (known : KnownVersions) : String := known.toJson.render

/-- Read the text of known versions. -/
def ofText (text : String) : Except DecodeError KnownVersions := Json.decodeText ofJson text

end KnownVersions

namespace Manifest

/-- The JSON form of a manifest. -/
def toJson (m : Manifest) : Json :=
  .object (m.flags.entries.map fun row => (Json.escape row.1.name, .array (row.2.map .ofText)))

/-- Read a manifest. -/
def ofJson (left : Nat) (v : Json) : Except DecodeError Manifest := do
  let rows ← v.asEntries left (fun raw => Version.mk <$> Json.nameOf raw) fun left flags =>
    flags.asList left fun _ flag => flag.asText
  return ofList rows

/-- The text of a manifest. -/
def toText (m : Manifest) : String := m.toJson.render

/-- Read the text of a manifest. -/
def ofText (text : String) : Except DecodeError Manifest := Json.decodeText ofJson text

end Manifest

namespace Fingerprint

/-- The JSON form of a fingerprint. -/
def toJson (f : Fingerprint) : Json := .ofText f.text

/-- Read a fingerprint. -/
def ofJson (v : Json) : Except DecodeError Fingerprint := do
  match Fingerprint.ofText (← v.asText) with
  | .ok f => return f
  | .error cause => throw (.fingerprint cause)

/-- The JSON text of a fingerprint. -/
def toJsonText (f : Fingerprint) : String := f.toJson.render

/-- Read the JSON text of a fingerprint. -/
def ofJsonText (text : String) : Except DecodeError Fingerprint :=
  Json.decodeText (fun _ v => ofJson v) text

end Fingerprint

end VersionedTree
