import VersionedTree.Toml.Reader
import VersionedTree.Version.Manifest
import VersionedTree.Compilation.Settings

/-!
# Settings and manifests as TOML

Settings are the two entries of the same names at the top of a document; others are skipped. A
manifest is a document whose entries are all arrays of flags, one for each version.
-/

namespace VersionedTree

/-- A string. -/
def Toml.asText? : Toml → Option String
  | .text value => some value
  | _ => none

/-- A natural number; integers have 64 bits and a sign. -/
def Toml.asNatural? : Toml → Option Nat
  | .integer value => if 0 ≤ value then some value.toNat else none
  | _ => none

/-- A truth value. -/
def Toml.asBool? : Toml → Option Bool
  | .boolean value => some value
  | _ => none

/-- An array of strings. -/
def Toml.asTexts? : Toml → Option (List String)
  | .array items => items.mapM asText?
  | _ => none

/-- The value under a key, if there is one, read in a given way; none if it cannot be read so. -/
def Toml.entry? {α : Type} (entries : Toml.Entries) (key : String) (decode : Toml → Option α)
    (default : α) : Option α :=
  match entries.lookup key with
  | some v => decode v
  | none => some default

/-- Read settings, without a check of the values. -/
def Settings.ofToml? (entries : Toml.Entries) : Option Settings := do
  let default : Settings := {}
  let maxPasses ← Toml.entry? entries "max_passes" Toml.asNatural? default.maxPasses
  let parallel ← Toml.entry? entries "parallel" Toml.asBool? default.parallel
  return ⟨maxPasses, parallel⟩

/-- Read the TOML text of settings that can be used. -/
def Settings.ofTomlText (text : String) : Except SettingsError Settings :=
  match (Toml.read text).bind Settings.ofToml? with
  | some s => s.validate
  | none => .error .toml

/-- Read a manifest. -/
def Manifest.ofToml? (entries : Toml.Entries) : Option Manifest := do
  let rows ← entries.mapM fun entry => do
    let flags ← entry.2.asTexts?
    return (⟨entry.1⟩, flags)
  return Manifest.ofList rows

/-- Read the TOML text of a manifest. -/
def Manifest.ofTomlText? (text : String) : Option Manifest :=
  (Toml.read text).bind Manifest.ofToml?

end VersionedTree
