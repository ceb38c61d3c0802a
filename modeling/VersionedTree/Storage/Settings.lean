import VersionedTree.Storage.Decode
import VersionedTree.Compilation.Settings

/-!
# Settings as JSON

Settings are an object with the limit on passes and the permission to resolve side by side. What is
missing has its default, and other fields are skipped. They may also be written as an array of the
two, or of the first alone, or of none.
-/

namespace VersionedTree.Settings

/-- The JSON form of settings. -/
def toJson (s : Settings) : Json :=
  .object [
    (Json.escape "max_passes", .ofNat s.maxPasses),
    (Json.escape "parallel", .bool s.parallel)]

/-- The text of settings. -/
def toText (s : Settings) : String := s.toJson.render

/-- Settings of which some values have been read. -/
structure Draft where
  /-- The limit on passes. -/
  maxPasses : Option Nat := none
  /-- The permission to resolve side by side. -/
  parallel : Option Bool := none

/-- The settings with the defaults for what is missing. -/
def Draft.complete (p : Draft) : Settings :=
  let default : Settings := {}
  ⟨p.maxPasses.getD default.maxPasses, p.parallel.getD default.parallel⟩

/-- Read the fields of settings, each of the two at most once and others as they may be. -/
def readFields (p : Draft) : List (List Char × Json) → Except DecodeError Draft
  | [] => .ok p
  | (name, v) :: rest => do
    let name ← Json.nameOf name
    if name = "max_passes" then
      if p.maxPasses.isSome then throw .malformed
      let n ← v.asNatural
      readFields { p with maxPasses := some n } rest
    else if name = "parallel" then
      if p.parallel.isSome then throw .malformed
      let b ← v.asBool
      readFields { p with parallel := some b } rest
    else
      v.skip
      readFields p rest

/-- Read the items of settings in their order. -/
def readItems : List Json → Except DecodeError Draft
  | [] => .ok {}
  | [n] => do return { maxPasses := some (← n.asNatural) }
  | [n, b] => do return { maxPasses := some (← n.asNatural), parallel := some (← b.asBool) }
  | _ => .error .malformed

/-- Read settings, without a check of the values. -/
def ofJson (left : Nat) : Json → Except DecodeError Settings
  | .object fields => do
    let _ ← Json.descend left
    return (← readFields {} fields).complete
  | .array items => do
    let _ ← Json.descend left
    return (← readItems items).complete
  | _ => .error .malformed

/-- Read the JSON text of settings that can be used. -/
def ofJsonText (text : String) : Except SettingsError Settings :=
  match Json.decodeText ofJson text with
  | .ok s => s.validate
  | .error _ => .error .json

end VersionedTree.Settings
