import VersionedTree.Storage.Node
import VersionedTree.Storage.Version

/-!
# Artifacts as JSON

An artifact is an object with one field that says whether it is a single tree or a table. The parts
of a table are its selector, the known versions, the groups of the versions, and the trees of the
groups, where a group is a number and stands as the name of a field in decimal.

A table that is read has to be consistent. Its parts may stand in any order, with others between
them, or as an array in the order above.
-/

namespace VersionedTree

namespace Dispatch

/-- The JSON form of a table. -/
def toJson (d : Dispatch) : Json :=
  .object [
    (Json.escape "selector", .ofText d.selector),
    (Json.escape "known_versions", d.known.toJson),
    (Json.escape "version_to_group",
      .object (d.assigned.entries.map fun row => (Json.escape row.1.name, .ofNat row.2.index))),
    (Json.escape "group_to_tree",
      .object (d.trees.entries.map fun row => (Json.digits row.1.index, row.2.toJson)))]

/-- The parts of a table that have been read. -/
structure Parts where
  /-- The selector. -/
  selector : Option String := none
  /-- The known versions. -/
  known : Option KnownVersions := none
  /-- The groups of the versions. -/
  assigned : Option (Table Version GroupId) := none
  /-- The trees of the groups. -/
  trees : Option (Table GroupId Node) := none

/-- Read the groups of the versions. -/
def assignedOfJson (left : Nat) (v : Json) : Except DecodeError (Table Version GroupId) := do
  let rows ← v.asEntries left (fun raw => Version.mk <$> Json.nameOf raw) fun _ group =>
    GroupId.mk <$> group.asNatural
  return Table.ofList rows

/-- Read a group as the name of a field: the digits of its number, written without escapes. -/
def groupOfName (raw : List Char) : Except DecodeError GroupId :=
  match Json.natural? UInt64.size raw with
  | some n => .ok ⟨n⟩
  | none => .error .malformed

/-- Read the trees of the groups. -/
def treesOfJson (left : Nat) (v : Json) : Except DecodeError (Table GroupId Node) := do
  let rows ← v.asEntries left groupOfName Node.ofJson
  return Table.ofList rows

/-- A part that has not been read before. -/
def fresh {α : Type} : Option α → Except DecodeError Unit
  | none => .ok ()
  | some _ => .error .malformed

/-- Read the fields of a table, each of the four once and others as they may be. -/
def readFields (left : Nat) (parts : Parts) : List (List Char × Json) → Except DecodeError Parts
  | [] => .ok parts
  | (name, v) :: rest => do
    let name ← Json.nameOf name
    if name = "selector" then
      fresh parts.selector
      let selector ← v.asText
      readFields left { parts with selector := some selector } rest
    else if name = "known_versions" then
      fresh parts.known
      let known ← KnownVersions.ofJson left v
      readFields left { parts with known := some known } rest
    else if name = "version_to_group" then
      fresh parts.assigned
      let assigned ← assignedOfJson left v
      readFields left { parts with assigned := some assigned } rest
    else if name = "group_to_tree" then
      fresh parts.trees
      let trees ← treesOfJson left v
      readFields left { parts with trees := some trees } rest
    else
      v.skip
      readFields left parts rest

/-- Read the first four items of an array as the parts of a table, as far as there are any. -/
def readItems (left : Nat) (items : List Json) : Except DecodeError Parts :=
  match items with
  | [] => .ok {}
  | selector :: items => do
    let selector ← selector.asText
    match items with
    | [] => throw .malformed
    | known :: items =>
      let known ← KnownVersions.ofJson left known
      match items with
      | [] => throw .malformed
      | assigned :: items =>
        let assigned ← assignedOfJson left assigned
        match items with
        | [] => throw .malformed
        | trees :: items =>
          let trees ← treesOfJson left trees
          Json.finish ⟨some selector, some known, some assigned, some trees⟩ items

/-- A table with all its parts, if it is consistent. -/
def assemble : Parts → Except DecodeError Dispatch
  | ⟨some selector, some known, some assigned, some trees⟩ =>
    let d : Dispatch := ⟨selector, known, assigned, trees⟩
    match d.validate with
    | .ok () => .ok d
    | .error fault => .error (.dispatch fault)
  | _ => .error .malformed

/-- Read a table. -/
def ofJson (left : Nat) : Json → Except DecodeError Dispatch
  | .object fields => do
    let left ← Json.descend left
    assemble (← readFields left {} fields)
  | .array items => do
    let left ← Json.descend left
    assemble (← readItems left items)
  | _ => .error .malformed

end Dispatch

namespace Artifact

/-- The JSON form of an artifact. -/
def toJson : Artifact → Json
  | .resolved tree => .variant "Resolved" tree.toJson
  | .dispatch d => .variant "Dispatch" d.toJson

/-- Read the content of an artifact of the named kind. -/
def ofVariant (left : Nat) (name : String) (v : Json) : Except DecodeError Artifact :=
  if name = "Resolved" then .resolved <$> Node.ofJson left v
  else if name = "Dispatch" then .dispatch <$> Dispatch.ofJson left v
  else .error .malformed

/-- Read an artifact. -/
def ofJson (left : Nat) : Json → Except DecodeError Artifact
  | .object ((name, v) :: rest) => do
    let left ← Json.descend left
    let artifact ← ofVariant left (← Json.nameOf name) v
    Json.finish artifact rest
  | _ => .error .malformed

/-- The text of an artifact. -/
def toText (a : Artifact) : String := a.toJson.render

/-- Read the text of an artifact. -/
def ofText (text : String) : Except DecodeError Artifact := Json.decodeText ofJson text

end Artifact

end VersionedTree
