import VersionedTree.Storage.Decode
import VersionedTree.Tree.WellFormed

/-!
# Nodes as JSON

A node is an object with one field, whose name says which kind of node it is. Sets are arrays of
members and mappings are arrays of pairs, in the order of insertion, so keys need not be strings.

Reading accepts a little more than writing produces: the absent value also as an object, and an
invocation also as the array of its tag and its arguments, or with further fields. Equal members of
a set and equal keys of a mapping are refused.
-/

namespace VersionedTree

/-- A field whose name needs no escapes. -/
def Json.variant (name : String) (v : Json) : Json := .object [(Json.escape name, v)]

/-- The JSON form of a scalar. -/
def Scalar.toJson : Scalar → Json
  | .nil => .ofText "Nil"
  | .bool value => .variant "Bool" (.bool value)
  | .int value => .variant "Int" (.number (Json.literal value.toInt))
  | .str value => .variant "Str" (.ofText value)
  | .symbol value => .variant "Symbol" (.ofText value)

/-- Read the value of a scalar of the named kind. -/
def Scalar.ofVariant (name : String) (v : Json) : Except DecodeError Scalar :=
  if name = "Nil" then
    match v with
    | .null => .ok .nil
    | _ => .error .malformed
  else if name = "Bool" then .bool <$> v.asBool
  else if name = "Int" then .int <$> v.asInt64
  else if name = "Str" then .str <$> v.asText
  else if name = "Symbol" then .symbol <$> v.asText
  else .error .malformed

/-- Read a scalar. -/
def Scalar.ofJson (left : Nat) : Json → Except DecodeError Scalar
  | .string raw => do
    if (← Json.nameOf raw) = "Nil" then return .nil else throw .malformed
  | .object ((name, v) :: rest) => do
    let _ ← Json.descend left
    let value ← ofVariant (← Json.nameOf name) v
    Json.finish value rest
  | _ => .error .malformed

namespace Node

mutual

/-- The JSON form of a node. -/
def toJson : Node → Json
  | .scalar value => .variant "Scalar" value.toJson
  | .sequence items => .variant "Sequence" (.array (itemsToJson items))
  | .set members => .variant "Set" (.array (itemsToJson members))
  | .mapping pairs => .variant "Mapping" (.array (pairsToJson pairs))
  | .invocation tag args =>
    .variant "Invocation"
      (.object [(Json.escape "tag", .ofText tag.name),
        (Json.escape "args", .array (itemsToJson args))])

/-- The JSON forms of the nodes of a list. -/
def itemsToJson : List Node → List Json
  | [] => []
  | n :: rest => n.toJson :: itemsToJson rest

/-- The JSON forms of pairs: arrays of two. -/
def pairsToJson : List (Node × Node) → List Json
  | [] => []
  | (k, v) :: rest => .array [k.toJson, v.toJson] :: pairsToJson rest

end

/-- A set of members, unless two of them are equal. -/
def setOf (members : List Node) : Except DecodeError Node :=
  let distinct := Distinct.ofList members
  if distinct.length = members.length then .ok (.set distinct) else .error .duplicateMembers

/-- A mapping of pairs, unless two keys are equal. -/
def mappingOf (pairs : List (Node × Node)) : Except DecodeError Node :=
  let keyed := Keyed.ofList pairs
  if keyed.length = pairs.length then .ok (.mapping keyed) else .error .duplicateKeys

mutual

/-- Read a node. -/
def ofJson (left : Nat) : Json → Except DecodeError Node
  | .object ((name, v) :: rest) => do
    let left ← Json.descend left
    let name ← Json.nameOf name
    let content : Except DecodeError Node :=
      if name = "Scalar" then .scalar <$> Scalar.ofJson left v
      else if name = "Sequence" then .sequence <$> listOfJson left v
      else if name = "Set" then listOfJson left v >>= setOf
      else if name = "Mapping" then pairListOfJson left v >>= mappingOf
      else if name = "Invocation" then invocationOfJson left v
      else .error .malformed
    let n ← content
    Json.finish n rest
  | _ => .error .malformed
termination_by structural v => v

/-- Read an array of nodes. -/
def listOfJson (left : Nat) : Json → Except DecodeError (List Node)
  | .array items => do
    let left ← Json.descend left
    itemsOfJson left items
  | _ => .error .malformed
termination_by structural v => v

/-- Read the nodes of an array, from left to right. -/
def itemsOfJson (left : Nat) : List Json → Except DecodeError (List Node)
  | [] => .ok []
  | v :: rest => do
    let n ← ofJson left v
    let ns ← itemsOfJson left rest
    return n :: ns
termination_by structural vs => vs

/-- Read an array of pairs. -/
def pairListOfJson (left : Nat) : Json → Except DecodeError (List (Node × Node))
  | .array items => do
    let left ← Json.descend left
    pairsOfJson left items
  | _ => .error .malformed
termination_by structural v => v

/-- Read the pairs of an array, from left to right. -/
def pairsOfJson (left : Nat) : List Json → Except DecodeError (List (Node × Node))
  | [] => .ok []
  | v :: rest => do
    let p ← pairOfJson left v
    let ps ← pairsOfJson left rest
    return p :: ps
termination_by structural vs => vs

/-- Read a pair: an array of exactly two nodes. -/
def pairOfJson (left : Nat) : Json → Except DecodeError (Node × Node)
  | .array [k] => do
    let left ← Json.descend left
    let _ ← ofJson left k
    throw .malformed
  | .array (k :: v :: rest) => do
    let left ← Json.descend left
    let k ← ofJson left k
    let v ← ofJson left v
    Json.finish (k, v) rest
  | _ => .error .malformed
termination_by structural v => v

/-- Read an invocation: an object with a tag and arguments, or an array of the two. -/
def invocationOfJson (left : Nat) : Json → Except DecodeError Node
  | .array (tag :: args :: rest) => do
    let left ← Json.descend left
    let tag ← tag.asText
    let args ← listOfJson left args
    Json.finish (.invocation ⟨tag⟩ args) rest
  | .object fields => do
    let left ← Json.descend left
    invocationFields left none none fields
  | _ => .error .malformed
termination_by structural v => v

/-- Read the fields of an invocation, each at most once and others as they may be, after `tag` and
`args` have been read. -/
def invocationFields (left : Nat) (tag : Option String) (args : Option (List Node)) :
    List (List Char × Json) → Except DecodeError Node
  | [] =>
    match tag, args with
    | some tag, some args => .ok (.invocation ⟨tag⟩ args)
    | _, _ => .error .malformed
  | (name, v) :: rest => do
    let name ← Json.nameOf name
    if name = "tag" then
      if tag.isSome then throw .malformed
      let text ← v.asText
      invocationFields left (some text) args rest
    else if name = "args" then
      if args.isSome then throw .malformed
      let ns ← listOfJson left v
      invocationFields left tag (some ns) rest
    else
      v.skip
      invocationFields left tag args rest
termination_by structural fields => fields

end

/-- The text of a node. -/
def toText (n : Node) : String := n.toJson.render

/-- Read the text of a node. -/
def ofText (text : String) : Except DecodeError Node := Json.decodeText ofJson text

end Node

end VersionedTree
