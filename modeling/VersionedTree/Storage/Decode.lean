import VersionedTree.Json.Reader
import VersionedTree.Dispatch.Consistency
import VersionedTree.Digest.Fingerprint

/-!
# Decoding JSON values

What all decoders share: the errors, the limit on nesting, and the plain values. A decoder takes a
value apart from left to right and reports the first fault, be it one of the text or one of the
content.

The first argument of a decoder is the number of arrays and objects that may still be opened.
-/

namespace VersionedTree

/-- Why a stored value is refused. -/
inductive DecodeError where
  /-- The text is no JSON, or the value has the wrong shape. -/
  | malformed
  /-- Two keys of a mapping are equal. -/
  | duplicateKeys
  /-- Two members of a set are equal. -/
  | duplicateMembers
  /-- A version is listed twice. -/
  | version (cause : DuplicateVersion)
  /-- A fingerprint is not well written. -/
  | fingerprint (cause : FingerprintError)
  /-- A table is inconsistent. -/
  | dispatch (cause : DispatchFault)
  deriving DecidableEq

/-- The wording of an error, where it says more than that the text is malformed. -/
def DecodeError.message? : DecodeError → Option String
  | .malformed => none
  | .duplicateKeys => some "mapping contains duplicate keys"
  | .duplicateMembers => some "set contains duplicate members"
  | .version cause => some cause.message
  | .fingerprint cause => some cause.message
  | .dispatch cause => some cause.message

namespace Json

/-- The number of arrays and objects that may be open at one place of a text. -/
def maxNesting : Nat := 127

/-- Open an array or object: one fewer may be opened inside. -/
def descend : Nat → Except DecodeError Nat
  | 0 => .error .malformed
  | left + 1 => .ok left

/-- Succeed where nothing is left over. -/
def finish {α β : Type} (a : α) : List β → Except DecodeError α
  | [] => .ok a
  | _ :: _ => .error .malformed

/-- The name of a field or of a variant. -/
def nameOf (raw : List Char) : Except DecodeError String :=
  match unescape? raw with
  | some name => .ok name
  | none => .error .malformed

/-- A string. -/
def asText : Json → Except DecodeError String
  | .string raw => nameOf raw
  | _ => .error .malformed

/-- A truth value. -/
def asBool : Json → Except DecodeError Bool
  | .bool value => .ok value
  | _ => .error .malformed

/-- A natural number of 64 bits. -/
def asNatural : Json → Except DecodeError Nat
  | .number literal =>
    match natural? UInt64.size literal with
    | some n => .ok n
    | none => .error .malformed
  | _ => .error .malformed

/-- A signed integer of 64 bits. -/
def asInt64 : Json → Except DecodeError Int64
  | .number literal =>
    match integer? literal with
    | some i =>
      if Int64.minValue.toInt ≤ i ∧ i ≤ Int64.maxValue.toInt then .ok (Int64.ofInt i)
      else .error .malformed
    | none => .error .malformed
  | _ => .error .malformed

/-- An array of values that decode alike. -/
def asList {α : Type} (left : Nat) (item : Nat → Json → Except DecodeError α) :
    Json → Except DecodeError (List α)
  | .array items => do
    let left ← descend left
    items.mapM (item left)
  | _ => .error .malformed

/-- An object whose names decode alike and whose values decode alike, as a list of entries. -/
def asEntries {κ ν : Type} (left : Nat) (key : List Char → Except DecodeError κ)
    (value : Nat → Json → Except DecodeError ν) : Json → Except DecodeError (List (κ × ν))
  | .object fields => do
    let left ← descend left
    fields.mapM fun field => do
      let k ← key field.1
      let v ← value left field.2
      return (k, v)
  | _ => .error .malformed

/-- Skip a value that nobody uses. It only has to be free of faults. -/
def skip (v : Json) : Except DecodeError Unit :=
  if v.intact then .ok () else .error .malformed

/-- Decode a whole text. -/
def decodeText {α : Type} (decode : Nat → Json → Except DecodeError α) (text : String) :
    Except DecodeError α := do
  let document := read text
  let a ← decode maxNesting document.value
  if document.ends then .ok a else .error .malformed

/-- A string as JSON. -/
def ofText (s : String) : Json := .string (escape s)

/-- A natural number as JSON. -/
def ofNat (n : Nat) : Json := .number (digits n)

end Json

end VersionedTree
