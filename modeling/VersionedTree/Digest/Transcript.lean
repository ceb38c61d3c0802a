import VersionedTree.Digest.Fingerprint

/-!
# Transcripts

What is digested to name a value is written as a transcript: an optional byte for the kind of the
value, then entries. A count takes eight bytes, least significant first; bytes of free length are
preceded by their count; the fingerprint of a part stands for the part with its 32 bytes.

The digest function is a parameter wherever trees are concerned, so that what holds of fingerprints
can be said without any property of BLAKE3.
-/

namespace VersionedTree

/-- One entry of a transcript. -/
inductive Entry where
  /-- A length or count. -/
  | count (n : Nat)
  /-- Bytes of free length. -/
  | bytes (content : List UInt8)
  /-- The fingerprint of a part. -/
  | part (fingerprint : Fingerprint)
  deriving DecidableEq

/-- The bytes of an entry. -/
def Entry.stream : Entry → List UInt8
  | .count n => Text.littleEndian 8 n
  | .bytes content => Text.littleEndian 8 content.length ++ content
  | .part fingerprint => fingerprint.bytes

/-- A transcript: the kind of a value and the entries written so far. -/
structure Transcript where
  /-- The byte for the kind of value, if there is one. -/
  kind : Option UInt8 := none
  /-- The entries, first one first. -/
  entries : List Entry := []
  deriving DecidableEq

namespace Transcript

/-- Start the transcript of a value of the given kind. -/
def start (kind : UInt8) : Transcript := ⟨some kind, []⟩

/-- Add an entry at the end. -/
def write (t : Transcript) (e : Entry) : Transcript := ⟨t.kind, t.entries ++ [e]⟩

/-- The bytes to digest. -/
def stream (t : Transcript) : List UInt8 :=
  t.kind.toList ++ t.entries.flatMap Entry.stream

/-- The fingerprint of what was written. -/
def finish (t : Transcript) : Fingerprint := Fingerprint.compute t.stream

end Transcript

end VersionedTree
