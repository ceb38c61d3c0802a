import VersionedTree.Tree.Node
import VersionedTree.Digest.Transcript

/-!
# Fingerprints of nodes

The transcript of a node starts with a byte for its kind. A collection writes its size and the
fingerprints of its parts: a sequence in order, a set in ascending order of the fingerprints, a
mapping in ascending order of the pairs, so that neither depends on the order of insertion. An
invocation writes its tag before its arguments.

Everything here has the digest function as its first argument; `Node.fingerprint` fixes it to
BLAKE3.
-/

namespace VersionedTree

/-- The transcript of a scalar: its kind, then its value as bytes. -/
def Scalar.transcript : Scalar → Transcript
  | .nil => ⟨some 0, []⟩
  | .bool value => ⟨some 1, [.bytes [if value then 1 else 0]]⟩
  | .int value => ⟨some 2, [.bytes (Text.littleEndian 8 value.toUInt64.toNat)]⟩
  | .str value => ⟨some 3, [.bytes (Text.utf8 value)]⟩
  | .symbol value => ⟨some 4, [.bytes (Text.utf8 value)]⟩

namespace Node

mutual

/-- What is digested to name a node. -/
def transcriptBy (digest : List UInt8 → Fingerprint) : Node → Transcript
  | .scalar value => value.transcript
  | .sequence items => ⟨some 5, .count items.length :: (partsBy digest items).map .part⟩
  | .set members =>
    ⟨some 6, .count members.length :: (Fingerprint.sorted (partsBy digest members)).map .part⟩
  | .mapping pairs =>
    ⟨some 7, .count pairs.length ::
      (Fingerprint.sortedPairs (pairPartsBy digest pairs)).flatMap fun p => [.part p.1, .part p.2]⟩
  | .invocation tag args =>
    ⟨some 8, .bytes (Text.utf8 tag.name) :: .count args.length ::
      (partsBy digest args).map .part⟩

/-- The fingerprints of the nodes of a list, in order. -/
def partsBy (digest : List UInt8 → Fingerprint) : List Node → List Fingerprint
  | [] => []
  | n :: rest => digest (transcriptBy digest n).stream :: partsBy digest rest

/-- The fingerprints of the keys and values of a mapping, in order. -/
def pairPartsBy (digest : List UInt8 → Fingerprint) :
    List (Node × Node) → List (Fingerprint × Fingerprint)
  | [] => []
  | (k, v) :: rest =>
    (digest (transcriptBy digest k).stream, digest (transcriptBy digest v).stream) ::
      pairPartsBy digest rest

end

/-- The fingerprint of a node under a digest function. -/
def fingerprintBy (digest : List UInt8 → Fingerprint) (n : Node) : Fingerprint :=
  digest (n.transcriptBy digest).stream

/-- The structural fingerprint of a node. -/
def fingerprint (n : Node) : Fingerprint := n.fingerprintBy Fingerprint.compute

/-- The fingerprints of a list are those of its members. -/
theorem partsBy_eq_map (digest : List UInt8 → Fingerprint) (items : List Node) :
    partsBy digest items = items.map (fingerprintBy digest) := by
  induction items with
  | nil => rfl
  | cons n rest ih => rw [partsBy, ih]; rfl

/-- The fingerprints of pairs are those of the keys and of the values. -/
theorem pairPartsBy_eq_map (digest : List UInt8 → Fingerprint) (pairs : List (Node × Node)) :
    pairPartsBy digest pairs =
      pairs.map fun p => (p.1.fingerprintBy digest, p.2.fingerprintBy digest) := by
  induction pairs with
  | nil => rfl
  | cons p rest ih =>
    obtain ⟨k, v⟩ := p
    rw [pairPartsBy, ih]
    rfl

end Node

end VersionedTree
