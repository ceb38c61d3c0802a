import VersionedTree.Digest.Blake3
import VersionedTree.Digest.Hex

/-!
# Fingerprints

A fingerprint is a digest of 32 bytes that names a tree by its structure. It is written as 64
hexadecimal digits and ordered byte by byte.
-/

namespace VersionedTree

/-- A digest of 32 bytes. -/
structure Fingerprint where
  /-- The bytes of the digest. -/
  bytes : List UInt8
  /-- There are 32 of them. -/
  length_bytes : bytes.length = 32
  deriving DecidableEq

/-- Why something is no fingerprint. -/
inductive FingerprintError where
  /-- The number of bytes is not 32. -/
  | invalidLength (actual : Nat)
  /-- The text is not hexadecimal. -/
  | invalidHex (cause : Hex.HexError)
  deriving DecidableEq, Repr

/-- The wording of an error. -/
def FingerprintError.message : FingerprintError → String
  | .invalidLength actual => "fingerprint must be 32 bytes, got " ++ toString actual
  | .invalidHex cause => "fingerprint is not valid hex: " ++ cause.message

namespace Fingerprint

/-- Fingerprints with the same bytes are the same. -/
@[ext]
theorem ext {f g : Fingerprint} (h : f.bytes = g.bytes) : f = g := by
  obtain ⟨bf, hf⟩ := f
  obtain ⟨bg, hg⟩ := g
  cases h
  rfl

/-- Exactly 32 bytes make a fingerprint. -/
def ofBytes (bytes : List UInt8) : Except FingerprintError Fingerprint :=
  if h : bytes.length = 32 then .ok ⟨bytes, h⟩ else .error (.invalidLength bytes.length)

/-- The BLAKE3 digest of arbitrary bytes. -/
def compute (bytes : List UInt8) : Fingerprint :=
  ⟨Blake3.digest bytes, Blake3.length_digest bytes⟩

/-- Read the hexadecimal form. All digits are read before they are counted. -/
def ofText (text : String) : Except FingerprintError Fingerprint :=
  match Hex.decode text with
  | .error cause => .error (.invalidHex cause)
  | .ok bytes => ofBytes bytes

/-- The 64 hexadecimal digits. -/
def text (f : Fingerprint) : String := Hex.encode f.bytes

/-- The first sixteen digits, for a log line. -/
def short (f : Fingerprint) : String := Hex.encode (f.bytes.take 8)

instance : ToString Fingerprint := ⟨text⟩

instance : LT Fingerprint := ⟨fun f g => f.bytes < g.bytes⟩

instance : LE Fingerprint := ⟨fun f g => f.bytes ≤ g.bytes⟩

instance (f g : Fingerprint) : Decidable (f < g) := inferInstanceAs (Decidable (f.bytes < g.bytes))

instance (f g : Fingerprint) : Decidable (f ≤ g) := inferInstanceAs (Decidable (f.bytes ≤ g.bytes))

instance : Ord Fingerprint := ⟨fun f g => compareOfLessAndEq f g⟩

/-- Fingerprints in ascending order. -/
def sorted (fs : List Fingerprint) : List Fingerprint :=
  fs.mergeSort fun f g => decide (f ≤ g)

/-- Pairs of fingerprints in ascending order, the first component deciding before the second. -/
def sortedPairs (ps : List (Fingerprint × Fingerprint)) : List (Fingerprint × Fingerprint) :=
  ps.mergeSort fun p q => decide (p.1.bytes ++ p.2.bytes ≤ q.1.bytes ++ q.2.bytes)

end Fingerprint

end VersionedTree
