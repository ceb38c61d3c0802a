import VersionedTree.Text.Basic

/-!
# BLAKE3

The digest of a byte string under the BLAKE3 hash function, unkeyed and 32 bytes long.

The input is cut into chunks of 1024 bytes, each chunk into blocks of 64 bytes. The blocks of a
chunk are compressed one after the other; the chunks are the leaves of a binary tree whose left
subtrees are the largest complete trees that leave something on the right, and a parent compresses
the chaining values of its two children as one block. The last compression of all carries a flag
of its own.
-/

namespace VersionedTree.Blake3

/-- The chaining value between two compressions: eight words. -/
abbrev Chain := Vector UInt32 8

/-- A block of 64 bytes, or the working state: sixteen words. -/
abbrev Words := Vector UInt32 16

/-- The initial chaining value. -/
def initial : Chain :=
  #v[0x6A09E667, 0xBB67AE85, 0x3C6EF372, 0xA54FF53A, 0x510E527F, 0x9B05688C, 0x1F83D9AB, 0x5BE0CD19]

/-- The first block of a chunk. -/
def chunkStart : UInt32 := 1

/-- The last block of a chunk. -/
def chunkEnd : UInt32 := 2

/-- A block that joins two subtrees. -/
def parent : UInt32 := 4

/-- The last compression. -/
def root : UInt32 := 8

/-- Rotate a word to the right. -/
def rotr (x : UInt32) (n : UInt32) : UInt32 := (x >>> n) ||| (x <<< (32 - n))

/-- Mix two words of the message into one column or diagonal of the state. -/
def quarter (s : Words) (a b c d : Fin 16) (x y : UInt32) : Words :=
  let s := s.set a (s[a] + s[b] + x)
  let s := s.set d (rotr (s[d] ^^^ s[a]) 16)
  let s := s.set c (s[c] + s[d])
  let s := s.set b (rotr (s[b] ^^^ s[c]) 12)
  let s := s.set a (s[a] + s[b] + y)
  let s := s.set d (rotr (s[d] ^^^ s[a]) 8)
  let s := s.set c (s[c] + s[d])
  s.set b (rotr (s[b] ^^^ s[c]) 7)

/-- One round: the four columns, then the four diagonals. -/
def round (s m : Words) : Words :=
  let s := quarter s 0 4 8 12 m[0] m[1]
  let s := quarter s 1 5 9 13 m[2] m[3]
  let s := quarter s 2 6 10 14 m[4] m[5]
  let s := quarter s 3 7 11 15 m[6] m[7]
  let s := quarter s 0 5 10 15 m[8] m[9]
  let s := quarter s 1 6 11 12 m[10] m[11]
  let s := quarter s 2 7 8 13 m[12] m[13]
  quarter s 3 4 9 14 m[14] m[15]

/-- The order in which the next round reads the message. -/
def permute (m : Words) : Words :=
  #v[m[2], m[6], m[3], m[10], m[7], m[0], m[4], m[13], m[1], m[11], m[12], m[5], m[9], m[14], m[15],
    m[8]]

/-- `n` rounds, with the message permuted in between. -/
def rounds : Nat → Words → Words → Words
  | 0, s, _ => s
  | n + 1, s, m => rounds n (round s m) (permute m)

/-- Compress a block into a chaining value. The counter is the number of the chunk, `length` the
number of bytes in the block. -/
def compress (chain : Chain) (block : Words) (counter : UInt64) (length flags : UInt32) : Chain :=
  let s : Words := #v[
    chain[0], chain[1], chain[2], chain[3], chain[4], chain[5], chain[6], chain[7],
    initial[0], initial[1], initial[2], initial[3],
    counter.toUInt32, (counter >>> 32).toUInt32, length, flags]
  let s := rounds 7 s block
  #v[s[0] ^^^ s[8], s[1] ^^^ s[9], s[2] ^^^ s[10], s[3] ^^^ s[11], s[4] ^^^ s[12], s[5] ^^^ s[13],
    s[6] ^^^ s[14], s[7] ^^^ s[15]]

/-- A compression that waits to learn whether it is the last one. -/
structure Pending where
  /-- The chaining value so far. -/
  chain : Chain
  /-- The block to compress. -/
  block : Words
  /-- The number of the chunk; zero for a parent. -/
  counter : UInt64
  /-- The number of bytes in the block. -/
  length : UInt32
  /-- The flags, without the one of the last compression. -/
  flags : UInt32

/-- The chaining value that a compression inside the tree gives. -/
def Pending.value (p : Pending) : Chain := compress p.chain p.block p.counter p.length p.flags

/-- The chaining value of the last compression. -/
def Pending.final (p : Pending) : Chain :=
  compress p.chain p.block 0 p.length (p.flags ||| root)

/-- The bytes of a block as words, least significant byte first; missing bytes are zero. -/
def blockWords (bytes : List UInt8) : Words :=
  let padded := (bytes ++ List.replicate (64 - bytes.length) 0).toArray
  Vector.ofFn fun i : Fin 16 =>
    let byte (k : Nat) : UInt32 := (padded.getD (4 * i.val + k) 0).toUInt32
    byte 0 ||| (byte 1 <<< 8) ||| (byte 2 <<< 16) ||| (byte 3 <<< 24)

/-- Compress the blocks of a chunk up to the last, which is left pending. `fuel` bounds the number
of blocks. -/
def chunkBlocks (counter : UInt64) : Nat → Chain → UInt32 → List UInt8 → Pending
  | 0, chain, start, bytes =>
    ⟨chain, blockWords bytes, counter, bytes.length.toUInt32, start ||| chunkEnd⟩
  | fuel + 1, chain, start, bytes =>
    if bytes.length ≤ 64 then
      ⟨chain, blockWords bytes, counter, bytes.length.toUInt32, start ||| chunkEnd⟩
    else
      chunkBlocks counter fuel (compress chain (blockWords (bytes.take 64)) counter 64 start) 0
        (bytes.drop 64)

/-- The pending compression of one chunk: at most sixteen blocks. -/
def chunk (counter : UInt64) (bytes : List UInt8) : Pending :=
  chunkBlocks counter 15 initial chunkStart bytes

/-- The pending compression that joins two subtrees. -/
def join (left right : Chain) : Pending :=
  ⟨initial, left ++ right, 0, 64, parent⟩

/-- The number of bytes in the left subtree: the largest power of two of chunks that leaves
something on the right. -/
def leftLength (n : Nat) : Nat := 1024 <<< Nat.log2 ((n - 1) / 1024)

/-- Both sides of a split hold fewer bytes than the whole. -/
theorem leftLength_bounds {n : Nat} (h : 1024 < n) : 0 < leftLength n ∧ leftLength n < n := by
  have hq : (n - 1) / 1024 ≠ 0 := by omega
  have hpow : 2 ^ Nat.log2 ((n - 1) / 1024) ≤ (n - 1) / 1024 := Nat.log2_self_le hq
  have hpos : 0 < 2 ^ Nat.log2 ((n - 1) / 1024) := Nat.two_pow_pos _
  rw [leftLength, Nat.shiftLeft_eq]
  omega

/-- The pending compression of the subtree over `bytes`, whose first chunk has number `first`. -/
def subtree (first : Nat) (bytes : List UInt8) : Pending :=
  if h : bytes.length ≤ 1024 then chunk first.toUInt64 bytes
  else
    let size := leftLength bytes.length
    join (subtree first (bytes.take size)).value
      (subtree (first + size / 1024) (bytes.drop size)).value
termination_by bytes.length
decreasing_by
  · have := leftLength_bounds (Nat.lt_of_not_le h)
    simp only [List.length_take]
    omega
  · have := leftLength_bounds (Nat.lt_of_not_le h)
    simp only [List.length_drop]
    omega

/-- The digest: the words of the last compression, least significant byte first. -/
def digest (bytes : List UInt8) : List UInt8 :=
  (subtree 0 bytes).final.toList.flatMap fun word => Text.littleEndian 4 word.toNat

/-- A digest has 32 bytes. -/
@[simp]
theorem length_digest (bytes : List UInt8) : (digest bytes).length = 32 := by
  simp [digest, List.length_flatMap, List.map_const']

end VersionedTree.Blake3
