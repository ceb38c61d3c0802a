import VersionedTree.Text.Basic

/-!
# Hexadecimal text

Bytes as text, two digits to a byte. Writing uses lower case; reading accepts either case and looks
at the UTF-8 bytes of the text, so a character beyond ASCII is a digit that does not exist.

## What is proved

* `Hex.decodeBytes_digits` — reading back what was written gives the bytes.
-/

namespace VersionedTree.Hex

/-- Why a text is no hexadecimal form. -/
inductive HexError where
  /-- The text has an odd number of bytes. -/
  | oddLength
  /-- A byte is not a digit; it is shown as the character with its code. -/
  | invalidDigit (byte : UInt8) (position : Nat)
  deriving DecidableEq, Repr

/-- The wording of an error. -/
def HexError.message : HexError → String
  | .oddLength => "Odd number of digits"
  | .invalidDigit byte position =>
    "Invalid character " ++ Text.quotedLetter (Char.ofNat byte.toNat) ++ " at position " ++
      toString position

/-- The digit for a number below sixteen. -/
def digit (n : Nat) : UInt8 := if n < 10 then UInt8.ofNat (48 + n) else UInt8.ofNat (87 + n)

/-- The two digits of a byte. -/
def digits (b : UInt8) : List UInt8 := [digit (b.toNat / 16), digit (b.toNat % 16)]

/-- The value of a byte that is a digit of either case. -/
def digitValue? (b : UInt8) : Option Nat := Text.digitValue? (Char.ofNat b.toNat)

/-- The hexadecimal text of a list of bytes. -/
def encode (bytes : List UInt8) : String :=
  String.ofList ((bytes.flatMap digits).map fun b => Char.ofNat b.toNat)

/-- The value of the digit at a position. -/
def digitAt (b : UInt8) (position : Nat) : Except HexError Nat :=
  match digitValue? b with
  | some n => .ok n
  | none => .error (.invalidDigit b position)

/-- Read pairs of digits; `position` counts the bytes already read. -/
def decodePairs : List UInt8 → Nat → Except HexError (List UInt8)
  | high :: low :: rest, position => do
    let high ← digitAt high position
    let low ← digitAt low (position + 1)
    let bytes ← decodePairs rest (position + 2)
    return UInt8.ofNat (16 * high + low) :: bytes
  | [_], _ => .error .oddLength
  | [], _ => .ok []

/-- Read the bytes of a text. An odd number of them is reported before any bad digit. -/
def decodeBytes (bytes : List UInt8) : Except HexError (List UInt8) :=
  if bytes.length % 2 = 1 then .error .oddLength else decodePairs bytes 0

/-- Read a hexadecimal text. -/
def decode (text : String) : Except HexError (List UInt8) :=
  decodeBytes (Text.utf8 text)

/-- A digit that was written has its value. -/
theorem digitValue?_digit {n : Nat} (h : n < 16) : digitValue? (digit n) = some n := by
  have key : ∀ m : Fin 16, digitValue? (digit m.val) = some m.val := by decide
  exact key ⟨n, h⟩

/-- Every byte is written with two digits. -/
theorem length_flatMap_digits (bytes : List UInt8) :
    (bytes.flatMap digits).length = 2 * bytes.length := by
  simp [digits, List.length_flatMap, List.map_const', Nat.mul_comm]

/-- Reading back what was written gives the bytes. -/
theorem decodeBytes_digits (bytes : List UInt8) :
    decodeBytes (bytes.flatMap digits) = .ok bytes := by
  have pairs : ∀ position, decodePairs (bytes.flatMap digits) position = .ok bytes := by
    induction bytes with
    | nil => intro position; rfl
    | cons b rest ih =>
      intro position
      have hb : b.toNat < 256 := b.toNat_lt
      have hhigh : digitValue? (digit (b.toNat / 16)) = some (b.toNat / 16) :=
        digitValue?_digit (by omega)
      have hlow : digitValue? (digit (b.toNat % 16)) = some (b.toNat % 16) :=
        digitValue?_digit (by omega)
      have hsum : UInt8.ofNat (16 * (b.toNat / 16) + b.toNat % 16) = b := by
        rw [Nat.div_add_mod]
        exact UInt8.ofNat_toNat
      show decodePairs (digit _ :: digit _ :: rest.flatMap digits) position = _
      simp only [decodePairs, digitAt, hhigh, hlow, ih]
      simp only [bind, Except.bind, pure, Except.pure, hsum]
  have hlength := length_flatMap_digits bytes
  rw [decodeBytes, if_neg (by omega), pairs]

end VersionedTree.Hex
