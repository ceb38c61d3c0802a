import VersionedTree.Text.Printable

/-!
# Texts

How texts are shown, which characters of them are digits, and which bytes they are.

The quoted form of a text shows every character: the usual control characters, the backslash and
the delimiter are written with a backslash, and a character that cannot be shown as it is, or that
would attach to its neighbour, is written as its code point in hexadecimal.

The byte forms are those that enter a digest: the UTF-8 form of a text, and words of 32 and of 64
bits with the least significant byte first.
-/

namespace VersionedTree.Text

/-! ### Quoted text -/

/-- The hexadecimal digits of a code point, lower case and without leading zeros. -/
def codePoint (c : Char) : String :=
  String.ofList (Nat.toDigits 16 c.toNat)

/-- One character as it stands between two delimiters. -/
def quotedChar (delimiter c : Char) : String :=
  if c = '\x00' then "\\0"
  else if c = '\t' then "\\t"
  else if c = '\r' then "\\r"
  else if c = '\n' then "\\n"
  else if c = '\\' ∨ c = delimiter then "\\" ++ String.singleton c
  else if isPrintable c && !isExtending c then String.singleton c
  else "\\u\x7b" ++ codePoint c ++ "\x7d"

/-- A text between double quotes. -/
def quoted (s : String) : String :=
  "\"" ++ String.join (s.toList.map (quotedChar '"')) ++ "\""

/-- A single character between apostrophes. -/
def quotedLetter (c : Char) : String :=
  "\x27" ++ quotedChar '\x27' c ++ "\x27"

/-- The texts, separated by a comma and a space. -/
def commaSeparated (parts : List String) : String :=
  ", ".intercalate parts

/-! ### Digits -/

/-- The value of a digit of a base up to sixteen. Letters of either case are digits. -/
def digitValue? (c : Char) : Option Nat :=
  if c.isDigit then some (c.toNat - 48)
  else if 'a' ≤ c ∧ c ≤ 'f' then some (c.toNat - 87)
  else if 'A' ≤ c ∧ c ≤ 'F' then some (c.toNat - 55)
  else none

/-! ### Texts and words as bytes -/

/-- The UTF-8 bytes of a text. -/
def utf8 (s : String) : List UInt8 := s.toList.flatMap String.utf8EncodeChar

/-- The lowest `count` bytes of a number, least significant first. -/
def littleEndian : Nat → Nat → List UInt8
  | 0, _ => []
  | count + 1, n => UInt8.ofNat n :: littleEndian count (n / 256)

/-- `littleEndian` gives as many bytes as asked for. -/
@[simp]
theorem length_littleEndian (count n : Nat) : (littleEndian count n).length = count := by
  induction count generalizing n with
  | zero => rfl
  | succ count ih => simp [littleEndian, ih]

end VersionedTree.Text
