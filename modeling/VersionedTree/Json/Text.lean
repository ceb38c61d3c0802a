import VersionedTree.Text.Basic

/-!
# Strings in JSON text

Writing a string escapes the quote, the backslash and the control characters below U+0020, and
nothing else. Reading goes in two steps. First each escape and each other character gives one code:
an escape `\uXXXX` its sixteen bits, any other character its code point. Then pairs of surrogates
are joined; a surrogate without its partner is an error of the second step only.
-/

namespace VersionedTree.Json

/-- The hexadecimal digit for a number below sixteen. -/
def hexDigit (n : Nat) : Char := Nat.digitChar n

/-- One character as it stands in a string. -/
def escapeChar (c : Char) : List Char :=
  if c = '"' then ['\\', '"']
  else if c = '\\' then ['\\', '\\']
  else if c = '\x08' then ['\\', 'b']
  else if c = '\t' then ['\\', 't']
  else if c = '\n' then ['\\', 'n']
  else if c = '\x0c' then ['\\', 'f']
  else if c = '\r' then ['\\', 'r']
  else if c.toNat < 0x20 then
    ['\\', 'u', '0', '0', hexDigit (c.toNat / 16), hexDigit (c.toNat % 16)]
  else [c]

/-- The characters of a string between its quotes. -/
def escape (s : String) : List Char := s.toList.flatMap escapeChar

/-- The number that four hexadecimal digits stand for. -/
def hexQuad? (a b c d : Char) : Option Nat := do
  let a ← Text.digitValue? a
  let b ← Text.digitValue? b
  let c ← Text.digitValue? c
  let d ← Text.digitValue? d
  return ((a * 16 + b) * 16 + c) * 16 + d

/-- The code of a one-letter escape. -/
def shortEscape? (c : Char) : Option Nat :=
  if c = '"' then some 0x22
  else if c = '\\' then some 0x5c
  else if c = '/' then some 0x2f
  else if c = 'b' then some 0x08
  else if c = 'f' then some 0x0c
  else if c = 'n' then some 0x0a
  else if c = 'r' then some 0x0d
  else if c = 't' then some 0x09
  else none

/-- The codes of the characters between two quotes; none if an escape is malformed or a control
character stands there bare. -/
def codes? : List Char → Option (List Nat)
  | [] => some []
  | '\\' :: 'u' :: a :: b :: c :: d :: rest => do
    let code ← hexQuad? a b c d
    let codes ← codes? rest
    return code :: codes
  | '\\' :: c :: rest => do
    let code ← shortEscape? c
    let codes ← codes? rest
    return code :: codes
  | c :: rest =>
    if c = '\\' ∨ c.toNat < 0x20 then none
    else do
      let codes ← codes? rest
      return c.toNat :: codes

/-- Is this the first half of a surrogate pair? -/
def isHighSurrogate (code : Nat) : Bool := 0xd800 ≤ code && code < 0xdc00

/-- Is this the second half of a surrogate pair? -/
def isLowSurrogate (code : Nat) : Bool := 0xdc00 ≤ code && code < 0xe000

/-- The characters that codes stand for; none if a surrogate lacks its partner. -/
def joinSurrogates? : List Nat → Option (List Char)
  | [] => some []
  | [code] =>
    if isHighSurrogate code || isLowSurrogate code then none else some [Char.ofNat code]
  | code :: next :: rest =>
    if isLowSurrogate code then none
    else if isHighSurrogate code then
      if isLowSurrogate next then do
        let chars ← joinSurrogates? rest
        return Char.ofNat (0x10000 + (code - 0xd800) * 0x400 + (next - 0xdc00)) :: chars
      else none
    else do
      let chars ← joinSurrogates? (next :: rest)
      return Char.ofNat code :: chars

/-- The text of a string, from the characters between its quotes. -/
def unescape? (raw : List Char) : Option String := do
  let codes ← codes? raw
  let chars ← joinSurrogates? codes
  return String.ofList chars

end VersionedTree.Json
