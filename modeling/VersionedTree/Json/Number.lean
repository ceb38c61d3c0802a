/-!
# Numbers in JSON text

A number is an optional minus sign, digits without a leading zero, and optionally a fraction and an
exponent. It is an integer when it has neither fraction nor exponent and is not a negative zero.
-/

namespace VersionedTree.Json

/-- At least one digit, and nothing but digits. -/
def allDigits (cs : List Char) : Bool := !cs.isEmpty && cs.all Char.isDigit

/-- Digits without a leading zero, or a zero alone. -/
def isPlain (cs : List Char) : Bool :=
  allDigits cs && (cs.head? != some '0' || cs.length == 1)

/-- The part after the integer part and the fraction: nothing, or an exponent. -/
def isExponent : List Char → Bool
  | [] => true
  | c :: rest =>
    (c == 'e' || c == 'E') &&
      (match rest with
        | '+' :: digits => allDigits digits
        | '-' :: digits => allDigits digits
        | digits => allDigits digits)

/-- The part after the integer part: nothing, a fraction, an exponent, or both. -/
def isTail : List Char → Bool
  | '.' :: rest =>
    !(rest.takeWhile Char.isDigit).isEmpty && isExponent (rest.dropWhile Char.isDigit)
  | rest => isExponent rest

/-- A number without its sign. -/
def isUnsigned (cs : List Char) : Bool :=
  isPlain (cs.takeWhile Char.isDigit) && isTail (cs.dropWhile Char.isDigit)

/-- Is this the literal of a number? -/
def isNumber : List Char → Bool
  | '-' :: rest => isUnsigned rest
  | cs => isUnsigned cs

/-- The number that digits stand for. -/
def ofDigits (cs : List Char) : Nat := Nat.ofDigitChars 10 cs 0

/-- The digits of a number. -/
def digits (n : Nat) : List Char := Nat.toDigits 10 n

/-- The literal of an integer. -/
def literal (i : Int) : List Char :=
  if i < 0 then '-' :: digits i.natAbs else digits i.natAbs

/-- The integer that a literal stands for, if it stands for one. A negative zero is none. -/
def integer? : List Char → Option Int
  | '-' :: rest =>
    if isPlain rest && ofDigits rest != 0 then some (-(ofDigits rest : Int)) else none
  | cs => if isPlain cs then some (ofDigits cs : Int) else none

/-- The natural number below a bound that a literal stands for. -/
def natural? (bound : Nat) (cs : List Char) : Option Nat :=
  if isPlain cs && ofDigits cs < bound then some (ofDigits cs) else none

end VersionedTree.Json
