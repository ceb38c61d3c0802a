import VersionedTree.Toml.Value
import VersionedTree.Text.Basic

/-!
# Strings, numbers and dates in TOML

Strings come in four spellings: between quotes with escapes or between apostrophes without, and each
of the two on one line or, with the delimiter written three times, on several.

A number, a truth value or a date is a word: it is read up to the next character that cannot belong
to one, and then has to be of one of the forms as a whole. Integers have 64 bits, and a number with
a fraction or an exponent is one of double precision: whether it is too large is decided exactly.
-/

namespace VersionedTree.Toml

/-- Is this a control character that no text may hold? A tab may stand anywhere. -/
def isControl (c : Char) : Bool := (c.toNat < 0x20 && c != '\t') || c.toNat == 0x7f

/-- A blank within a line. -/
def isSpace (c : Char) : Bool := c == ' ' || c == '\t'

/-! ### Strings -/

/-- The character that so many hexadecimal digits stand for, and the rest of the text. -/
def readCode (count : Nat) (cs : List Char) : Option (Char × List Char) := do
  let digits := cs.take count
  if digits.length = count then
    let values ← digits.mapM Text.digitValue?
    let code := values.foldl (fun n d => 16 * n + d) 0
    if code.isValidChar then return (Char.ofNat code, cs.drop count) else none
  else none

/-- The character of an escape, after its backslash, and the rest of the text. -/
def readEscape : List Char → Option (Char × List Char)
  | 'b' :: rest => some ('\x08', rest)
  | 't' :: rest => some ('\t', rest)
  | 'n' :: rest => some ('\n', rest)
  | 'f' :: rest => some ('\x0c', rest)
  | 'r' :: rest => some ('\r', rest)
  | '"' :: rest => some ('"', rest)
  | '\\' :: rest => some ('\\', rest)
  | 'u' :: rest => readCode 4 rest
  | 'U' :: rest => readCode 8 rest
  | _ => none

/-- A string between quotes, after the first one. `fuel` bounds the number of characters. -/
def readBasic : (fuel : Nat) → List Char → Option (List Char × List Char)
  | 0, _ => none
  | _, [] => none
  | fuel + 1, c :: rest =>
    if c = '"' then some ([], rest)
    else if c = '\\' then do
      let (c, rest) ← readEscape rest
      let (cs, rest) ← readBasic fuel rest
      return (c :: cs, rest)
    else if isControl c then none
    else do
      let (cs, rest) ← readBasic fuel rest
      return (c :: cs, rest)

/-- A string between apostrophes, after the first one. -/
def readLiteral : List Char → Option (List Char × List Char)
  | [] => none
  | c :: rest =>
    if c = '\x27' then some ([], rest)
    else if isControl c then none
    else do
      let (cs, rest) ← readLiteral rest
      return (c :: cs, rest)

/-- A line break, and the rest of the text. -/
def readBreak : List Char → Option (List Char)
  | '\n' :: rest => some rest
  | '\r' :: '\n' :: rest => some rest
  | _ => none

/-- Blanks and line breaks that follow. -/
def skipLines : (fuel : Nat) → List Char → List Char
  | 0, cs => cs
  | fuel + 1, cs =>
    match readBreak cs with
    | some rest => skipLines fuel rest
    | none =>
      match cs with
      | c :: rest => if isSpace c then skipLines fuel rest else cs
      | [] => []

/-- The end of a string of several lines: three delimiters, before which up to two more belong to
the string. -/
def readClose (delimiter : Char) (cs : List Char) : Option (List Char × List Char) :=
  let run := cs.takeWhile (· == delimiter)
  if 3 ≤ run.length then
    let kept := min (run.length - 3) 2
    some (List.replicate kept delimiter, cs.drop (kept + 3))
  else none

/-- A string of several lines, after its opening. With escapes, a backslash before the end of a line
joins the lines. `fuel` bounds the number of characters. -/
def readLines (delimiter : Char) (escapes : Bool) :
    (fuel : Nat) → List Char → Option (List Char × List Char)
  | 0, _ => none
  | _, [] => none
  | fuel + 1, c :: rest =>
    match readClose delimiter (c :: rest) with
    | some closed => some closed
    | none =>
      match readBreak (c :: rest) with
      | some rest => do
        let (cs, rest) ← readLines delimiter escapes fuel rest
        return ('\n' :: cs, rest)
      | none =>
        if escapes ∧ c = '\\' then
          match readBreak (rest.dropWhile isSpace) with
          | some after => readLines delimiter escapes fuel (skipLines after.length after)
          | none => do
            let (c, rest) ← readEscape rest
            let (cs, rest) ← readLines delimiter escapes fuel rest
            return (c :: cs, rest)
        else if isControl c then none
        else do
          let (cs, rest) ← readLines delimiter escapes fuel rest
          return (c :: cs, rest)

/-- The text after the opening of a string of several lines: a line break right there is no part of
it. -/
def afterOpening (cs : List Char) : List Char := (readBreak cs).getD cs

/-- A string of any spelling, and the rest of the text. -/
def readString (cs : List Char) : Option (String × List Char) :=
  let found :=
    match cs with
    | '"' :: '"' :: '"' :: rest => readLines '"' true (rest.length + 1) (afterOpening rest)
    | '\x27' :: '\x27' :: '\x27' :: rest =>
      readLines '\x27' false (rest.length + 1) (afterOpening rest)
    | '"' :: rest => readBasic (rest.length + 1) rest
    | '\x27' :: rest => readLiteral rest
    | _ => none
  found.map fun (s, rest) => (String.ofList s, rest)

/-! ### Numbers -/

/-- Digits of a base, which single underscores may separate; the value they stand for. -/
def digitsValue? (base : Nat) (cs : List Char) : Option Nat := do
  let values ← (cs.splitOn '_').mapM fun part =>
    if part.isEmpty then none
    else part.mapM fun c => do
      let d ← Text.digitValue? c
      if d < base then return d else none
  return values.flatten.foldl (fun n d => base * n + d) 0

/-- A decimal number without a sign: no zero stands before another digit. -/
def decimal? (cs : List Char) : Option Nat :=
  if cs.head? = some '0' ∧ cs.length ≠ 1 then none else digitsValue? 10 cs

/-- A sign, and what follows it. -/
def splitSign : List Char → Bool × List Char
  | '-' :: rest => (true, rest)
  | '+' :: rest => (false, rest)
  | cs => (false, cs)

/-- The integer that a word stands for, in any of the four bases. -/
def integer? (word : List Char) : Option Int :=
  match word with
  | '0' :: 'x' :: digits => Int.ofNat <$> digitsValue? 16 digits
  | '0' :: 'o' :: digits => Int.ofNat <$> digitsValue? 8 digits
  | '0' :: 'b' :: digits => Int.ofNat <$> digitsValue? 2 digits
  | _ => do
    let (negative, digits) := splitSign word
    let n ← decimal? digits
    return if negative then -(n : Int) else n

/-- Is the integer one of 64 bits? -/
def inRange (i : Int) : Bool := Int64.minValue.toInt ≤ i && i ≤ Int64.maxValue.toInt

/-- A number as it is written: a sign, digits, and the power of ten that scales them. -/
structure Decimal where
  /-- Is there a minus sign? -/
  negative : Bool
  /-- The number that the digits make up without the point. -/
  digits : Nat
  /-- The power of ten. -/
  exponent : Int

namespace Decimal

/-- The least magnitude that no longer rounds to a number of double precision: it lies half a step
above the largest of them. -/
def bound : Nat := (1 <<< 1024) - (1 <<< 970)

/-- Is the magnitude too large for double precision? Numbers of another size than the bound are told
apart by the digits before the point alone, so that only small powers of ten are computed. -/
def overflows (d : Decimal) : Bool :=
  if d.digits = 0 then false
  else
    let places : Int := (Nat.toDigits 10 d.digits).length + d.exponent
    let boundPlaces : Int := (Nat.toDigits 10 bound).length
    if places < boundPlaces then false
    else if boundPlaces < places then true
    else bound * Nat.pow 10 (-d.exponent).toNat ≤ d.digits * Nat.pow 10 d.exponent.toNat

end Decimal

/-- The exponent that a text stands for, with its letter. -/
def exponent? : List Char → Option Int
  | c :: rest =>
    if c = 'e' ∨ c = 'E' then do
      let (negative, digits) := splitSign rest
      let n ← digitsValue? 10 digits
      return if negative then -(n : Int) else n
    else none
  | [] => none

/-- The number that a word with a fraction or an exponent stands for. -/
def fractional? (word : List Char) : Option Decimal := do
  let (negative, number) := splitSign word
  let whole := number.takeWhile fun c => c.isDigit || c == '_'
  let n ← decimal? whole
  match number.drop whole.length with
  | '.' :: rest =>
    let fraction := rest.takeWhile fun c => c.isDigit || c == '_'
    let tail := rest.drop fraction.length
    let m ← digitsValue? 10 fraction
    let e ← if tail.isEmpty then some 0 else exponent? tail
    let places := fraction.countP Char.isDigit
    return ⟨negative, n * Nat.pow 10 places + m, e - places⟩
  | tail => return ⟨negative, n, ← exponent? tail⟩

/-- Is the word one of the two that stand for no finite number? -/
def isSpecial (word : List Char) : Bool :=
  let name := (splitSign word).2
  name == "inf".toList || name == "nan".toList

/-! ### Dates and times -/

/-- A number of exactly so many digits between two bounds, and the rest of the word. -/
def readField (count low high : Nat) (cs : List Char) : Option (Nat × List Char) :=
  let digits := cs.take count
  if digits.length = count ∧ digits.all Char.isDigit then
    let n := Nat.ofDigitChars 10 digits 0
    if low ≤ n ∧ n ≤ high then some (n, cs.drop count) else none
  else none

/-- The rest of a word after a given character. -/
def expect (c : Char) : List Char → Option (List Char)
  | d :: rest => if c = d then some rest else none
  | [] => none

/-- The number of days of a month. -/
def daysIn (year month : Nat) : Nat :=
  if month = 2 then
    if year % 4 = 0 ∧ (year % 100 ≠ 0 ∨ year % 400 = 0) then 29 else 28
  else if month = 4 ∨ month = 6 ∨ month = 9 ∨ month = 11 then 30
  else 31

/-- The rest of a word after a date. -/
def readDate (cs : List Char) : Option (List Char) := do
  let (year, cs) ← readField 4 0 9999 cs
  let (month, cs) ← readField 2 1 12 (← expect '-' cs)
  let (_, cs) ← readField 2 1 (daysIn year month) (← expect '-' cs)
  return cs

/-- The rest of a word after a time of day, with or without parts of a second. -/
def readTime (cs : List Char) : Option (List Char) := do
  let (_, cs) ← readField 2 0 23 cs
  let (_, cs) ← readField 2 0 59 (← expect ':' cs)
  let (_, cs) ← readField 2 0 60 (← expect ':' cs)
  match cs with
  | '.' :: rest =>
    if (rest.takeWhile Char.isDigit).isEmpty then none else return rest.dropWhile Char.isDigit
  | _ => return cs

/-- Is this nothing, or an offset from universal time? -/
def isOffset : List Char → Bool
  | [] => true
  | ['Z'] => true
  | ['z'] => true
  | sign :: rest =>
    (sign == '+' || sign == '-') &&
      (match readField 2 0 23 rest with
        | some (_, ':' :: rest) =>
          match readField 2 0 59 rest with
          | some (_, rest) => rest.isEmpty
          | none => false
        | _ => false)

/-- Is the word a date, a time, or a date and a time? -/
def isMoment (word : List Char) : Bool :=
  match readDate word with
  | some [] => true
  | some (c :: rest) =>
    (c == 'T' || c == 't' || c == ' ') &&
      (match readTime rest with
        | some rest => isOffset rest
        | none => false)
  | none => readTime word == some []

/-- Can the character belong to a word? -/
def isWordChar (c : Char) : Bool :=
  c.isAlphanum || c == '+' || c == '-' || c == '_' || c == '.' || c == ':'

/-- The value of a word. A number above all of double precision is refused; one below all of them
counts as negative infinity. -/
def wordValue? (word : List Char) : Option Toml :=
  if word = "true".toList then some (.boolean true)
  else if word = "false".toList then some (.boolean false)
  else
    match integer? word, fractional? word with
    | some i, _ => if inRange i then some (.integer i) else none
    | none, some d => if d.overflows ∧ !d.negative then none else some .float
    | none, none =>
      if isSpecial word then some .float else if isMoment word then some .moment else none

/-- A word, and the rest of the text. A date and a time may be two words with a space between. -/
def readWord (cs : List Char) : Option (Toml × List Char) :=
  let word := cs.takeWhile isWordChar
  let rest := cs.drop word.length
  match readDate word, rest with
  | some [], ' ' :: after =>
    let time := after.takeWhile isWordChar
    if isMoment (word ++ ' ' :: time) then some (.moment, after.drop time.length)
    else some (.moment, rest)
  | _, _ => (wordValue? word).map fun v => (v, rest)

end VersionedTree.Toml
