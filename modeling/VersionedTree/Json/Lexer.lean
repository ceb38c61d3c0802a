import VersionedTree.Json.Value
import VersionedTree.Json.Text
import VersionedTree.Json.Number

/-!
# From text to tokens

The text is read one character at a time by a machine with three modes: between tokens, inside a
string, and inside a word. A word is a longest run of characters that are no blank, no punctuation
and no quote; it is a literal, a number, or no token at all.
-/

namespace VersionedTree.Json

/-- Where the reading of a text stands. -/
inductive Mode where
  /-- Between two tokens. -/
  | gap
  /-- Inside a string, with its characters so far, last one first; `escaped` says that the last one
  is a backslash that begins an escape. -/
  | string (seen : List Char) (escaped : Bool)
  /-- Inside a word, with its characters so far, last one first. -/
  | word (seen : List Char)
  deriving DecidableEq

/-- The four characters that may stand between tokens. -/
def isBlank (c : Char) : Bool := c == ' ' || c == '\t' || c == '\n' || c == '\r'

/-- The token of a punctuation character. -/
def punctuation? (c : Char) : Option Token :=
  if c = '[' then some .arrayOpen
  else if c = ']' then some .arrayClose
  else if c = '\x7b' then some .objectOpen
  else if c = '\x7d' then some .objectClose
  else if c = ',' then some .comma
  else if c = ':' then some .colon
  else none

/-- The token that a word forms. -/
def wordToken (cs : List Char) : Token :=
  if cs = "null".toList then .null
  else if cs = "true".toList then .bool true
  else if cs = "false".toList then .bool false
  else if isNumber cs then .number cs
  else .bad

/-- The token of a closed string. -/
def stringToken (raw : List Char) : Token :=
  match codes? raw with
  | some _ => .string raw
  | none => .bad

/-- A character between tokens: the token it is by itself, and the mode after it. -/
def startToken (c : Char) : List Token × Mode :=
  if isBlank c then ([], .gap)
  else if c = '"' then ([], .string [] false)
  else
    match punctuation? c with
    | some token => ([token], .gap)
    | none => ([], .word [c])

/-- Does the character end a word? -/
def endsWord (c : Char) : Bool := isBlank c || c == '"' || (punctuation? c).isSome

/-- One character: the tokens it completes, and the mode after it. -/
def stepChar : Mode → Char → List Token × Mode
  | .gap, c => startToken c
  | .string seen true, c => ([], .string (c :: seen) false)
  | .string seen false, c =>
    if c = '"' then ([stringToken seen.reverse], .gap)
    else ([], .string (c :: seen) (c = '\\'))
  | .word seen, c =>
    if endsWord c then (wordToken seen.reverse :: (startToken c).1, (startToken c).2)
    else ([], .word (c :: seen))

/-- The tokens that the end of the text completes. -/
def lastTokens : Mode → List Token
  | .gap => []
  | .string _ _ => [.bad]
  | .word seen => [wordToken seen.reverse]

/-- The tokens of a text. -/
def lex : Mode → List Char → List Token
  | mode, [] => lastTokens mode
  | mode, c :: rest => (stepChar mode c).1 ++ lex (stepChar mode c).2 rest

end VersionedTree.Json
