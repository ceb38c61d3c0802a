/-!
# JSON values

A JSON value keeps its numbers and strings as they are written: the literal of a number, and the
characters between the quotes of a string with their escapes. What they mean is decided where a
value is used, which lets a value that nobody uses be skipped without being understood.

A text can break off or go wrong in the middle. Its value is then complete up to that place and
holds `broken` there, so that whoever takes the value apart from left to right meets the faults of
the text and the faults of the content in the order in which they stand in the text.

## The model

A value is written as a list of tokens without spaces (`Json.tokens`), and the text is the text of
the tokens one after the other (`Json.render`).
-/

namespace VersionedTree

/-- A JSON value, complete up to the place where its text is at fault. -/
inductive Json where
  /-- The literal `null`. -/
  | null
  /-- The literals `true` and `false`. -/
  | bool (value : Bool)
  /-- A number, as written. -/
  | number (literal : List Char)
  /-- A string: the characters between its quotes, as written. -/
  | string (raw : List Char)
  /-- An array. -/
  | array (items : List Json)
  /-- An object: its fields in order, each with its name as written. -/
  | object (fields : List (List Char × Json))
  /-- The text is at fault here, and nothing after this place was read. -/
  | broken

namespace Json

/-- The smallest units of a text. -/
inductive Token where
  /-- An opening bracket. -/
  | arrayOpen
  /-- A closing bracket. -/
  | arrayClose
  /-- An opening brace. -/
  | objectOpen
  /-- A closing brace. -/
  | objectClose
  /-- A comma. -/
  | comma
  /-- A colon. -/
  | colon
  /-- The literal `null`. -/
  | null
  /-- The literals `true` and `false`. -/
  | bool (value : Bool)
  /-- A number, as written. -/
  | number (literal : List Char)
  /-- A string: the characters between its quotes, as written. -/
  | string (raw : List Char)
  /-- Characters that form no token. -/
  | bad
  deriving DecidableEq

/-- The text of a token. -/
def Token.text : Token → List Char
  | .arrayOpen => ['[']
  | .arrayClose => [']']
  | .objectOpen => ['\x7b']
  | .objectClose => ['\x7d']
  | .comma => [',']
  | .colon => [':']
  | .null => "null".toList
  | .bool true => "true".toList
  | .bool false => "false".toList
  | .number literal => literal
  | .string raw => '"' :: raw ++ ['"']
  | .bad => []

mutual

/-- The tokens of a value. -/
def tokens : Json → List Token
  | .null => [.null]
  | .bool value => [.bool value]
  | .number literal => [.number literal]
  | .string raw => [.string raw]
  | .array [] => [.arrayOpen, .arrayClose]
  | .array (v :: rest) => .arrayOpen :: v.tokens ++ itemTokens rest ++ [.arrayClose]
  | .object [] => [.objectOpen, .objectClose]
  | .object ((name, v) :: rest) =>
    .objectOpen :: .string name :: .colon :: v.tokens ++ fieldTokens rest ++ [.objectClose]
  | .broken => [.bad]

/-- The items after the first, each after a comma. -/
def itemTokens : List Json → List Token
  | [] => []
  | v :: rest => .comma :: v.tokens ++ itemTokens rest

/-- The fields after the first, each after a comma. -/
def fieldTokens : List (List Char × Json) → List Token
  | [] => []
  | (name, v) :: rest => .comma :: .string name :: .colon :: v.tokens ++ fieldTokens rest

end

/-- The text of a value. -/
def render (v : Json) : String := String.ofList (v.tokens.flatMap Token.text)

mutual

/-- Is the value free of faults? -/
def intact : Json → Bool
  | .array items => allIntact items
  | .object fields => fieldsIntact fields
  | .broken => false
  | _ => true

/-- Are all items free of faults? -/
def allIntact : List Json → Bool
  | [] => true
  | v :: rest => v.intact && allIntact rest

/-- Are all fields free of faults? -/
def fieldsIntact : List (List Char × Json) → Bool
  | [] => true
  | (_, v) :: rest => v.intact && fieldsIntact rest

end

mutual

/-- The greatest number of arrays and objects that are open at one place of the text. -/
def nesting : Json → Nat
  | .array items => itemsNesting items + 1
  | .object fields => fieldsNesting fields + 1
  | _ => 0

/-- The nesting of the deepest item. -/
def itemsNesting : List Json → Nat
  | [] => 0
  | v :: rest => max v.nesting (itemsNesting rest)

/-- The nesting of the deepest field. -/
def fieldsNesting : List (List Char × Json) → Nat
  | [] => 0
  | (_, v) :: rest => max v.nesting (fieldsNesting rest)

end

end Json

end VersionedTree
