import VersionedTree.Json.Lexer

/-!
# From tokens to values

A value is read from its tokens by a machine with a stack: the arrays and objects that are open,
innermost first, each with what was read of it. Where a token does not fit, reading stops, and the
open arrays and objects are closed around a `broken` value.
-/

namespace VersionedTree.Json

/-- An array or object that is still open. -/
inductive Frame where
  /-- An array, with the items read so far, last one first. -/
  | array (before : List Json)
  /-- An object, with the fields read so far, last one first, and the name of the field whose value
  is being read. -/
  | object (before : List (List Char × Json)) (name : List Char)

/-- Where the reading of a value stands. The last component is the stack. -/
inductive State where
  /-- A value must follow. -/
  | value (stack : List Frame)
  /-- An array was opened: an item or its end must follow. -/
  | firstItem (stack : List Frame)
  /-- An object was opened: a name or its end must follow. -/
  | firstName (stack : List Frame)
  /-- In an object, after a comma: a name must follow. -/
  | name (before : List (List Char × Json)) (stack : List Frame)
  /-- In an object, after a name: a colon must follow. -/
  | colon (before : List (List Char × Json)) (name : List Char) (stack : List Frame)
  /-- A value is complete. -/
  | after (v : Json) (stack : List Frame)

/-- The state after a token that begins a value; none if it begins no value. -/
def beginValue (stack : List Frame) : Token → Option State
  | .null => some (.after .null stack)
  | .bool value => some (.after (.bool value) stack)
  | .number literal => some (.after (.number literal) stack)
  | .string raw => some (.after (.string raw) stack)
  | .arrayOpen => some (.firstItem stack)
  | .objectOpen => some (.firstName stack)
  | _ => none

/-- The state after a token; none if the token does not fit. -/
def stepToken : State → Token → Option State
  | .value stack, t => beginValue stack t
  | .firstItem stack, .arrayClose => some (.after (.array []) stack)
  | .firstItem stack, t => beginValue (.array [] :: stack) t
  | .firstName stack, .objectClose => some (.after (.object []) stack)
  | .firstName stack, .string raw => some (.colon [] raw stack)
  | .name before stack, .string raw => some (.colon before raw stack)
  | .colon before name stack, .colon => some (.value (.object before name :: stack))
  | .after v (.array before :: stack), .comma => some (.value (.array (v :: before) :: stack))
  | .after v (.array before :: stack), .arrayClose =>
    some (.after (.array (before.reverse ++ [v])) stack)
  | .after v (.object before name :: stack), .comma => some (.name ((name, v) :: before) stack)
  | .after v (.object before name :: stack), .objectClose =>
    some (.after (.object (before.reverse ++ [(name, v)])) stack)
  | _, _ => none

/-- Close what is open around a value. -/
def close (v : Json) : List Frame → Json
  | [] => v
  | .array before :: stack => close (.array (before.reverse ++ [v])) stack
  | .object before name :: stack => close (.object (before.reverse ++ [(name, v)])) stack

/-- The value of a text that is at fault in this state. A fault where a name is expected is a field
without a name. -/
def breakOff : State → Json
  | .value stack => close .broken stack
  | .firstItem stack => close .broken (.array [] :: stack)
  | .firstName stack => close .broken (.object [] [] :: stack)
  | .name before stack => close .broken (.object before [] :: stack)
  | .colon before name stack => close .broken (.object before name :: stack)
  | .after v [] => v
  | .after v (.array before :: stack) => close .broken (.array (v :: before) :: stack)
  | .after v (.object before name :: stack) =>
    close .broken (.object ((name, v) :: before) [] :: stack)

/-- A text as it was read. -/
structure Document where
  /-- Its value, complete up to the first fault. -/
  value : Json
  /-- The text holds this value and nothing more. -/
  ends : Bool

/-- Read tokens from a state on. -/
def run : State → List Token → Document
  | .after v [], [] => ⟨v, true⟩
  | state, [] => ⟨breakOff state, false⟩
  | state, t :: rest =>
    match stepToken state t with
    | some next => run next rest
    | none => ⟨breakOff state, false⟩

/-- Read a text. -/
def read (text : String) : Document := run (.value []) (lex .gap text.toList)

end VersionedTree.Json
