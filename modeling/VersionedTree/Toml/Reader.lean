import VersionedTree.Toml.Scalar

/-!
# Reading a TOML document

A document is a list of lines: blank ones, headers, and keys with values; a comment may end any of
them. A value may run over several lines. Arrays and tables between braces may stand in each other
up to a fixed depth, and a key has a bounded number of parts.

Functions that go through the text take its length as fuel, which every step reduces.
-/

namespace VersionedTree.Toml

/-- The number that neither the nesting of arrays and tables between braces nor the parts of a key
may reach. -/
def nestingLimit : Nat := 80

/-- The text after blanks. -/
def skipSpace (cs : List Char) : List Char := cs.dropWhile isSpace

/-- The text after a comment, if one begins here; none if the comment holds a control character. -/
def skipComment : List Char → Option (List Char)
  | '#' :: rest =>
    let comment := rest.takeWhile fun c => c != '\n'
    let body := if comment.getLast? = some '\r' ∧ comment.length < rest.length
      then comment.dropLast else comment
    if body.any isControl then none else some (rest.drop body.length)
  | cs => some cs

/-- The text after blanks, comments and line breaks. -/
def skipBlank : (fuel : Nat) → List Char → Option (List Char)
  | 0, cs => some cs
  | fuel + 1, cs => do
    let cs ← skipComment (skipSpace cs)
    match readBreak cs with
    | some rest => skipBlank fuel rest
    | none => return cs

/-- The text after the end of a line. -/
def endLine (cs : List Char) : Option (List Char) := do
  match ← skipComment (skipSpace cs) with
  | [] => return []
  | cs => readBreak cs

/-- Can the character stand in a key without quotes? -/
def isBare (c : Char) : Bool := c.isAlphanum || c == '-' || c == '_'

/-- One part of a key. -/
def readPart (cs : List Char) : Option (String × List Char) :=
  match cs with
  | '"' :: rest => (readBasic (rest.length + 1) rest).map fun (s, rest) => (String.ofList s, rest)
  | '\x27' :: rest => (readLiteral rest).map fun (s, rest) => (String.ofList s, rest)
  | _ =>
    let bare := cs.takeWhile isBare
    if bare.isEmpty then none else some (String.ofList bare, cs.drop bare.length)

/-- Parts of a key with dots between them. The last part is apart from those before it. -/
def readParts : (fuel : Nat) → List Char → Option ((List String × String) × List Char)
  | 0, _ => none
  | fuel + 1, cs => do
    let (part, cs) ← readPart (skipSpace cs)
    match skipSpace cs with
    | '.' :: rest => do
      let ((path, last), rest) ← readParts fuel rest
      return ((part :: path, last), rest)
    | cs => return (([], part), cs)

/-- A key, as its parts: each leads one table deeper, so they are bounded like nesting is. -/
def readKey (cs : List Char) : Option ((List String × String) × List Char) := do
  let ((path, last), rest) ← readParts cs.length cs
  if nestingLimit ≤ path.length + 1 then none else return ((path, last), rest)

mutual

/-- A value, at a depth of nesting. -/
def readValue : (fuel depth : Nat) → List Char → Option (Toml × List Char)
  | 0, _, _ => none
  | fuel + 1, depth, cs =>
    match cs with
    | '[' :: rest =>
      if nestingLimit ≤ depth + 1 then none
      else do
        let (items, rest) ← readItems fuel (depth + 1) rest
        return (.array items, rest)
    | '\x7b' :: rest =>
      if nestingLimit ≤ depth + 1 then none
      else
        match skipSpace rest with
        | '\x7d' :: rest => some (.inline [], rest)
        | rest => do
          let (entries, rest) ← readEntries fuel (depth + 1) [] rest
          return (.inline entries, rest)
    | '"' :: _ => (readString cs).map fun (s, rest) => (.text s, rest)
    | '\x27' :: _ => (readString cs).map fun (s, rest) => (.text s, rest)
    | _ => readWord cs

/-- The items of an array, up to its closing bracket. A comma may follow the last one. -/
def readItems : (fuel depth : Nat) → List Char → Option (List Toml × List Char)
  | 0, _, _ => none
  | fuel + 1, depth, cs => do
    match ← skipBlank cs.length cs with
    | ']' :: rest => return ([], rest)
    | cs => do
      let (v, rest) ← readValue fuel depth cs
      match ← skipBlank rest.length rest with
      | ',' :: rest => do
        let (vs, rest) ← readItems fuel depth rest
        return (v :: vs, rest)
      | ']' :: rest => return ([v], rest)
      | _ => none

/-- The entries of a table between braces, after those in `entries`. No comma follows the last
one. -/
def readEntries : (fuel depth : Nat) → Entries → List Char → Option (Entries × List Char)
  | 0, _, _, _ => none
  | fuel + 1, depth, entries, cs => do
    let ((path, key), rest) ← readKey cs
    let rest ← expect '=' rest
    let (v, rest) ← readValue fuel depth (skipSpace rest)
    let entries ← defineAt .header entries path key v
    match skipSpace rest with
    | ',' :: rest => readEntries fuel depth entries rest
    | '\x7d' :: rest => return (entries, rest)
    | _ => none

end

/-- A document in progress: its entries, and the path of the last header. -/
structure Progress where
  /-- The entries of the root. -/
  entries : Entries := []
  /-- The table that keys belong to. -/
  current : List String := []

/-- A header, after its first bracket. -/
def readHeader (p : Progress) : List Char → Option (Progress × List Char)
  | '[' :: rest => do
    let ((path, key), rest) ← readKey rest
    let rest ← expect ']' (← expect ']' rest)
    let entries ← edit .implicit (openElement key) path .header p.entries
    return (⟨entries, path ++ [key]⟩, rest)
  | rest => do
    let ((path, key), rest) ← readKey rest
    let rest ← expect ']' rest
    let entries ← edit .implicit (openTable key) path .header p.entries
    return (⟨entries, path ++ [key]⟩, rest)

/-- A key with its value. -/
def readAssignment (p : Progress) (cs : List Char) : Option (Progress × List Char) := do
  let ((path, key), rest) ← readKey cs
  let rest := skipSpace (← expect '=' rest)
  let (v, rest) ← readValue (rest.length + 1) 0 rest
  let entries ← edit .implicit (fun origin entries => defineAt origin entries path key v)
    p.current .header p.entries
  return (⟨entries, p.current⟩, rest)

/-- The lines of a document. -/
def readDocument : (fuel : Nat) → Progress → List Char → Option Entries
  | 0, _, _ => none
  | fuel + 1, p, cs => do
    match ← skipBlank cs.length cs with
    | [] => return p.entries
    | '[' :: rest => do
      let (p, rest) ← readHeader p rest
      readDocument fuel p (← endLine rest)
    | cs => do
      let (p, rest) ← readAssignment p cs
      readDocument fuel p (← endLine rest)

/-- The entries of a document. A byte order mark may stand in front. -/
def read (text : String) : Option Entries :=
  let cs := text.toList
  let cs := if cs.head? = some '\ufeff' then cs.tail else cs
  readDocument (cs.length + 1) {} cs

end VersionedTree.Toml
