/-!
# TOML values and tables

A document is a table whose entries stand in the order in which they were first written. A table can
come into being in three ways, and the way decides what may be added to it later:

* a header `[a.b]` makes the table `a.b`, and may make it only once; tables on the way to it come
  into being with it, and may get a header of their own later;
* a dotted key `a.b = 1` makes the table `a`, which further dotted keys may extend and which never
  gets a header;
* a header `[[a]]` adds a table to the list `a`, and the last table of the list is the one that
  later headers lead into.

Nothing is added to a value, nor to a table written between braces.
-/

namespace VersionedTree

/-- How a table came into being. -/
inductive Toml.Origin where
  /-- On the way to the table of a header. -/
  | implicit
  /-- On the way to the value of a dotted key. -/
  | dotted
  /-- By a header of its own, or as the root. -/
  | header
  deriving DecidableEq

/-- A value of a document. -/
inductive Toml where
  /-- A string. -/
  | text (value : String)
  /-- An integer. -/
  | integer (value : Int)
  /-- A truth value. -/
  | boolean (value : Bool)
  /-- A number that is no integer, or none at all. -/
  | float
  /-- A date, a time, or both. -/
  | moment
  /-- An array. -/
  | array (items : List Toml)
  /-- A table between braces. -/
  | inline (entries : List (String × Toml))
  /-- A table that may still grow. -/
  | table (origin : Toml.Origin) (entries : List (String × Toml))
  /-- A list of tables, the last of which may still grow. -/
  | tables (elements : List (List (String × Toml)))

namespace Toml

/-- The entries of a table, in order. -/
abbrev Entries := List (String × Toml)

/-- Put a value under a key: in place of the value there, or at the end. -/
def put (key : String) (v : Toml) : Entries → Entries
  | [] => [(key, v)]
  | (k, old) :: rest => if key = k then (k, v) :: rest else (k, old) :: put key v rest

/-- Change the table at the end of a path, making the tables on the way that do not exist. `made` is
how they come into being. Dotted keys do not lead into a table that has a header. -/
def edit (made : Origin) (change : Origin → Entries → Option Entries) :
    List String → Origin → Entries → Option Entries
  | [], origin, entries => change origin entries
  | key :: path, _, entries =>
    match entries.lookup key with
    | none => do
      let inner ← edit made change path made []
      return put key (.table made inner) entries
    | some (.table origin inner) =>
      if made = .dotted ∧ origin = .header then none
      else do
        let inner ← edit made change path origin inner
        return put key (.table origin inner) entries
    | some (.tables elements) => do
      let last ← elements.getLast?
      let last ← edit made change path .header last
      return put key (.tables (elements.dropLast ++ [last])) entries
    | some _ => none

/-- Add a value under a new key of a table. A dotted key needs a table of dotted keys. -/
def define (isDotted : Bool) (key : String) (v : Toml) (origin : Origin) (entries : Entries) :
    Option Entries :=
  if isDotted ∧ origin ≠ .dotted then none
  else if (entries.lookup key).isSome then none
  else some (entries ++ [(key, v)])

/-- Add a value under a key, which may be dotted, to a table. -/
def defineAt (origin : Origin) (entries : Entries) (path : List String) (key : String) (v : Toml) :
    Option Entries :=
  edit .dotted (define (!path.isEmpty) key v) path origin entries

/-- Give a table its header, in the table that holds it. -/
def openTable (key : String) (_ : Origin) (entries : Entries) : Option Entries :=
  match entries.lookup key with
  | none => some (entries ++ [(key, .table .header [])])
  | some (.table .implicit inner) => some (put key (.table .header inner) entries)
  | some _ => none

/-- Add a table to a list of tables, in the table that holds the list. -/
def openElement (key : String) (_ : Origin) (entries : Entries) : Option Entries :=
  match entries.lookup key with
  | none => some (entries ++ [(key, .tables [[]])])
  | some (.tables elements) => some (put key (.tables (elements ++ [[]])) entries)
  | some _ => none

end Toml

end VersionedTree
