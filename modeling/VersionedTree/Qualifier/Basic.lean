import VersionedTree.Log.Logged
import VersionedTree.Version.Context
import VersionedTree.Collection.Table

/-!
# Qualifiers

A qualifier is what an invocation stands for: a function that expands the arguments, for the version
at hand, into any number of forms, or deletes the slot. A registry binds qualifiers to tags.

A qualifier may record events, and it may refuse its arguments.
-/

namespace VersionedTree

/-- What an invocation expands into. -/
inductive Expansion where
  /-- Forms that take the place of the invocation. -/
  | forms (nodes : List Node)
  /-- The slot goes away. -/
  | delete

namespace Expansion

/-- Exactly one form. -/
abbrev single (n : Node) : Expansion := .forms [n]

/-- The forms if the condition holds; otherwise the slot goes away. -/
def includeIf (condition : Bool) (nodes : List Node) : Expansion :=
  if condition then .forms nodes else .delete

end Expansion

/-- Why a qualifier refuses its arguments. -/
inductive QualifierError where
  /-- The clauses of a `switch` do not name exactly the known versions. -/
  | mismatchedSwitch (missing unexpected repeated : List Version)
  /-- A version is named that is not known. -/
  | unknownVersion (version : Version) (known : List Version)
  /-- A feature flag is named that no version ships. -/
  | unknownFeature (flag : String)
  /-- The number or the shape of the arguments is wrong. -/
  | invalidArguments (reason : String)
  deriving DecidableEq

/-- The wording of an error. -/
def QualifierError.message : QualifierError → String
  | .mismatchedSwitch missing unexpected repeated =>
    "switch must cover exactly the known versions (missing: " ++ Version.names missing ++
      ", unexpected: " ++ Version.names unexpected ++
      ", repeated: " ++ Version.names repeated ++ ")"
  | .unknownVersion version known =>
    "unknown version referenced: " ++ version.name ++ " (known: " ++ Version.names known ++ ")"
  | .unknownFeature flag => "unknown feature flag: " ++ flag
  | .invalidArguments reason => "invalid arguments: " ++ reason

/-- A function from the context and the arguments to an expansion. -/
abbrev Qualifier := Context → List Node → Traced QualifierError Expansion

/-- Qualifiers by tag. -/
abbrev Registry := Table Tag Qualifier

namespace Registry

/-- Bind a qualifier to a tag. A qualifier that was bound to it is replaced, and that is
recorded. -/
def register (r : Registry) (tag : Tag) (q : Qualifier) : Logged Registry := do
  if r.contains tag then Logged.record (.overridden tag)
  return r.insert tag q

/-- Is the node the invocation of a registered tag? -/
def isInvocation (r : Registry) : Node → Bool
  | .invocation tag _ => r.contains tag
  | _ => false

/-- The names of the registered tags in ascending order. -/
def tagNames (r : Registry) : List String :=
  (r.keys.map Tag.name).mergeSort fun a b => decide (a ≤ b)

/-- A line that lists the registered tags. -/
def describe (r : Registry) : String :=
  "QualifierRegistry \x7b tags: [" ++
    Text.commaSeparated (r.tagNames.map fun name => "Tag(" ++ Text.quoted name ++ ")") ++ "] \x7d"

end Registry

end VersionedTree
