import VersionedTree.Qualifier.Arguments

/-!
# Forms under a condition

Four qualifiers have a condition as their first argument and forms after it. Where the condition
holds for the version at hand the forms take the place of the invocation; elsewhere the slot goes
away. They differ in the condition only:

* `only(set, forms...)` — the version is a member of the set;
* `added(v, forms...)` — the version is `v` or a later one;
* `removed(v, forms...)` — the version is earlier than `v`;
* `feature(flag, forms...)` — the version ships the flag.
-/

namespace VersionedTree.Inclusion

/-- The forms after the first argument where the condition that it states holds; elsewhere the slot
goes away. -/
def includeWhen (usage : String) (test : Context → Node → Except QualifierError Bool)
    (ctx : Context) (args : List Node) : Except QualifierError Expansion := do
  let (condition, forms) ← Arguments.headAndForms usage args
  let holds ← test ctx condition
  return .includeIf holds forms

/-- The members of a set or sequence of versions. -/
def members : Node → Except QualifierError (List Node)
  | .set items => .ok items
  | .sequence items => .ok items
  | other =>
    .error (.invalidArguments ("only expects a set of versions, got `" ++ other.display ++ "`"))

/-- Is the version at hand a member of the set? Members need not be known, but each of them has to
name a version. -/
def isMember (ctx : Context) (set : Node) : Except QualifierError Bool := do
  let versions ← (← members set).mapM Arguments.version
  return versions.any ctx.isAt

/-- Is the version at hand the given one or a later one? -/
def isSince (ctx : Context) (since : Node) : Except QualifierError Bool := do
  let since ← Arguments.knownPosition ctx since
  return decide (since ≤ ctx.position)

/-- Is the version at hand strictly before the given one? -/
def isBefore (ctx : Context) (limit : Node) : Except QualifierError Bool := do
  let limit ← Arguments.knownPosition ctx limit
  return decide (ctx.position < limit)

/-- Does the version at hand ship the flag? -/
def isShipped (m : Manifest) (ctx : Context) (flag : Node) : Except QualifierError Bool := do
  let flag ← Arguments.knownFlag m flag
  return m.isEnabled ctx.version flag

/-- `only(set, forms...)`: the forms for the versions in the set. -/
def only : Context → List Node → Except QualifierError Expansion :=
  includeWhen "only(set, forms...)" isMember

/-- `added(v, forms...)`: the forms at and after `v`. -/
def added : Context → List Node → Except QualifierError Expansion :=
  includeWhen "added(v, forms...)" isSince

/-- `removed(v, forms...)`: the forms strictly before `v`. -/
def removed : Context → List Node → Except QualifierError Expansion :=
  includeWhen "removed(v, forms...)" isBefore

/-- `feature(flag, forms...)`: the forms for the versions that ship the flag. -/
def feature (m : Manifest) : Context → List Node → Except QualifierError Expansion :=
  includeWhen "feature(flag, forms...)" (isShipped m)

end VersionedTree.Inclusion
