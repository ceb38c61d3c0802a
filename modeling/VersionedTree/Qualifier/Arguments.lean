import VersionedTree.Qualifier.Basic
import VersionedTree.Version.Manifest

/-!
# Reading arguments

What the bundled qualifiers share in reading their arguments: the first argument and the forms
after it, versions with or without a place among the known ones, feature flags, and clauses that
stand in pairs.
-/

namespace VersionedTree

namespace Qualifier

/-- A qualifier that records nothing. -/
def silent (f : Context → List Node → Except QualifierError Expansion) : Qualifier :=
  fun ctx args => ExceptT.mk (pure (f ctx args))

end Qualifier

namespace Arguments

/-- The first argument and the forms after it. -/
def headAndForms (usage : String) : List Node → Except QualifierError (Node × List Node)
  | [] => .error (.invalidArguments ("expected " ++ usage))
  | head :: forms => .ok (head, forms)

/-- The version that an argument names, known or not. -/
def version (n : Node) : Except QualifierError Version :=
  match Version.ofNode? n with
  | some v => .ok v
  | none => .error (.invalidArguments ("`" ++ n.display ++ "` is not a version identifier"))

/-- The place of the version that an argument names. -/
def knownPosition (ctx : Context) (n : Node) : Except QualifierError Nat := do
  let v ← version n
  match ctx.position? v with
  | some position => .ok position
  | none => .error (.unknownVersion v ctx.known.toList)

/-- The flag that an argument names, which some version has to ship. -/
def knownFlag (m : Manifest) (n : Node) : Except QualifierError String :=
  match n.text? with
  | none => .error (.invalidArguments ("`" ++ n.display ++ "` is not a feature flag"))
  | some flag => if m.isKnownFlag flag then .ok flag else .error (.unknownFeature flag)

/-- The arguments two by two, and the odd one at the end if there is one. -/
def inPairs : List Node → List (Node × Node) × Option Node
  | a :: b :: rest => ((a, b) :: (inPairs rest).1, (inPairs rest).2)
  | [a] => ([], some a)
  | [] => ([], none)

end Arguments

end VersionedTree
