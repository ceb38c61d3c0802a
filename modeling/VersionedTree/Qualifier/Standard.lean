import VersionedTree.Qualifier.Inclusion
import VersionedTree.Qualifier.ChangeLog
import VersionedTree.Qualifier.Switch
import VersionedTree.Qualifier.FeatureCase

/-!
# The bundled qualifiers

| Tag | Expands to |
|---|---|
| `only(set, forms...)` | the forms, for the versions in the set |
| `added(v, forms...)` | the forms, at and after `v` |
| `removed(v, forms...)` | the forms, strictly before `v` |
| `switch({v: form, ...})` | the form of the version; the keys are exactly the known versions |
| `changed(base, v1, f1, ...)` | the form in force at the version, else the base |
| `feature(flag, forms...)` | the forms, for the versions that ship the flag |
| `feature-case(cond, form, ..., [default])` | the first form whose condition holds |

The first five look at versions alone. The last two look at a manifest and are registered where one
is given.
-/

namespace VersionedTree.Standard

/-- The tag of `only`. -/
def onlyTag : Tag := ⟨"only"⟩

/-- The tag of `added`. -/
def addedTag : Tag := ⟨"added"⟩

/-- The tag of `removed`. -/
def removedTag : Tag := ⟨"removed"⟩

/-- The tag of `switch`. -/
def switchTag : Tag := ⟨"switch"⟩

/-- The tag of `changed`. -/
def changedTag : Tag := ⟨"changed"⟩

/-- The tag of `feature`. -/
def featureTag : Tag := ⟨"feature"⟩

/-- The tag of `feature-case`. -/
def featureCaseTag : Tag := ⟨"feature-case"⟩

/-- The tags of the bundled qualifiers. -/
def tags : List Tag :=
  [onlyTag, addedTag, removedTag, switchTag, changedTag, featureTag, featureCaseTag]

/-- `only` as a qualifier. -/
def only : Qualifier := .silent Inclusion.only

/-- `added` as a qualifier. -/
def added : Qualifier := .silent Inclusion.added

/-- `removed` as a qualifier. -/
def removed : Qualifier := .silent Inclusion.removed

/-- `switch` as a qualifier. -/
def switch : Qualifier := .silent Switch.switch

/-- `changed` as a qualifier. -/
def changed : Qualifier := .silent ChangeLog.changed

/-- `feature` as a qualifier, over a manifest. -/
def feature (m : Manifest) : Qualifier := .silent (Inclusion.feature m)

/-- `feature-case` as a qualifier, over a manifest. -/
def featureCase (m : Manifest) : Qualifier := FeatureCase.featureCase m

/-- Register the qualifiers that look at versions alone. -/
def registerVersionPolicies (r : Registry) : Logged Registry := do
  let r ← r.register onlyTag only
  let r ← r.register addedTag added
  let r ← r.register removedTag removed
  let r ← r.register switchTag switch
  let r ← r.register changedTag changed
  Logged.record (.versionPoliciesRegistered 5)
  return r

/-- Register the qualifiers that look at a manifest. -/
def registerFeaturePolicies (m : Manifest) (r : Registry) : Logged Registry := do
  let r ← r.register featureTag (feature m)
  let r ← r.register featureCaseTag (featureCase m)
  Logged.record (.featurePoliciesRegistered m.size m.knownFlags.length)
  return r

/-- Register all bundled qualifiers; those that look at a manifest only where one is given. -/
def register (m? : Option Manifest) (r : Registry) : Logged Registry := do
  let r ← registerVersionPolicies r
  match m? with
  | some m => registerFeaturePolicies m r
  | none => return r

/-- A registry of the bundled qualifiers and no others. -/
def registry (m? : Option Manifest) : Logged Registry := register m? ∅

end VersionedTree.Standard
