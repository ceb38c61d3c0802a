import VersionedTree.Compilation.Settings
import VersionedTree.Dispatch.Consistency
import VersionedTree.Resolution.Walk

/-!
# Failures and their kinds

The failures of a compilation, and the closed list of kinds into which all failures of the library
fall. Callers tell failures apart by kind and not by wording.
-/

namespace VersionedTree

/-- Why a compilation fails. -/
inductive CompileError where
  /-- There are no versions to compile for. -/
  | emptyVersionSet (selector : String)
  /-- A tree was asked for at a version that is not known. -/
  | versionNotKnown (version : Version) (known : List Version)
  /-- The walk fails for some version. -/
  | walk (cause : WalkError)
  /-- The settings cannot be used. -/
  | settings (cause : SettingsError)

/-- The wording of an error. -/
def CompileError.message : CompileError → String
  | .emptyVersionSet selector => "selector `" ++ selector ++ "` has no known versions"
  | .versionNotKnown version known =>
    "version " ++ version.name ++ " is not one of the known versions " ++ Version.names known
  | .walk cause => "resolution failed: " ++ cause.message
  | .settings cause => "configuration error: " ++ cause.message

/-- The kinds of failures. -/
inductive ErrorKind where
  /-- A key or value does not resolve to exactly one form. -/
  | multiFormInSlot
  /-- An invocation at the root does not resolve to exactly one node. -/
  | rootMultiplicity
  /-- The forms of an invocation do not settle. -/
  | passLimitExceeded
  /-- The clauses of a `switch` do not name exactly the known versions. -/
  | mismatchedSwitch
  /-- A version is named that is not known. -/
  | unknownVersion
  /-- A feature flag is named that no version ships. -/
  | unknownFeature
  /-- No version is bound at run time, or an unknown one. -/
  | unboundVersion
  /-- A tag has no qualifier. -/
  | unknownQualifier
  /-- A qualifier refuses the shape of its arguments. -/
  | invalidArguments
  /-- There are no versions to compile for. -/
  | emptyVersionSet
  /-- A version is listed twice. -/
  | duplicateVersion
  /-- The settings cannot be used. -/
  | invalidSettings
  /-- A table is inconsistent. -/
  | invalidDispatch
  /-- A walk runs into its bound. -/
  | tooDeep
  deriving DecidableEq

/-- The kind of an error of a qualifier. -/
def QualifierError.kind : QualifierError → ErrorKind
  | .mismatchedSwitch _ _ _ => .mismatchedSwitch
  | .unknownVersion _ _ => .unknownVersion
  | .unknownFeature _ => .unknownFeature
  | .invalidArguments _ => .invalidArguments

/-- The kind of an error of a resolution; a qualifier that refuses its arguments gives the kind. -/
def ResolveError.kind : ResolveError → ErrorKind
  | .multiFormInSlot _ _ _ _ => .multiFormInSlot
  | .rootMultiplicity _ _ _ => .rootMultiplicity
  | .passLimitExceeded _ _ _ _ => .passLimitExceeded
  | .unknownQualifier _ _ => .unknownQualifier
  | .qualifier _ _ cause => cause.kind

/-- The kind of an error of a walk. -/
def WalkError.kind : WalkError → ErrorKind
  | .resolve cause => cause.kind
  | .tooDeep _ => .tooDeep

/-- The kind of an error of a compilation. -/
def CompileError.kind : CompileError → ErrorKind
  | .emptyVersionSet _ => .emptyVersionSet
  | .versionNotKnown _ _ => .unknownVersion
  | .walk cause => cause.kind
  | .settings _ => .invalidSettings

/-- The kind of a failed selection. -/
def SelectionError.kind (_ : SelectionError) : ErrorKind := .unboundVersion

/-- The kind of a repeated version. -/
def DuplicateVersion.kind (_ : DuplicateVersion) : ErrorKind := .duplicateVersion

/-- The kind of a fault in a table. -/
def DispatchFault.kind (_ : DispatchFault) : ErrorKind := .invalidDispatch

end VersionedTree
