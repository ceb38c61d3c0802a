import VersionedTree.Resolution.FixedPoint

/-!
# Settings of a compilation

The limit on the passes over one node, and whether versions may be resolved side by side. A limit of
zero would refuse every invocation and is not accepted.
-/

namespace VersionedTree

/-- The settings of a compilation. -/
structure Settings where
  /-- The limit on the passes over one node. -/
  maxPasses : Nat := 10
  /-- May versions be resolved side by side? Where all of them resolve, the outcome is the same. -/
  parallel : Bool := false
  deriving DecidableEq

/-- Why settings cannot be used. -/
inductive SettingsError where
  /-- The text is no TOML document of settings. -/
  | toml
  /-- The text is no JSON document of settings. -/
  | json
  /-- A value is out of range. -/
  | invalidValue (field reason : String)
  deriving DecidableEq

/-- The wording of an error. -/
def SettingsError.message : SettingsError → String
  | .toml => "invalid TOML config"
  | .json => "invalid JSON config"
  | .invalidValue field reason => "invalid config value for `" ++ field ++ "`: " ++ reason

/-- Accept settings that can be used. -/
def Settings.validate (s : Settings) : Except SettingsError Settings :=
  if s.maxPasses = 0 then .error (.invalidValue "max_passes" "must be at least 1") else .ok s

end VersionedTree
