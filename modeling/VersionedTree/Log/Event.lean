import VersionedTree.Version.Basic

/-!
# Events

What happens while qualifiers are registered and trees are compiled is recorded as events. An event
carries what it is about; its level, its wording and its fields as text are functions of it.
-/

namespace VersionedTree

/-- How much an event matters. -/
inductive Level where
  /-- Steps of a single resolution. -/
  | trace
  /-- Registrations and walks. -/
  | debug
  /-- Compilations. -/
  | info
  /-- Something the author of a tree should look at. -/
  | warn
  deriving DecidableEq

/-- The name of a level. -/
def Level.name : Level → String
  | .trace => "TRACE"
  | .debug => "DEBUG"
  | .info => "INFO"
  | .warn => "WARN"

/-- Something that happened. -/
inductive Event where
  /-- A qualifier took the place of another one under the same tag. -/
  | overridden (tag : Tag)
  /-- The qualifiers that look at versions alone were registered. -/
  | versionPoliciesRegistered (count : Nat)
  /-- The qualifiers that look at feature flags were registered. -/
  | featurePoliciesRegistered (versions flags : Nat)
  /-- A compilation began. -/
  | compiling (selector : String) (versions : Nat) (parallel : Bool)
  /-- The walk of a tree began. -/
  | walking (version : Version)
  /-- A pass over the forms of an invocation changed nothing. -/
  | settled (version : Version) (pass forms : Nat)
  /-- Two keys of a mapping became equal, and the later pair replaced the value of the earlier. -/
  | keysCollided (version : Version)
  /-- A condition lists its flags as a sequence, where a set is expected. -/
  | flagSequence (condition : String)
  /-- All versions have the same tree, and no table is needed. -/
  | dispatchElided (selector : String)
  /-- A table was built. -/
  | dispatchBuilt (selector : String) (versions groups : Nat)
  deriving DecidableEq

namespace Event

/-- How much the event matters. -/
def level : Event → Level
  | .overridden _ | .versionPoliciesRegistered _ | .featurePoliciesRegistered _ _ | .walking _ =>
    .debug
  | .compiling _ _ _ | .dispatchElided _ | .dispatchBuilt _ _ _ => .info
  | .settled _ _ _ => .trace
  | .keysCollided _ | .flagSequence _ => .warn

/-- The wording of the event. -/
def message : Event → String
  | .overridden _ => "qualifier registration overrides an earlier one"
  | .versionPoliciesRegistered _ => "registered version policies"
  | .featurePoliciesRegistered _ _ => "registered feature policies"
  | .compiling _ _ _ => "compiling version-qualified tree"
  | .walking _ => "walking tree"
  | .settled _ _ _ => "fixed point reached"
  | .keysCollided _ => "mapping keys collided after resolution; the later pair wins"
  | .flagSequence _ =>
    "feature-case flag lists as sequences are deprecated; use a set of flags"
  | .dispatchElided _ => "all versions agree; dispatch elided"
  | .dispatchBuilt _ _ _ => "built version dispatch"

/-- What the event is about, field by field. -/
def fields : Event → List (String × String)
  | .overridden tag => [("tag", tag.name)]
  | .versionPoliciesRegistered count => [("count", toString count)]
  | .featurePoliciesRegistered versions flags =>
    [("versions", toString versions), ("flags", toString flags)]
  | .compiling selector versions parallel =>
    [("selector", selector), ("versions", toString versions), ("parallel", toString parallel)]
  | .walking version => [("version", version.name)]
  | .settled version pass forms =>
    [("version", version.name), ("pass", toString pass), ("forms", toString forms)]
  | .keysCollided version => [("version", version.name)]
  | .flagSequence condition => [("condition", condition)]
  | .dispatchElided selector => [("selector", selector)]
  | .dispatchBuilt selector versions groups =>
    [("selector", selector), ("versions", toString versions), ("groups", toString groups)]

end Event

end VersionedTree
