import VersionedTree.Qualifier.Basic
import VersionedTree.Tree.Equality

/-!
# Forms and the errors of a resolution

While an invocation is being resolved it stands for a list of forms: nodes, possibly invocations
again, and marks where a qualifier deleted the slot.
-/

namespace VersionedTree

/-- One element of a resolution in progress. -/
inductive Form where
  /-- A node, possibly still an invocation. -/
  | node (n : Node)
  /-- A qualifier deleted the slot here. -/
  | deletion

namespace Form

/-- Forms are compared like their nodes. -/
def same : Form → Form → Bool
  | .node m, .node n => m == n
  | .deletion, .deletion => true
  | _, _ => false

instance : BEq Form := ⟨same⟩

/-- The node, unless the form is a deletion. -/
def node? : Form → Option Node
  | .node n => some n
  | .deletion => none

/-- The text of a form in messages. -/
def display : Form → String
  | .node n => n.display
  | .deletion => "<delete>"

/-- The texts of forms, separated by commas. -/
def displayAll (forms : List Form) : String := Text.commaSeparated (forms.map display)

end Form

/-- A side of a mapping pair. -/
inductive Slot where
  /-- The key. -/
  | key
  /-- The value. -/
  | value
  deriving DecidableEq

/-- The name of a slot. -/
def Slot.name : Slot → String
  | .key => "key"
  | .value => "value"

/-- Why a tree does not resolve for a version. -/
inductive ResolveError where
  /-- A key or value does not resolve to exactly one form. -/
  | multiFormInSlot (slot : Slot) (node : Node) (version : Version) (count : Nat)
  /-- An invocation at the root does not resolve to exactly one node. -/
  | rootMultiplicity (node : Node) (version : Version) (forms : List Form)
  /-- The forms of an invocation still change after the last pass. -/
  | passLimitExceeded (node : Node) (version : Version) (maxPasses : Nat) (lastForms : List Form)
  /-- An invocation has a tag without a qualifier. -/
  | unknownQualifier (tag : Tag) (version : Version)
  /-- A qualifier refuses its arguments. -/
  | qualifier (tag : Tag) (version : Version) (cause : QualifierError)

namespace ResolveError

/-- The version whose resolution failed. -/
def version : ResolveError → Version
  | .multiFormInSlot _ _ version _ => version
  | .rootMultiplicity _ version _ => version
  | .passLimitExceeded _ version _ _ => version
  | .unknownQualifier _ version => version
  | .qualifier _ version _ => version

/-- The wording of an error. -/
def message : ResolveError → String
  | .multiFormInSlot slot node version count =>
    "mapping " ++ slot.name ++ " `" ++ node.display ++ "` resolved to " ++ toString count ++
      " forms for version " ++ version.name ++ ", expected exactly one"
  | .rootMultiplicity node version forms =>
    "root `" ++ node.display ++ "` must resolve to exactly one form for version " ++
      version.name ++ ", got [" ++ Form.displayAll forms ++ "]"
  | .passLimitExceeded node version maxPasses lastForms =>
    "`" ++ node.display ++ "` did not reach a fixed point within " ++ toString maxPasses ++
      " passes for version " ++ version.name ++ " (last forms: [" ++ Form.displayAll lastForms ++
      "])"
  | .unknownQualifier tag version =>
    "no qualifier registered for `" ++ tag.name ++ "` (version " ++ version.name ++ ")"
  | .qualifier tag version cause =>
    "qualifier `" ++ tag.name ++ "` failed for version " ++ version.name ++ ": " ++ cause.message

end ResolveError

end VersionedTree
