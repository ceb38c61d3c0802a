import VersionedTree.Resolution.FixedPoint

/-!
# Resolving a whole tree

A tree is resolved from the root downwards. The slots of a collection are resolved before the walk
descends into what they became, so invocations that an expansion brings in are resolved too.

* A sequence or set splices the forms of its elements and drops deletions.
* A pair of a mapping goes away when one of its slots is deleted; otherwise each slot has to be
  exactly one node. Keys that become equal keep the place of the first and the value of the last.
* An invocation at the root has to become exactly one node.

What the walk descends into is what qualifiers return, which may be any node. The walk therefore
has a bound on its depth, and running into the bound is an outcome of its own, apart from the errors
of a resolution. No bundled qualifier returns a form deeper than its invocation, and then the depth
of the tree is bound enough; `walk` uses that bound, and `walkWithin` takes any other.
-/

namespace VersionedTree

/-- Why a walk gives no tree. -/
inductive WalkError where
  /-- The tree does not resolve. -/
  | resolve (cause : ResolveError)
  /-- Qualifiers returned a tree deeper than the walk was allowed to descend. -/
  | tooDeep (version : Version)

namespace WalkError

/-- The version of the walk. -/
def version : WalkError → Version
  | .resolve cause => cause.version
  | .tooDeep version => version

/-- The wording of an error. -/
def message : WalkError → String
  | .resolve cause => cause.message
  | .tooDeep version => "the tree for version " ++ version.name ++ " is nested too deeply"

end WalkError

namespace Resolver

/-- The stable forms of a node, within a walk. -/
def resolveSlot (r : Resolver) (ctx : Context) (n : Node) : Traced WalkError (List Form) :=
  ExceptT.adapt .resolve (r.resolve ctx n)

/-- Resolve every element and splice the forms, without deletions. -/
def splice (r : Resolver) (ctx : Context) (items : List Node) : Traced WalkError (List Node) := do
  let forms ← items.mapM (r.resolveSlot ctx)
  return forms.flatten.filterMap Form.node?

/-- Resolve one side of a pair: a node, or nothing where it is deleted. -/
def resolveSide (r : Resolver) (ctx : Context) (slot : Slot) (n : Node) :
    Traced WalkError (Option Node) := do
  match ← r.resolveSlot ctx n with
  | [.node m] => return some m
  | [.deletion] => return none
  | forms => throw (.resolve (.multiFormInSlot slot n ctx.version forms.length))

/-- Resolve one pair after the pairs in `built`, with `descend` to resolve what is inside of what a
slot became. -/
def resolvePair (r : Resolver) (ctx : Context) (descend : Node → Traced WalkError Node)
    (built : List (Node × Node)) (pair : Node × Node) : Traced WalkError (List (Node × Node)) := do
  let key ← r.resolveSide ctx .key pair.1
  let value ← r.resolveSide ctx .value pair.2
  match key, value with
  | some key, some value => do
    let key ← descend key
    let value ← descend value
    if Keyed.contains key built then Traced.record (.keysCollided ctx.version)
    return Keyed.insert key value built
  | _, _ => return built

/-- Resolve what is inside of a node in its final slot, descending at most `bound` collections deep.
An invocation here is a stable form and stays. -/
def resolveInside (r : Resolver) (ctx : Context) : (bound : Nat) → Node → Traced WalkError Node
  | _, .scalar value => return .scalar value
  | _, .invocation tag args => return .invocation tag args
  | 0, _ => throw (.tooDeep ctx.version)
  | bound + 1, .sequence items => do
    let items ← r.splice ctx items
    return .sequence (← items.mapM (resolveInside r ctx bound))
  | bound + 1, .set members => do
    let members ← r.splice ctx members
    return .ofMembers (← members.mapM (resolveInside r ctx bound))
  | bound + 1, .mapping pairs => do
    return .mapping (← pairs.foldlM (r.resolvePair ctx (resolveInside r ctx bound)) [])

/-- The node that an invocation at the root becomes. -/
def resolveRoot (r : Resolver) (ctx : Context) (tree : Node) : Traced WalkError Node := do
  match ← r.resolveSlot ctx tree with
  | [.node n] => return n
  | forms => throw (.resolve (.rootMultiplicity tree ctx.version forms))

/-- Resolve a tree for the version of the context, descending at most `bound` collections deep. -/
def walkWithin (r : Resolver) (bound : Nat) (ctx : Context) (tree : Node) :
    Traced WalkError Node := do
  Traced.record (.walking ctx.version)
  if tree.isInvocation then r.resolveInside ctx bound (← r.resolveRoot ctx tree)
  else r.resolveInside ctx bound tree

/-- Resolve a tree for the version of the context. -/
def walk (r : Resolver) (ctx : Context) (tree : Node) : Traced WalkError Node :=
  r.walkWithin tree.depth ctx tree

end Resolver

end VersionedTree
