import VersionedTree.Resolution.Form

/-!
# Resolving one node

An invocation is expanded again and again: a pass replaces every invocation among the forms by what
its qualifier gives, and keeps the other forms. When a pass changes nothing the forms are stable and
are the answer. The number of passes is limited, so a qualifier that never settles is reported and
not followed for ever.
-/

namespace VersionedTree

/-- The qualifiers to expand with, and the limit on the passes over one node. -/
structure Resolver where
  /-- The qualifiers by tag. -/
  registry : Registry
  /-- The number of the last pass that may find the forms stable, counted from zero. -/
  maxPasses : Nat := 10

namespace Resolver

/-- Expand one form once. -/
def expandForm (r : Resolver) (ctx : Context) : Form → Traced ResolveError (List Form)
  | .node (.invocation tag args) =>
    match r.registry.get? tag with
    | none => throw (.unknownQualifier tag ctx.version)
    | some q => do
      match ← ExceptT.adapt (.qualifier tag ctx.version) (q ctx args) with
      | .forms nodes => return nodes.map .node
      | .delete => return [.deletion]
  | form => return [form]

/-- One pass: expand every form once, in order. -/
def pass (r : Resolver) (ctx : Context) (forms : List Form) : Traced ResolveError (List Form) := do
  let expanded ← forms.mapM (r.expandForm ctx)
  return expanded.flatten

/-- Pass over the forms until they are stable, at most `left` times; `done` counts the passes so
far and `start` is the node that is being resolved. -/
def settle (r : Resolver) (ctx : Context) (start : Node) :
    (left done : Nat) → List Form → Traced ResolveError (List Form)
  | 0, _, forms => throw (.passLimitExceeded start ctx.version r.maxPasses forms)
  | left + 1, done, forms => do
    let next ← r.pass ctx forms
    if next == forms then
      Traced.record (.settled ctx.version done forms.length)
      return forms
    else settle r ctx start left (done + 1) next

/-- The stable forms of a node. A node that is no invocation stands for itself. -/
def resolve (r : Resolver) (ctx : Context) (n : Node) : Traced ResolveError (List Form) :=
  if n.isInvocation then r.settle ctx n (r.maxPasses + 1) 0 [.node n]
  else return [.node n]

end Resolver

end VersionedTree
