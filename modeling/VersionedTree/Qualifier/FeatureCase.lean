import VersionedTree.Qualifier.Arguments

/-!
# The first clause that holds

`feature-case(cond1, f1, cond2, f2, ..., [default])` stands for the form of the first clause whose
condition holds, else for the default, and without a default the slot goes away. A condition is one
flag, or a set of flags of which one has to be shipped. A sequence of flags is read like a set, and
recorded as out of date.

Every flag of every condition has to be known, also after a clause that holds.
-/

namespace VersionedTree.FeatureCase

/-- The flags of a condition. -/
def flags : Node → List Node
  | .set items => items
  | .sequence items => items
  | flag => [flag]

/-- Does one of the flags belong to the version at hand? All of them have to be known. -/
def anyEnabled (m : Manifest) (ctx : Context) (flags : List Node) : Except QualifierError Bool := do
  let names ← flags.mapM (Arguments.knownFlag m)
  return names.any (m.isEnabled ctx.version)

/-- Does the condition hold? -/
def holds (m : Manifest) (ctx : Context) (condition : Node) : Traced QualifierError Bool := do
  if let .sequence _ := condition then Traced.record (.flagSequence condition.display)
  ExceptT.mk (pure (anyEnabled m ctx (flags condition)))

/-- `feature-case(cond, form, ..., [default])`: the form of the first clause that holds. -/
def featureCase (m : Manifest) : Qualifier := fun ctx args => do
  let (clauses, default?) := Arguments.inPairs args
  let judged ← clauses.mapM fun clause => do
    let held ← holds m ctx clause.1
    return (held, clause.2)
  match (judged.find? Prod.fst).map Prod.snd <|> default? with
  | some form => return .single form
  | none => return .delete

end VersionedTree.FeatureCase
