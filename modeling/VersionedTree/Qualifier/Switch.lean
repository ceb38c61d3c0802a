import VersionedTree.Qualifier.Arguments

/-!
# A form for every version

`switch({v: f, ...})` stands for the form under the version at hand. The keys have to name exactly
the known versions, each once; keys that spell a version in two ways name it twice. A mapping that
does not fit is refused for every version, also for those that have a clause.
-/

namespace VersionedTree.Switch

/-- The versions that occur again after their first occurrence, each once, in the order of the
second occurrences; `seen` occurs before the list, and `reported` has been listed. -/
def repeatedFrom (seen reported : List Version) : List Version → List Version
  | [] => []
  | v :: rest =>
    if v ∈ seen then
      if v ∈ reported then repeatedFrom seen reported rest
      else v :: repeatedFrom seen (v :: reported) rest
    else repeatedFrom (v :: seen) reported rest

/-- The versions that occur twice or more, each once. -/
def repeated (versions : List Version) : List Version := repeatedFrom [] [] versions

/-- Read the clauses: each version with its form. -/
def clauses (pairs : List (Node × Node)) : Except QualifierError (List (Version × Node)) :=
  pairs.mapM fun pair => do
    let v ← Arguments.version pair.1
    return (v, pair.2)

/-- The form of the version at hand, if the clauses are an exact cover of the known versions. -/
def choose (ctx : Context) (clauses : List (Version × Node)) : Except QualifierError Expansion :=
  let named := clauses.map Prod.fst
  let missing := ctx.known.toList.filter fun v => !named.contains v
  let unexpected := named.filter fun v => !ctx.known.contains v
  let repeated := repeated (named.filter ctx.known.contains)
  match clauses.lookup ctx.version, missing, unexpected, repeated with
  | some form, [], [], [] => .ok (.single form)
  | _, _, _, _ => .error (.mismatchedSwitch missing unexpected repeated)

/-- `switch({v: f, ...})`: the form of the version at hand. -/
def switch (ctx : Context) : List Node → Except QualifierError Expansion
  | [.mapping pairs] => do
    let clauses ← clauses pairs
    choose ctx clauses
  | _ => .error (.invalidArguments "switch expects a single mapping of version to form")

end VersionedTree.Switch
