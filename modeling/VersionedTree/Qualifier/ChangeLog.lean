import VersionedTree.Qualifier.Arguments

/-!
# A value with a change log

`changed(base, v1, f1, v2, f2, ...)` stands for one form at every version. The log names versions
from which on a form is in force; before all of them it is the base. The entries may be listed in
any order, and every one of them has to name a known version, whichever version is at hand.
-/

namespace VersionedTree.ChangeLog

/-- The entry in force at a position: of the entries at or before it the latest, and of several at
the same place the one listed last. -/
def inForce (current : Nat) (entries : List (Nat × Node)) : Option (Nat × Node) :=
  entries.foldl
    (fun best entry =>
      if entry.1 ≤ current ∧ best.all (fun b => b.1 ≤ entry.1) then some entry else best)
    none

/-- Read the entries of a log, each with the place of its version. -/
def entries (ctx : Context) (pairs : List (Node × Node)) :
    Except QualifierError (List (Nat × Node)) :=
  pairs.mapM fun pair => do
    let position ← Arguments.knownPosition ctx pair.1
    return (position, pair.2)

/-- `changed(base, v1, f1, ...)`: the form in force. -/
def changed (ctx : Context) (args : List Node) : Except QualifierError Expansion := do
  let (base, log) ← Arguments.headAndForms "changed(base, v1, f1, ...)" args
  match Arguments.inPairs log with
  | (_, some _) =>
    .error (.invalidArguments "changed expects version/form pairs after the base form")
  | (pairs, none) => do
    let entries ← entries ctx pairs
    match inForce ctx.position entries with
    | some entry => return .single entry.2
    | none => return .single base

end VersionedTree.ChangeLog
