import VersionedTree.Version.Basic

/-!
# The context of a resolution

A tree is resolved for one version at a time. The context says which one it is, where it stands
among the known versions, and for which selector the resolution happens, if for one.
-/

namespace VersionedTree

/-- The version being resolved. -/
structure Context where
  /-- All versions of the run. -/
  known : KnownVersions
  /-- The version being resolved. -/
  version : Version
  /-- Its place in the order of declaration. -/
  position : Nat
  /-- The version stands at that place. -/
  get?_position : known.get? position = some version
  /-- The name of the value that selects a version at run time, within a full compilation. -/
  selector : Option String := none

namespace Context

/-- The context of a version, if it is known. -/
def of? (known : KnownVersions) (v : Version) : Option Context :=
  match h : known.position? v with
  | some position => some ⟨known, v, position, KnownVersions.get?_position h, none⟩
  | none => none

/-- The context of the version at a position, if there is one. -/
def at? (known : KnownVersions) (position : Nat) : Option Context :=
  match h : known.get? position with
  | some v => some ⟨known, v, position, h, none⟩
  | none => none

/-- The context within a compilation for a selector. -/
def withSelector (ctx : Context) (selector : Option String) : Context :=
  { ctx with selector := selector }

/-- The place of another version, if it is known. -/
def position? (ctx : Context) (v : Version) : Option Nat := ctx.known.position? v

/-- Is this the version being resolved? -/
def isAt (ctx : Context) (v : Version) : Bool := ctx.version == v

/-- The contexts of all known versions, in the order of declaration. -/
def all (known : KnownVersions) (selector : Option String) : List Context :=
  (List.finRange known.toList.length).map fun i : Fin known.toList.length =>
    { known
      version := known.toList[i.val]
      position := i.val
      get?_position := List.getElem?_eq_getElem i.isLt
      selector }

end Context

end VersionedTree
