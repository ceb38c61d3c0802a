import VersionedTree.Compilation.Error

/-!
# Compilation

A compilation resolves a tree for every known version and gathers the versions whose trees are
equal. When all versions agree there is no table.

Versions whose trees are equal form a group. Groups are numbered in the order in which their trees
first appear along the versions, and the tree of the first version of a group is the tree of the
group.

Versions are resolved one after the other, or side by side. One after the other, the first failure
ends the compilation. Side by side, all walks run, and their outcomes arrive in some order: the
first failure to arrive is the one that is reported, and without a failure the trees stand in the
order of the versions, whatever the order of arrival. Here outcomes arrive in the order of
declaration unless a function is told otherwise.

As with walks, the functions whose names end in `Within` have a bound on the depth, which those
without it take from the tree.
-/

namespace VersionedTree

/-! ### From trees to a table -/

namespace Grouping

/-- The trees that differ, each once, in the order of first appearance. -/
def distinct (trees : List Node) : List Node := Distinct.ofList trees

/-- The group of a tree: its place among the trees that differ. -/
def groupOf (trees : List Node) (tree : Node) : GroupId :=
  ⟨(distinct trees).findIdx fun shared => tree == shared⟩

/-- The table that leads every version to a tree equal to its own. -/
def table (selector : String) (known : KnownVersions) (rows : List (Version × Node)) : Dispatch :=
  let trees := rows.map Prod.snd
  { selector
    known
    assigned := Table.ofList (rows.map fun row => (row.1, groupOf trees row.2))
    trees := Table.ofList ((distinct trees).zipIdx.map fun group => (⟨group.2⟩, group.1)) }

end Grouping

/-! ### From a tree to an artifact -/

/-- Gather outcomes that arrive in the given order of their places: the first failure to arrive, or
all values in the order of their places. -/
def gather {ε α : Type} (arrival : List Nat) (outcomes : List (Except ε α)) : Except ε (List α) :=
  let failure? (i : Nat) : Option ε :=
    match outcomes[i]? with
    | some (.error e) => some e
    | _ => none
  match arrival.findSome? failure? with
  | some e => .error e
  | none => outcomes.mapM id

/-- What a tree is compiled with. -/
structure Compiler where
  /-- The qualifiers by tag. -/
  registry : Registry
  /-- The settings. -/
  settings : Settings := {}

namespace Compiler

/-- The resolver under the settings. -/
def resolver (c : Compiler) : Resolver := ⟨c.registry, c.settings.maxPasses⟩

/-- Fail if the settings cannot be used. -/
def checkSettings (c : Compiler) : Traced CompileError Unit :=
  match c.settings.validate with
  | .ok _ => return ()
  | .error cause => throw (.settings cause)

/-- Resolve a tree for the version of a context. -/
def walkWithin (c : Compiler) (bound : Nat) (tree : Node) (ctx : Context) :
    Traced CompileError Node :=
  ExceptT.adapt .walk (c.resolver.walkWithin bound ctx tree)

/-- Resolve a tree in every context, side by side where the settings allow it; the outcomes then
arrive in the given order. -/
def walkAllWithin (c : Compiler) (arrival : List Nat) (bound : Nat) (contexts : List Context)
    (tree : Node) : Traced CompileError (List Node) :=
  if c.settings.parallel then
    let walks := contexts.map fun ctx => (c.walkWithin bound tree ctx).run
    ExceptT.mk ⟨walks.flatMap Logged.events, gather arrival (walks.map Logged.value)⟩
  else contexts.mapM (c.walkWithin bound tree)

/-- Resolve a tree for every known version, within a compilation for a selector or outside of one,
where walks side by side arrive in the given order. -/
def resolveArrivingWithin (c : Compiler) (arrival : List Nat) (bound : Nat)
    (selector : Option String) (known : KnownVersions) (tree : Node) :
    Traced CompileError (List (Version × Node)) := do
  c.checkSettings
  let trees ← c.walkAllWithin arrival bound (Context.all known selector) tree
  return known.toList.zip trees

/-- Compile a tree for every known version, where walks side by side arrive in the given order. -/
def compileArrivingWithin (c : Compiler) (arrival : List Nat) (bound : Nat) (selector : String)
    (known : KnownVersions) (tree : Node) : Traced CompileError Artifact := do
  if known.size = 0 then throw (.emptyVersionSet selector)
  Traced.record (.compiling selector known.size c.settings.parallel)
  let rows ← c.resolveArrivingWithin arrival bound selector known tree
  match Grouping.distinct (rows.map Prod.snd) with
  | [shared] => do
    Traced.record (.dispatchElided selector)
    return .resolved shared
  | groups => do
    Traced.record (.dispatchBuilt selector known.size groups.length)
    return .dispatch (Grouping.table selector known rows)

/-- Resolve a tree for one version. -/
def resolveVersionWithin (c : Compiler) (bound : Nat) (known : KnownVersions) (v : Version)
    (tree : Node) : Traced CompileError Node := do
  c.checkSettings
  match Context.of? known v with
  | none => throw (.versionNotKnown v known.toList)
  | some ctx => c.walkWithin bound tree ctx

/-- Resolve a tree for every known version, in the order of declaration. -/
def resolveAllWithin (c : Compiler) (bound : Nat) (known : KnownVersions) (tree : Node) :
    Traced CompileError (List (Version × Node)) :=
  c.resolveArrivingWithin (List.range known.size) bound none known tree

/-- Compile a tree for every known version. -/
def compileWithin (c : Compiler) (bound : Nat) (selector : String) (known : KnownVersions)
    (tree : Node) : Traced CompileError Artifact :=
  c.compileArrivingWithin (List.range known.size) bound selector known tree

/-- Resolve a tree for one version. -/
def resolveVersion (c : Compiler) (known : KnownVersions) (v : Version) (tree : Node) :
    Traced CompileError Node :=
  c.resolveVersionWithin tree.depth known v tree

/-- Resolve a tree for every known version. -/
def resolveAll (c : Compiler) (known : KnownVersions) (tree : Node) :
    Traced CompileError (List (Version × Node)) :=
  c.resolveAllWithin tree.depth known tree

/-- Compile a tree for every known version. -/
def compile (c : Compiler) (selector : String) (known : KnownVersions) (tree : Node) :
    Traced CompileError Artifact :=
  c.compileWithin tree.depth selector known tree

end Compiler

end VersionedTree
