import VersionedTree.Proofs.Bundled
import VersionedTree.Proofs.Compiling
import VersionedTree.Proofs.Simulation

/-!
# A compilation, version by version

A compilation says nothing else than the walks of the versions one by one: it succeeds when all of
them do, its artifact leads every version to the tree of its walk, and its error is that of the
first version that has one. Only a qualifier that reads the selector can tell a compilation from
walks outside of one, and no bundled qualifier reads it.

This is so whatever the bound on the depth of the walks is. Trees and what qualifiers return are
taken to be well formed, as every node is that is built by insertion into sets and mappings.

## What is proved

* `Resolver.result_walkWithin_withSelector` — walks do not depend on a selector that no qualifier
  reads.
* `Standard.ignoresSelector_registry` — no bundled qualifier reads the selector.
* `Compiler.compile_agreesWithWalks` — a compilation agrees with the walks of the versions.
-/

namespace VersionedTree

/-- What a qualifier gives does not depend on the selector. -/
def Qualifier.IgnoresSelector (q : Qualifier) : Prop :=
  ∀ ctx selector args, (q (ctx.withSelector selector) args).result = (q ctx args).result

/-- No qualifier of the registry reads the selector. -/
def Registry.IgnoresSelector (r : Registry) : Prop :=
  ∀ tag q, r.get? tag = some q → q.IgnoresSelector

/-- No bundled qualifier reads the selector. -/
theorem Standard.ignoresSelector_registry (m? : Option Manifest) :
    (registry m?).value.IgnoresSelector := fun _ _ h =>
  forall_registry (P := fun _ q => q.IgnoresSelector) (fun _ _ _ => rfl) (fun _ _ _ => rfl)
    (fun _ _ _ => rfl) (fun _ _ _ => rfl) (fun _ _ _ => rfl) (fun _ _ _ _ => rfl)
    (fun _ _ _ _ => rfl) h

namespace Resolver

variable {r : Resolver}

/-- Walks with a selector and without one run in step if no qualifier reads it. -/
theorem agreement_withSelector (h : r.registry.IgnoresSelector) (ctx : Context)
    (selector : Option String) :
    Agreement id (fun _ => True) r (ctx.withSelector selector) r ctx := by
  refine .of_result_eq (fun _ => rfl) (fun _ _ _ _ _ => trivial) ?_ ?_
  · intro tag args _
    exact ⟨fun _ _ _ _ => trivial, fun _ _ => trivial⟩
  · intro tag args _ q hq
    exact h tag q hq ctx selector args

/-- Walks do not depend on a selector that no qualifier reads. -/
theorem result_walkWithin_withSelector (h : r.registry.IgnoresSelector) (bound : Nat)
    (ctx : Context) (selector : Option String) (tree : Node) :
    (r.walkWithin bound (ctx.withSelector selector) tree).result =
      (r.walkWithin bound ctx tree).result :=
  (walkWithin_alike (agreement_withSelector h ctx selector) trivial).result_eq

end Resolver

namespace Compiler

/-- A compilation agrees with the walks of the versions one by one. -/
structure AgreesWithWalks (c : Compiler) (bound : Nat) (selector : String) (known : KnownVersions)
    (tree : Node) : Prop where
  /-- It succeeds exactly when the walk of every known version does. -/
  succeeds_iff : (∃ a, (c.compileWithin bound selector known tree).result = .ok a) ↔
    ∀ ctx ∈ Context.all known (some selector), ∃ t,
      (c.resolver.walkWithin bound ctx tree).result = .ok t
  /-- Its artifact then selects for every known version a tree equal to that of the walk. -/
  select_known : ∀ a, (c.compileWithin bound selector known tree).result = .ok a →
    ∀ v ∈ known.toList, ∃ ctx ∈ Context.all known (some selector), ctx.version = v ∧ ∃ s t,
      a.select (some v) = .ok s ∧ (c.resolver.walkWithin bound ctx tree).result = .ok t ∧
        (s == t) = true
  /-- A table refuses a selection without a version, and one for a version that is not known. -/
  select_other : ∀ d, (c.compileWithin bound selector known tree).result = .ok (.dispatch d) →
    ∀ current : Option Version, (∀ v, current = some v → v ∉ known.toList) →
      (Artifact.dispatch d).select current = .error ⟨selector, current, known.toList⟩
  /-- It fails with the failure of the first version, in the order of declaration, whose walk
  fails. -/
  fails_iff : ∀ e, (c.compileWithin bound selector known tree).result = .error e ↔
    ∃ cause, e = .walk cause ∧
      Outcome.FirstFailure (c.outcomes bound (some selector) known tree) cause

/-- Outside of a compilation the versions have the same trees and the same errors as within it. -/
structure AgreesWithoutSelector (c : Compiler) (bound : Nat) (selector : String)
    (known : KnownVersions) (tree : Node) : Prop where
  /-- All versions resolve to the trees of the walks within the compilation. -/
  resolveAll_ok_iff : ∀ rows, (c.resolveAllWithin bound known tree).result = .ok rows ↔
    ∃ trees, c.outcomes bound (some selector) known tree = trees.map .ok ∧
      rows = known.toList.zip trees
  /-- They fail to resolve with the error of the compilation. -/
  resolveAll_error_iff : ∀ e, (c.resolveAllWithin bound known tree).result = .error e ↔
    (c.compileWithin bound selector known tree).result = .error e
  /-- One version resolves as its walk within the compilation does. -/
  resolveVersion_eq : ∀ ctx ∈ Context.all known (some selector),
    (c.resolveVersionWithin bound known ctx.version tree).result =
      (c.resolver.walkWithin bound ctx tree).result.mapError .walk

variable {c : Compiler} {bound : Nat} {selector : String} {known : KnownVersions} {tree : Node}

theorem compile_eq_ok_iff (hpasses : 1 ≤ c.settings.maxPasses) (hseq : c.settings.parallel = false)
    (hne : known.toList ≠ []) {a : Artifact} :
    (c.compileWithin bound selector known tree).result = .ok a ↔
      ∃ trees, c.outcomes bound (some selector) known tree = trees.map .ok ∧
        a = artifactOf selector known trees := by
  rw [compileWithin, result_compileArrivingWithin hpasses hseq hne, Outcome.map_eq_ok_iff]
  refine exists_congr fun trees => ?_
  rw [Outcome.mapError_eq_ok_iff, Outcome.mapM_eq_ok_iff, eq_comm (a := a), outcomes]

theorem compile_eq_error_iff (hpasses : 1 ≤ c.settings.maxPasses)
    (hseq : c.settings.parallel = false) (hne : known.toList ≠ []) {e : CompileError} :
    (c.compileWithin bound selector known tree).result = .error e ↔
      ∃ cause, e = .walk cause ∧
        Outcome.FirstFailure (c.outcomes bound (some selector) known tree) cause := by
  rw [compileWithin, result_compileArrivingWithin hpasses hseq hne, Outcome.map_eq_error_iff,
    Outcome.mapError_eq_error_iff]
  refine exists_congr fun cause => ?_
  rw [Outcome.mapM_eq_error_iff, eq_comm (a := e), and_comm, outcomes]

theorem resolveAll_eq_ok_iff (hpasses : 1 ≤ c.settings.maxPasses)
    (hseq : c.settings.parallel = false) {rows : List (Version × Node)} :
    (c.resolveAllWithin bound known tree).result = .ok rows ↔
      ∃ trees, c.outcomes bound none known tree = trees.map .ok ∧
        rows = known.toList.zip trees := by
  rw [resolveAllWithin, result_resolveArrivingWithin hpasses hseq, Outcome.map_eq_ok_iff]
  refine exists_congr fun trees => ?_
  rw [Outcome.mapError_eq_ok_iff, Outcome.mapM_eq_ok_iff, eq_comm (a := rows), outcomes]

theorem resolveAll_eq_error_iff (hpasses : 1 ≤ c.settings.maxPasses)
    (hseq : c.settings.parallel = false) {e : CompileError} :
    (c.resolveAllWithin bound known tree).result = .error e ↔
      ∃ cause, e = .walk cause ∧
        Outcome.FirstFailure (c.outcomes bound none known tree) cause := by
  rw [resolveAllWithin, result_resolveArrivingWithin hpasses hseq, Outcome.map_eq_error_iff,
    Outcome.mapError_eq_error_iff]
  refine exists_congr fun cause => ?_
  rw [Outcome.mapM_eq_error_iff, eq_comm (a := e), and_comm, outcomes]

/-- Outcomes do not depend on a selector that no qualifier reads. -/
theorem outcomes_eq_of_ignoresSelector (h : c.registry.IgnoresSelector)
    (selector : Option String) :
    c.outcomes bound selector known tree = c.outcomes bound none known tree := by
  rw [outcomes, outcomes, Context.all_eq_map_withSelector, List.map_map]
  refine List.map_congr_left fun ctx _ => ?_
  exact Resolver.result_walkWithin_withSelector (r := c.resolver) h bound ctx selector tree

theorem resolveVersion_eq_of_ignoresSelector (h : c.registry.IgnoresSelector)
    (hpasses : 1 ≤ c.settings.maxPasses) (ctx : Context) :
    (c.resolveVersionWithin bound ctx.known ctx.version tree).result =
      (c.resolver.walkWithin bound ctx tree).result.mapError .walk := by
  rw [resolveVersionWithin, Traced.result_bind, result_checkSettings hpasses, ctx.of?_version]
  show (c.walkWithin bound tree (ctx.withSelector none)).result = _
  rw [walkWithin, Traced.result_adapt,
    Resolver.result_walkWithin_withSelector (r := c.resolver) h bound ctx none tree]

/-- A compilation succeeds exactly when the walk of every version does. -/
theorem exists_compile_eq_ok_iff (hpasses : 1 ≤ c.settings.maxPasses)
    (hseq : c.settings.parallel = false) (hne : known.toList ≠ []) :
    (∃ a, (c.compileWithin bound selector known tree).result = .ok a) ↔
      ∀ ctx ∈ Context.all known (some selector), ∃ t,
        (c.resolver.walkWithin bound ctx tree).result = .ok t := by
  rw [← exists_outcomes_eq_iff]
  constructor
  · rintro ⟨a, ha⟩
    obtain ⟨trees, houtcomes, -⟩ := (compile_eq_ok_iff hpasses hseq hne).1 ha
    exact ⟨trees, houtcomes⟩
  · rintro ⟨trees, houtcomes⟩
    exact ⟨_, (compile_eq_ok_iff hpasses hseq hne).2 ⟨trees, houtcomes, rfl⟩⟩

/-- The artifact selects for a known version a tree equal to that of the walk. -/
theorem exists_select_eq_ok (hpasses : 1 ≤ c.settings.maxPasses)
    (hseq : c.settings.parallel = false) (hne : known.toList ≠ [])
    (hkeeps : c.registry.KeepsWellFormed) (htree : tree.WellFormed) {a : Artifact}
    (ha : (c.compileWithin bound selector known tree).result = .ok a) {v : Version}
    (hv : v ∈ known.toList) :
    ∃ ctx ∈ Context.all known (some selector), ctx.version = v ∧ ∃ s t,
      a.select (some v) = .ok s ∧ (c.resolver.walkWithin bound ctx tree).result = .ok t ∧
        (s == t) = true := by
  obtain ⟨trees, houtcomes, rfl⟩ := (compile_eq_ok_iff hpasses hseq hne).1 ha
  obtain ⟨ctx, hctx, rfl⟩ := Context.exists_mem_all_of_version (some selector) hv
  obtain ⟨t, hwalk, hrow⟩ := mem_zip_of_outcomes houtcomes hctx
  have hwf := wellFormed_of_outcomes hkeeps htree houtcomes
  obtain ⟨s, hs, hst⟩ := select_artifactOf hwf (length_of_outcomes houtcomes) hrow
  exact ⟨ctx, hctx, rfl, s, t, hs, hwalk, hst⟩

/-- A table refuses a selection without a version, and one for a version that is not known. -/
theorem select_dispatch_eq_error (hpasses : 1 ≤ c.settings.maxPasses)
    (hseq : c.settings.parallel = false) (hne : known.toList ≠ []) {d : Dispatch}
    (hd : (c.compileWithin bound selector known tree).result = .ok (.dispatch d))
    {current : Option Version} (hcurrent : ∀ v, current = some v → v ∉ known.toList) :
    (Artifact.dispatch d).select current = .error ⟨selector, current, known.toList⟩ := by
  obtain ⟨trees, houtcomes, ha⟩ := (compile_eq_ok_iff hpasses hseq hne).1 hd
  rw [eq_tableOf_of_artifactOf_eq ha.symm]
  cases current with
  | none => rfl
  | some v =>
    exact Grouping.select_tableOf_of_not_mem (length_of_outcomes houtcomes) (hcurrent v rfl)

/-- Where no qualifier reads the selector, resolutions outside of a compilation agree with it. -/
theorem agreesWithoutSelector (hpasses : 1 ≤ c.settings.maxPasses)
    (hseq : c.settings.parallel = false) (hne : known.toList ≠ [])
    (hignores : c.registry.IgnoresSelector) :
    c.AgreesWithoutSelector bound selector known tree where
  resolveAll_ok_iff rows := by
    rw [outcomes_eq_of_ignoresSelector hignores]
    exact resolveAll_eq_ok_iff hpasses hseq
  resolveAll_error_iff e := by
    rw [resolveAll_eq_error_iff hpasses hseq, compile_eq_error_iff hpasses hseq hne,
      outcomes_eq_of_ignoresSelector hignores (some selector)]
  resolveVersion_eq ctx hctx := by
    obtain ⟨rfl, -⟩ := Context.mem_all_iff.1 hctx
    exact resolveVersion_eq_of_ignoresSelector hignores hpasses ctx

/-- A compilation of one version after the other agrees with the walks of the versions. If no
qualifier reads the selector, which is so for the bundled ones, then so do the resolutions outside
of a compilation. -/
theorem compile_agreesWithWalks (hpasses : 1 ≤ c.settings.maxPasses)
    (hseq : c.settings.parallel = false) (hne : known.toList ≠ [])
    (hkeeps : c.registry.KeepsWellFormed) (htree : tree.WellFormed) :
    c.AgreesWithWalks bound selector known tree ∧
      (c.registry.IgnoresSelector → c.AgreesWithoutSelector bound selector known tree) ∧
      ∀ m?, (Standard.registry m?).value.IgnoresSelector := by
  refine ⟨⟨?_, ?_, ?_, ?_⟩, ?_, Standard.ignoresSelector_registry⟩
  · exact exists_compile_eq_ok_iff hpasses hseq hne
  · intro a ha v hv
    exact exists_select_eq_ok hpasses hseq hne hkeeps htree ha hv
  · intro d hd current hcurrent
    exact select_dispatch_eq_error hpasses hseq hne hd hcurrent
  · intro e
    exact compile_eq_error_iff hpasses hseq hne
  · exact agreesWithoutSelector hpasses hseq hne

theorem compile_agreesWithWalks_growing :
    AgreesWithWalks ⟨(Standard.registry none).value, {}⟩ 3 "api" Sample.threeVersions
      Sample.growing ∧
    ((Standard.registry none).value.IgnoresSelector →
      AgreesWithoutSelector ⟨(Standard.registry none).value, {}⟩ 3 "api" Sample.threeVersions
        Sample.growing) ∧
    ∀ m?, (Standard.registry m?).value.IgnoresSelector :=
  compile_agreesWithWalks (by decide) rfl (by decide)
    (Standard.inward_registry none).keepsWellFormed Sample.wellFormed_growing

end Compiler

end VersionedTree
