import VersionedTree.Proofs.Bundled
import VersionedTree.Proofs.Walking

/-!
# Errors that can be replayed

An error of a walk names a node or a tag that may be met deep inside of the tree, or that exists
only after several expansions. What the error says of it is true on its own: it can be checked
against the registry by resolving the named node once more, or by looking up the named tag, without
walking the tree again.

## What is proved

* `Resolver.expandForm_replays`, `Resolver.resolve_replays` — the errors of one expansion and of one
  resolution.
* `Resolver.truthfulInvariant` — that errors can be replayed is an invariant of walks.
* `Resolver.walkWithin_replays` — every error of a walk can be replayed.
-/

namespace VersionedTree

/-- What an error of a walk of `tree` says is so at the version of the context. -/
inductive ResolveError.Replays (r : Resolver) (ctx : Context) (tree : Node) :
    ResolveError → Prop where
  /-- The node in a slot is an invocation that resolves to that many forms, and not to one. -/
  | multiFormInSlot {slot : Slot} {n : Node} {forms : List Form} : n.isInvocation = true →
    (r.resolve ctx n).result = .ok forms → forms.length ≠ 1 →
    Replays r ctx tree (.multiFormInSlot slot n ctx.version forms.length)
  /-- The tree is an invocation that resolves to these forms, which are not a single node. -/
  | rootMultiplicity {forms : List Form} : tree.isInvocation = true →
    (r.resolve ctx tree).result = .ok forms → (∀ n, forms ≠ [.node n]) →
    Replays r ctx tree (.rootMultiplicity tree ctx.version forms)
  /-- The node fails to resolve with this very error under the limit of the resolver. -/
  | passLimitExceeded {n : Node} {lastForms : List Form} :
    (r.resolve ctx n).result =
      .error (.passLimitExceeded n ctx.version r.maxPasses lastForms) →
    Replays r ctx tree (.passLimitExceeded n ctx.version r.maxPasses lastForms)
  /-- The tag has no qualifier. -/
  | unknownQualifier {tag : Tag} : r.registry.get? tag = none →
    Replays r ctx tree (.unknownQualifier tag ctx.version)
  /-- The qualifier of the tag refuses some arguments for this reason. -/
  | qualifier {tag : Tag} {q : Qualifier} {args : List Node} {cause : QualifierError} :
    r.registry.get? tag = some q → (q ctx args).result = .error cause →
    Replays r ctx tree (.qualifier tag ctx.version cause)

variable {r : Resolver} {ctx : Context} {tree : Node} {e : ResolveError}

/-- An error that can be replayed names the version at hand. -/
theorem ResolveError.Replays.version_eq (h : e.Replays r ctx tree) : e.version = ctx.version := by
  cases h <;> rfl

namespace Resolver

theorem expandForm_replays {tag : Tag} {args : List Node}
    (h : (r.expandForm ctx (.node (.invocation tag args))).result = .error e) :
    e.Replays r ctx tree := by
  cases hq : r.registry.get? tag with
  | none =>
    rw [result_expandForm_of_none hq] at h
    cases h
    exact .unknownQualifier hq
  | some q =>
    rw [result_expandForm hq, Outcome.map_eq_error_iff, Outcome.mapError_eq_error_iff] at h
    obtain ⟨cause, hcause, rfl⟩ := h
    exact .qualifier hq hcause

/-- A resolution fails with an expansion, or runs into the limit, and that is replayed by the
resolution itself. -/
theorem resolve_replays {n : Node} (h : (r.resolve ctx n).result = .error e) :
    e.Replays r ctx tree := by
  have hmeets : (r.resolve ctx n).Meets (NodesSatisfy fun _ => True) fun e =>
      (∃ forms, e = .passLimitExceeded n ctx.version r.maxPasses forms) ∨
        e.Replays r ctx tree :=
    resolve_meets
      (fun tag args _ => ⟨fun _ _ _ _ => trivial, fun e he => .inr (expandForm_replays he)⟩)
      (fun forms => .inl ⟨forms, rfl⟩) trivial
  rcases hmeets.2 e h with ⟨forms, rfl⟩ | hreplays
  · exact .passLimitExceeded h
  · exact hreplays

/-- A node that does not resolve to itself alone is an invocation. -/
theorem isInvocation_of_resolve {n : Node} {forms : List Form}
    (h : (r.resolve ctx n).result = .ok forms) (hne : forms ≠ [.node n]) :
    n.isInvocation = true := by
  rcases resolve_eq_ok h with ⟨hi, -⟩ | ⟨-, hforms⟩
  · exact hi
  · exact absurd hforms hne

/-- The error names the version of the walk, and unless the walk went too deep it can be
replayed. -/
def Truthful (r : Resolver) (ctx : Context) (tree : Node) : WalkError → Prop
  | .resolve cause => cause.Replays r ctx tree
  | .tooDeep version => version = ctx.version

/-- That errors are truthful is kept along a walk, whatever the nodes are that it meets. -/
theorem truthfulInvariant (r : Resolver) (ctx : Context) (tree : Node) :
    WalkInvariant r ctx (fun _ => True) (fun _ => True) (fun _ => True) (r.Truthful ctx tree) where
  slot _ _ := ⟨fun _ _ _ _ => trivial, fun _ he => resolve_replays he⟩
  side _ _ _ _ h hne := .multiFormInSlot (isInvocation_of_resolve h (hne _)) h fun hlength => by
    obtain ⟨f, hf⟩ := List.length_eq_one_iff.1 hlength
    exact hne f hf
  deep := rfl
  parts _ _ _ _ _ := trivial
  scalar _ := trivial
  invocation _ _ _ := trivial
  sequence _ _ := trivial
  set _ _ := trivial
  empty := trivial
  pair _ _ _ _ _ _ := trivial

/-- Every error of a walk names the version of the context. Unless the walk was cut off, it is an
error of a resolution, and what it says can be replayed in the context. -/
theorem walkWithin_replays {bound : Nat} {e : WalkError}
    (h : (r.walkWithin bound ctx tree).result = .error e) :
    e.version = ctx.version ∧
      (e = .tooDeep ctx.version ∨ ∃ cause, e = .resolve cause ∧ cause.Replays r ctx tree) := by
  have hroot : ∀ forms, (r.resolve ctx tree).result = .ok forms → (∀ m, forms ≠ [.node m]) →
      r.Truthful ctx tree (.resolve (.rootMultiplicity tree ctx.version forms)) :=
    fun forms hforms hne => .rootMultiplicity (isInvocation_of_resolve hforms (hne _)) hforms hne
  have htruthful := (walkWithin_meets (truthfulInvariant r ctx tree) trivial hroot).2 e h
  cases e with
  | resolve cause => exact ⟨htruthful.version_eq, .inr ⟨cause, rfl, htruthful⟩⟩
  | tooDeep version => exact ⟨htruthful, .inl (congrArg WalkError.tooDeep htruthful)⟩

end Resolver

namespace Sample

/-- An invocation that stands for two forms. -/
def double : Node := .invocation Standard.addedTag [.str "v0", .str "a", .str "b"]

/-- The same invocation as a value that is there after an expansion only. -/
def lateDouble : Node :=
  .sequence [.invocation Standard.addedTag [.str "v0", .mapping [(.str "k", double)]]]

/-- The walk at the second version fails with an error that can be replayed. -/
def FailsWith (r : Resolver) (tree : Node) (cause : ResolveError) : Prop :=
  (r.walkWithin 3 atSecond tree).result = .error (.resolve cause) ∧ cause.Replays r atSecond tree

end Sample

/-- Two forms in a slot, two forms at the root, too few passes, a tag without a qualifier, and a
version that is not known. -/
theorem Resolver.walkWithin_replays_failures :
    Sample.FailsWith ⟨(Standard.registry none).value, 10⟩ Sample.lateDouble
        (.multiFormInSlot .value Sample.double ⟨"v1"⟩ 2) ∧
      Sample.FailsWith ⟨(Standard.registry none).value, 10⟩ Sample.double
        (.rootMultiplicity Sample.double ⟨"v1"⟩ [.node (.str "a"), .node (.str "b")]) ∧
      Sample.FailsWith ⟨(Standard.registry none).value, 1⟩ Sample.growing
        (.passLimitExceeded Sample.nested ⟨"v1"⟩ 1 [.node (.str "y")]) ∧
      Sample.FailsWith ⟨∅, 10⟩ Sample.growing (.unknownQualifier Standard.addedTag ⟨"v1"⟩) ∧
      Sample.FailsWith ⟨(Standard.registry none).value, 10⟩
        (.sequence [.invocation Standard.removedTag [.str "v9"]])
        (.qualifier Standard.removedTag ⟨"v1"⟩
          (.unknownVersion ⟨"v9"⟩ [⟨"v0"⟩, ⟨"v1"⟩, ⟨"v2"⟩])) := by
  have hreplays : ∀ {r tree cause},
      (walkWithin r 3 Sample.atSecond tree).result = .error (.resolve cause) →
        Sample.FailsWith r tree cause := by
    intro r tree cause h
    obtain ⟨-, hdeep | ⟨cause', hcause, hreplays⟩⟩ := walkWithin_replays h
    · cases hdeep
    · cases hcause
      exact ⟨h, hreplays⟩
  exact ⟨hreplays rfl, hreplays rfl, hreplays rfl, hreplays rfl, hreplays rfl⟩

end VersionedTree
