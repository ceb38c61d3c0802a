import Mathlib.Data.List.Basic
import VersionedTree.Proofs.Bundled
import VersionedTree.Proofs.Contexts
import VersionedTree.Proofs.Simulation

/-!
# Where a tree changes

Of the bundled qualifiers, `added`, `removed` and `changed` look at the order of versions only, and
only by comparing the version at hand with the versions among their arguments: the pivots. Between
two neighbouring pivots nothing changes.

## What is proved

* `Standard.result_eq_of_between` — the three qualifiers give the same at two versions between which
  there is none of their pivots.
* `Standard.agreement_of_between` — walks of a tree that is made of such invocations run in step.
* `Standard.walkWithin_of_between` — they give the same tree, or the same error apart from the
  version that it names.
-/

namespace VersionedTree

/-! ### Errors apart from their version -/

@[simp]
theorem ResolveError.withVersion_withVersion (v w : Version) (e : ResolveError) :
    (e.withVersion w).withVersion v = e.withVersion v := by
  cases e <;> rfl

@[simp]
theorem WalkError.withVersion_withVersion (v w : Version) (e : WalkError) :
    (e.withVersion w).withVersion v = e.withVersion v := by
  cases e with
  | resolve cause =>
    exact congrArg WalkError.resolve (ResolveError.withVersion_withVersion v w cause)
  | tooDeep version => rfl

namespace Standard

/-! ### Pivots -/

/-- The tags of the bundled qualifiers that only compare versions. -/
def stepTags : List Tag := [addedTag, removedTag, changedTag]

/-- The arguments of an invocation that name a version at which it changes: the first one of `added`
and `removed`, and the versions of the log of `changed`. -/
def pivotArguments (tag : Tag) (args : List Node) : List Node :=
  if tag = changedTag then (Arguments.inPairs (args.drop 1)).1.map Prod.fst else args.take 1

/-- The pivots of the invocations in a tree, at any depth. -/
def pivots (tree : Node) : List Node :=
  tree.subnodes.flatMap fun
    | .invocation tag args => pivotArguments tag args
    | _ => []

/-- Every invocation in the tree, at any depth, only compares versions. -/
def OnlySteps (tree : Node) : Prop :=
  ∀ tag args, .invocation tag args ∈ tree.subnodes → tag ∈ stepTags

/-- None of the nodes names a known version after one position and at or before another. -/
def NoneBetween (known : KnownVersions) (i j : Nat) (nodes : List Node) : Prop :=
  ∀ p ∈ nodes, ∀ v, Version.ofNode? p = some v → ∀ k, known.position? v = some k →
    ¬(i < k ∧ k ≤ j)

/-- The registered qualifiers that only compare versions are these three. -/
theorem eq_of_mem_stepTags {m? : Option Manifest} {tag : Tag} {q : Qualifier}
    (hq : (registry m?).value.get? tag = some q) (htag : tag ∈ stepTags) :
    tag = addedTag ∧ q = added ∨ tag = removedTag ∧ q = removed ∨
      tag = changedTag ∧ q = changed := by
  revert htag
  refine forall_registry (P := fun tag q => tag ∈ stepTags → tag = addedTag ∧ q = added ∨
    tag = removedTag ∧ q = removed ∨ tag = changedTag ∧ q = changed) ?_ ?_ ?_ ?_ ?_ ?_ ?_ hq
  all_goals simp [stepTags, addedTag, removedTag, changedTag, onlyTag, switchTag, featureTag,
    featureCaseTag]

theorem mem_pivots {tree p : Node} {tag : Tag} {args : List Node}
    (h : .invocation tag args ∈ tree.subnodes) (hp : p ∈ pivotArguments tag args) :
    p ∈ pivots tree :=
  List.mem_flatMap.2 ⟨_, h, hp⟩

/-! ### The qualifiers between two pivots -/

section Between

variable {ctx ctx' : Context} {args : List Node}

/-- The place of an argument depends on the known versions alone. -/
theorem knownPosition_congr (hknown : ctx.known = ctx'.known) (n : Node) :
    Arguments.knownPosition ctx n = Arguments.knownPosition ctx' n := by
  unfold Arguments.knownPosition Context.position?
  rw [hknown]

/-- A place that an argument names lies on one side of both versions. -/
theorem le_iff_of_noneBetween (hlt : ctx.position < ctx'.position) {nodes : List Node}
    (h : NoneBetween ctx.known ctx.position ctx'.position nodes) {n : Node} (hn : n ∈ nodes)
    {k : Nat} (hk : Arguments.knownPosition ctx n = .ok k) :
    k ≤ ctx.position ↔ k ≤ ctx'.position := by
  obtain ⟨v, hv, hk⟩ := Outcome.bind_eq_ok_iff.1 hk
  have hname : Version.ofNode? n = some v := by
    unfold Arguments.version at hv
    split at hv
    · rename_i v' hv'
      cases hv
      exact hv'
    · cases hv
  have hposition : ctx.known.position? v = some k := by
    split at hk
    · rename_i k' hk'
      cases hk
      exact hk'
    · cases hk
  have hnot := h n hn v hname k hposition
  omega

/-- A condition on the place of the first argument holds at both versions or at none. -/
theorem includeWhen_congr {usage : String} {test : Context → Node → Except QualifierError Bool}
    (h : ∀ n ∈ args.take 1, test ctx n = test ctx' n) :
    Inclusion.includeWhen usage test ctx args = Inclusion.includeWhen usage test ctx' args := by
  cases args with
  | nil => rfl
  | cons head forms =>
    have hhead := h head (by simp)
    show (test ctx head >>= _) = (test ctx' head >>= _)
    rw [hhead]

/-- What depends only on the side on which the place of a pivot lies is the same at both
versions. -/
theorem place_congr (hknown : ctx.known = ctx'.known) (hlt : ctx.position < ctx'.position)
    {nodes : List Node} (h : NoneBetween ctx.known ctx.position ctx'.position nodes) {n : Node}
    (hn : n ∈ nodes) {f g : Nat → Bool}
    (hfg : ∀ k, (k ≤ ctx.position ↔ k ≤ ctx'.position) → f k = g k) :
    (do let k ← Arguments.knownPosition ctx n
        return f k) = do
      let k ← Arguments.knownPosition ctx' n
      return g k := by
  rw [← knownPosition_congr hknown]
  cases hk : Arguments.knownPosition ctx n with
  | error e => rfl
  | ok k =>
    have hiff := le_iff_of_noneBetween hlt h hn hk
    rw [Outcome.ok_bind, Outcome.ok_bind, hfg k hiff]

/-- `added` finds the same at both versions. -/
theorem isSince_congr (hknown : ctx.known = ctx'.known) (hlt : ctx.position < ctx'.position)
    {nodes : List Node} (h : NoneBetween ctx.known ctx.position ctx'.position nodes) {n : Node}
    (hn : n ∈ nodes) : Inclusion.isSince ctx n = Inclusion.isSince ctx' n := by
  refine place_congr hknown hlt h hn fun k hk => ?_
  rw [decide_eq_decide]
  exact hk

/-- `removed` finds the same at both versions. -/
theorem isBefore_congr (hknown : ctx.known = ctx'.known) (hlt : ctx.position < ctx'.position)
    {nodes : List Node} (h : NoneBetween ctx.known ctx.position ctx'.position nodes) {n : Node}
    (hn : n ∈ nodes) : Inclusion.isBefore ctx n = Inclusion.isBefore ctx' n := by
  refine place_congr hknown hlt h hn fun k hk => ?_
  rw [decide_eq_decide]
  omega

/-- The same entry of a log is in force if all entries lie on one side of both places. -/
theorem inForce_congr {i j : Nat} {log : List (Nat × Node)} (h : ∀ e ∈ log, e.1 ≤ i ↔ e.1 ≤ j) :
    ChangeLog.inForce i log = ChangeLog.inForce j log := by
  unfold ChangeLog.inForce
  refine List.foldl_ext _ _ none fun best e he => ?_
  simp only [h e he]

/-- The log that is read depends on the known versions alone. -/
theorem entries_congr (hknown : ctx.known = ctx'.known) (pairs : List (Node × Node)) :
    ChangeLog.entries ctx pairs = ChangeLog.entries ctx' pairs := by
  unfold ChangeLog.entries
  simp only [knownPosition_congr hknown]

/-- `changed` gives the same at both versions. -/
theorem changed_congr (hknown : ctx.known = ctx'.known) (hlt : ctx.position < ctx'.position)
    (h : NoneBetween ctx.known ctx.position ctx'.position (pivotArguments changedTag args)) :
    ChangeLog.changed ctx args = ChangeLog.changed ctx' args := by
  cases args with
  | nil => rfl
  | cons base rest =>
    cases hpairs : Arguments.inPairs rest with
    | mk pairs odd =>
      rw [ChangeLog.changed, ChangeLog.changed, Arguments.headAndForms, Outcome.ok_bind,
        Outcome.ok_bind]
      dsimp only
      rw [hpairs]
      cases odd with
      | some a => rfl
      | none =>
        show (ChangeLog.entries ctx pairs >>= _) = (ChangeLog.entries ctx' pairs >>= _)
        rw [← entries_congr hknown]
        cases hlog : ChangeLog.entries ctx pairs with
        | error e => rfl
        | ok log =>
          have hsides : ∀ e ∈ log, e.1 ≤ ctx.position ↔ e.1 ≤ ctx'.position := by
            intro e he
            obtain ⟨p, hp, hposition, -⟩ := ChangeLog.exists_of_mem_entries hlog he
            refine le_iff_of_noneBetween hlt h ?_ hposition
            rw [pivotArguments, if_pos rfl, List.drop_one, List.tail_cons, hpairs]
            exact List.mem_map_of_mem hp
          rw [Outcome.ok_bind, Outcome.ok_bind, inForce_congr hsides]

/-- The three qualifiers give the same at two versions between which there is none of their
pivots. -/
theorem result_eq_of_between {m? : Option Manifest} {tag : Tag} {q : Qualifier}
    (hq : (registry m?).value.get? tag = some q) (htag : tag ∈ stepTags)
    (hknown : ctx.known = ctx'.known) (hlt : ctx.position < ctx'.position)
    (h : NoneBetween ctx.known ctx.position ctx'.position (pivotArguments tag args)) :
    (q ctx args).result = (q ctx' args).result := by
  rcases eq_of_mem_stepTags hq htag with ⟨rfl, rfl⟩ | ⟨rfl, rfl⟩ | ⟨rfl, rfl⟩
  · exact includeWhen_congr fun n hn => isSince_congr hknown hlt h hn
  · exact includeWhen_congr fun n hn => isBefore_congr hknown hlt h hn
  · exact changed_congr hknown hlt h

end Between

/-! ### Walks between two pivots -/

section Walks

variable {m? : Option Manifest} {maxPasses bound : Nat} {ctx ctx' : Context} {tree : Node}

/-- The tree is made of the three qualifiers, and none of its pivots lies between the two places. -/
def QuietBetween (known : KnownVersions) (i j : Nat) (tree : Node) : Prop :=
  OnlySteps tree ∧ NoneBetween known i j (pivots tree)

theorem QuietBetween.subnode {known : KnownVersions} {i j : Nat} {m n : Node}
    (hn : QuietBetween known i j n) (h : m ∈ n.subnodes) : QuietBetween known i j m := by
  refine ⟨fun tag args hmem => hn.1 tag args (Node.subnodes_trans hmem h), fun p hp => ?_⟩
  obtain ⟨l, hl, hp⟩ := List.mem_flatMap.1 hp
  exact hn.2 p (List.mem_flatMap.2 ⟨l, Node.subnodes_trans hl h, hp⟩)

/-- Walks of a tree that is made of the three qualifiers run in step between two pivots. -/
theorem agreement_of_between (hknown : ctx.known = ctx'.known)
    (hlt : ctx.position < ctx'.position) (v : Version) :
    Resolver.Agreement (WalkError.withVersion v)
      (QuietBetween ctx.known ctx.position ctx'.position)
      ⟨(registry m?).value, maxPasses⟩ ctx ⟨(registry m?).value, maxPasses⟩ ctx' := by
  refine .of_result_eq (fun e => ?_) (fun n hn _ m hm => ?_) (fun tag args hn => ?_)
    fun tag args hn q hq => ?_
  · rw [WalkError.withVersion_withVersion, WalkError.withVersion_withVersion]
  · exact hn.subnode (Node.mem_subnodes_of_mem_parts hm)
  · refine ⟨fun forms hforms m hm => ?_, fun _ _ => trivial⟩
    exact Resolver.of_node_mem_expandForm (inward_registry m? _)
      (fun n hn m hm => QuietBetween.subnode hn hm) hn hforms hm
  · have hself := Node.self_mem_subnodes (.invocation tag args)
    refine result_eq_of_between hq (hn.1 tag args hself) hknown hlt ?_
    intro p hp
    exact hn.2 p (mem_pivots hself hp)

/-- Between two pivots the tree that comes out is the same, or the error is, apart from the version
that it names. -/
theorem walkWithin_of_between (honly : OnlySteps tree) (hknown : ctx.known = ctx'.known)
    (hlt : ctx.position < ctx'.position)
    (h : NoneBetween ctx.known ctx.position ctx'.position (pivots tree)) :
    (∃ t, (Resolver.walkWithin ⟨(registry m?).value, maxPasses⟩ bound ctx tree).result = .ok t ∧
      (Resolver.walkWithin ⟨(registry m?).value, maxPasses⟩ bound ctx' tree).result = .ok t) ∨
    ∃ d e,
      (Resolver.walkWithin ⟨(registry m?).value, maxPasses⟩ bound ctx tree).result = .error d ∧
      (Resolver.walkWithin ⟨(registry m?).value, maxPasses⟩ bound ctx' tree).result = .error e ∧
      ∀ v, d.withVersion v = e.withVersion v := by
  have halike : ∀ v, Traced.Alike (WalkError.withVersion v)
      (Resolver.walkWithin ⟨(registry m?).value, maxPasses⟩ bound ctx tree)
      (Resolver.walkWithin ⟨(registry m?).value, maxPasses⟩ bound ctx' tree) := fun v =>
    Resolver.walkWithin_alike (agreement_of_between hknown hlt v) ⟨honly, h⟩
  cases hx : (Resolver.walkWithin ⟨(registry m?).value, maxPasses⟩ bound ctx tree).result with
  | ok t => exact .inl ⟨t, rfl, (halike ctx.version).ok hx⟩
  | error d =>
    obtain ⟨e, hy, -⟩ := (halike ctx.version).error hx
    refine .inr ⟨d, e, rfl, hy, fun v => ?_⟩
    obtain ⟨e', hy', hview⟩ := (halike v).error hx
    rw [hy] at hy'
    cases hy'
    exact hview

end Walks

end Standard

end VersionedTree
