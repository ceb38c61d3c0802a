import VersionedTree.Proofs.BreadthFirst
import VersionedTree.Proofs.Reordering

/-!
# Known versions that compare equal

Known versions are compared as sets, but they are used as a list: `added`, `removed` and `changed`
compare places. So two lists that compare equal list the same versions, in one order or another, and
may be taken for each other by whoever does not look at places.

The places can be seen from the outside. A list that holds a form added at `w`, resolved at `v`,
tells whether `w` stands at or before `v`; all answers together tell the order.

## What is proved

* `KnownVersions.beq_iff_perm` — known versions compare equal when one list is a permutation of the
  other.
* `KnownVersions.position?_eq_iff` — versions stand at the same places in two lists only if the
  lists are the same.
* `KnownVersions.eq_of_leads_imp` — two permutations that keep the order of any two versions are the
  same.
* `Standard.result_walk_since` — what a form added at a version tells.
* `Standard.resolves_beq` — what lists that compare equal have in common.
-/

namespace VersionedTree

namespace KnownVersions

variable {known known' : KnownVersions}

/-- Known versions compare equal when one list is a permutation of the other. -/
theorem beq_iff_perm : (known == known') = true ↔ known.toList.Perm known'.toList := by
  have hbeq : (known == known') = true ↔
      known.toList.length = known'.toList.length ∧ known.toList ⊆ known'.toList := by
    show (known.size == known'.size && known.toList.all known'.contains) = true ↔ _
    simp only [size, contains, Bool.and_eq_true, beq_iff_eq, List.all_eq_true,
      List.contains_iff_mem]
    rfl
  rw [hbeq]
  constructor
  · rintro ⟨hlen, hsub⟩
    exact (known.nodup.subperm hsub).perm_of_length_le (Nat.le_of_eq hlen.symm)
  · exact fun hperm => ⟨hperm.length_eq, hperm.subset⟩

/-- Versions stand at the same places in two lists only if the lists are the same. -/
theorem position?_eq_iff : (∀ v, known.position? v = known'.position? v) ↔ known = known' := by
  constructor
  · intro h
    refine KnownVersions.ext (List.ext_getElem? fun i => Option.ext fun v => ?_)
    have hplace : known.position? v = some i ↔ known'.position? v = some i := by rw [h]
    rwa [position?_eq_some_iff, position?_eq_some_iff] at hplace
  · rintro rfl v
    rfl

/-- Of two versions only one leads the other. -/
theorem Leads.antisymm {v w : Version} (h : known.Leads w v) (h' : known.Leads v w) : w = v := by
  obtain ⟨i, j, hi, hj, hij⟩ := h
  obtain ⟨j', i', hj', hi', hji⟩ := h'
  obtain rfl : i' = i := Option.some.inj (hi'.symm.trans hi)
  obtain rfl : j' = j := Option.some.inj (hj'.symm.trans hj)
  obtain rfl : i' = j' := Nat.le_antisymm hij hji
  exact Option.some.inj ((get?_position hi).symm.trans (get?_position hj))

/-- The list is sorted by the order of its versions. -/
theorem pairwise_leads (known : KnownVersions) : known.toList.Pairwise known.Leads := by
  refine List.pairwise_iff_getElem.2 fun i j hi hj hij => ?_
  exact ⟨i, j, position?_eq_some_iff.2 (List.getElem?_eq_getElem hi),
    position?_eq_some_iff.2 (List.getElem?_eq_getElem hj), Nat.le_of_lt hij⟩

/-- Two permutations that keep the order of any two versions are the same. -/
theorem eq_of_leads_imp (hperm : known.toList.Perm known'.toList)
    (h : ∀ w v, known.Leads w v → known'.Leads w v) : known = known' := by
  have hsorted : known.toList.Pairwise known'.Leads :=
    known.pairwise_leads.imp fun {w v} => h w v
  exact KnownVersions.ext (hperm.eq_of_pairwise (fun _ _ _ _ => Leads.antisymm) hsorted
    known'.pairwise_leads)

end KnownVersions

/-- An invocation that expands into forms without an invocation among them is resolved to these
forms. -/
theorem Resolver.result_resolve_of_expand {r : Resolver} {ctx : Context} (h : r.registry.Inward)
    {n : Node} {e : Expansion} (hn : n.WellFormed) (hi : n.isInvocation = true)
    (hexpand : r.registry.expand ctx n = .ok e)
    (hnil : r.registry.invocationsIn ctx 0 e.asForms = []) (hpasses : 0 < r.maxPasses) :
    (r.resolve ctx n).result = .ok e.asForms := by
  refine (resolve_ending h hn).eq_ok_iff.2 ⟨?_, fun k hk => ?_⟩
  · rw [Registry.evaluateForms_singleton, Registry.evaluateForm_node, hexpand]
    exact evaluateForms_of_eq_nil h hnil
  · obtain ⟨k, rfl⟩ : ∃ j, k = j + 1 := ⟨k - 1, by omega⟩
    rw [Registry.invocationsIn_singleton, Registry.invocationsAt_succ hexpand hi]
    exact Registry.invocationsIn_eq_nil hnil k

namespace Standard

variable {m? : Option Manifest} {maxPasses : Nat} {known known' : KnownVersions}

/-! ### A tree that tells the order -/

/-- A form that is added at a version. -/
def since (w : Version) : Node := .invocation addedTag [w.toNode, .nil]

/-- It is resolved to the form for the versions that the version leads, and is deleted for the
others. -/
theorem result_resolve_since (m? : Option Manifest) {ctx : Context} {w : Version} {k : Nat}
    (hk : ctx.known.position? w = some k) (hpasses : 0 < maxPasses) :
    (Resolver.resolve ⟨(registry m?).value, maxPasses⟩ ctx (since w)).result =
      .ok (Expansion.includeIf (decide (k ≤ ctx.position)) [.nil]).asForms := by
  have hadded : Inclusion.added ctx [w.toNode, .nil] =
      .ok (.includeIf (decide (k ≤ ctx.position)) [.nil]) :=
    Inclusion.includeWhen_eq_ok_iff.2 ⟨w.toNode, [.nil], _, rfl,
      Inclusion.isSince_eq_ok_iff.2 ⟨k, hk, rfl⟩, rfl⟩
  have hexpand : (registry m?).value.expand ctx (since w) =
      .ok (.includeIf (decide (k ≤ ctx.position)) [.nil]) := by
    have hget : (registry m?).value.get? addedTag = some added := by cases m? <;> rfl
    rw [since, Registry.expand, hget]
    exact congrArg (Except.mapError _) hadded
  refine Resolver.result_resolve_of_expand (inward_registry m?) ⟨trivial, trivial, trivial⟩ rfl
    hexpand ?_ hpasses
  cases decide (k ≤ ctx.position) <;> rfl

/-- A list with such a form has it exactly for these versions. -/
theorem result_walk_since (m? : Option Manifest) {ctx : Context} {w : Version} {k : Nat}
    (hk : ctx.known.position? w = some k) (hpasses : 0 < maxPasses) :
    (Resolver.walk ⟨(registry m?).value, maxPasses⟩ ctx (.sequence [since w])).result =
      .ok (.sequence (if k ≤ ctx.position then [.nil] else [])) := by
  have hresolve := result_resolve_since m? hk hpasses
  have hsplice : (Resolver.splice ⟨(registry m?).value, maxPasses⟩ ctx [since w]).result =
      .ok (if k ≤ ctx.position then [.nil] else []) := by
    rw [Resolver.splice, Traced.result_bind, Traced.result_mapM, List.mapM_cons, List.mapM_nil,
      Resolver.resolveSlot, Traced.result_adapt, hresolve]
    by_cases hle : k ≤ ctx.position
    · rw [if_pos hle, decide_eq_true hle]
      rfl
    · rw [if_neg hle, decide_eq_false hle]
      rfl
  show ((Resolver.splice ⟨(registry m?).value, maxPasses⟩ ctx [since w]) >>= _).result = _
  rw [Traced.result_bind, hsplice]
  split <;> rfl

/-! ### Lists that compare equal -/

/-- Every tree is resolved alike for every version, whichever of two lists is supplied. -/
def ResolvesAlike (m? : Option Manifest) (known known' : KnownVersions) : Prop :=
  ∀ maxPasses (tree : Node) (ctx ctx' : Context), ctx.known = known → ctx'.known = known' →
    ctx.version = ctx'.version → ctx.selector = ctx'.selector →
      (Resolver.walk ⟨(registry m?).value, maxPasses⟩ ctx tree).result =
        (Resolver.walk ⟨(registry m?).value, maxPasses⟩ ctx' tree).result

/-- Of two versions one leads the other in both lists, if trees are resolved alike. -/
theorem ResolvesAlike.leads {v w : Version} (h : ResolvesAlike m? known known')
    (hperm : known.toList.Perm known'.toList) (hlead : known.Leads w v) : known'.Leads w v := by
  obtain ⟨hw, hv⟩ := hlead.mem
  obtain ⟨i, j, hi, hj, hij⟩ := hlead
  obtain ⟨k, hk⟩ := KnownVersions.exists_position?_of_mem (hperm.mem_iff.1 hw)
  obtain ⟨ctx, hctx, rfl⟩ := Context.exists_mem_all_of_version none hv
  obtain ⟨ctx', hctx', hversion⟩ :=
    Context.exists_mem_all_of_version none (hperm.mem_iff.1 hv)
  obtain ⟨rfl, hselector⟩ := Context.mem_all_iff.1 hctx
  obtain ⟨rfl, hselector'⟩ := Context.mem_all_iff.1 hctx'
  obtain rfl : j = ctx.position := Option.some.inj (hj.symm.trans ctx.position?_version)
  have hwalk := h 1 (.sequence [since w]) ctx ctx' rfl rfl hversion.symm
    (hselector.trans hselector'.symm)
  rw [result_walk_since m? hi Nat.one_pos, result_walk_since m? hk Nat.one_pos, if_pos hij] at hwalk
  refine ⟨k, ctx'.position, hk, hversion ▸ ctx'.position?_version, ?_⟩
  by_contra hlt
  rw [if_neg hlt] at hwalk
  cases hwalk

/-- Trees are resolved alike for permutations only if these are the same. -/
theorem resolvesAlike_iff (hperm : known.toList.Perm known'.toList) :
    ResolvesAlike m? known known' ↔ known = known' := by
  constructor
  · intro h
    exact KnownVersions.eq_of_leads_imp hperm fun w v hlead => h.leads hperm hlead
  · rintro rfl maxPasses tree ctx ctx' hknown hknown' hversion hselector
    have hctx := ctx.position?_version
    rw [hknown, ← hknown', hversion, ctx'.position?_version, Option.some.injEq] at hctx
    rw [Context.eq_of_position_eq (hknown.trans hknown'.symm) hctx.symm hselector]

/-- Known versions compare equal exactly when they list the same versions, in any order. If they do,
versions stand at the same places exactly when the order is the same too, and exactly then every
tree is resolved alike. A tree that is made of qualifiers that do not look at places gets the same
result in any order, or errors of the same kind. -/
theorem resolves_beq (m? : Option Manifest) (known known' : KnownVersions) :
    ((known == known') = true ↔ known.toList.Perm known'.toList) ∧
    ((known == known') = true →
      ((∀ v, known.position? v = known'.position? v) ↔ known = known') ∧
      (ResolvesAlike m? known known' ↔ known = known') ∧
      ∀ maxPasses (tree : Node) (ctx ctx' : Context), tree.InvokesOnly (· ∈ unorderedTags) →
        ctx.known = known → ctx'.known = known' → ctx.version = ctx'.version →
        (∃ t, (Resolver.walk ⟨(registry m?).value, maxPasses⟩ ctx tree).result = .ok t ∧
          (Resolver.walk ⟨(registry m?).value, maxPasses⟩ ctx' tree).result = .ok t) ∨
        ∃ d e, (Resolver.walk ⟨(registry m?).value, maxPasses⟩ ctx tree).result = .error d ∧
          (Resolver.walk ⟨(registry m?).value, maxPasses⟩ ctx' tree).result = .error e ∧
          d.kind = e.kind) := by
  refine ⟨KnownVersions.beq_iff_perm, fun hbeq => ?_⟩
  have hperm := KnownVersions.beq_iff_perm.1 hbeq
  refine ⟨KnownVersions.position?_eq_iff, resolvesAlike_iff hperm, ?_⟩
  rintro maxPasses tree ctx ctx' htree rfl rfl hversion
  exact (walkWithin_of_reordered maxPasses tree.depth htree ⟨hversion, hperm⟩).ok_or_error

/-- A `switch` is resolved to one tree whichever of two lists is supplied that differ in their
order, but not every tree is. -/
theorem resolves_beq_picking :
    (Sample.threeVersions == Sample.threeRotated) = true ∧
    Sample.picking.InvokesOnly (· ∈ unorderedTags) ∧
    ¬ResolvesAlike none Sample.threeVersions Sample.threeRotated ∧
    (Resolver.walk ⟨(registry none).value, 10⟩ Sample.atSecondRotated Sample.picking).result =
      .ok (.str "b") := by
  have hwalk : (Resolver.walk ⟨(registry none).value, 10⟩ Sample.atSecond
      Sample.picking).result = .ok (.str "b") := rfl
  obtain ⟨hbeq_iff, h⟩ := resolves_beq none Sample.threeVersions Sample.threeRotated
  have hbeq := hbeq_iff.2 (by decide)
  obtain ⟨-, hresolves, hunordered⟩ := h hbeq
  have hne : Sample.threeVersions ≠ Sample.threeRotated := by
    intro heq
    exact absurd (congrArg KnownVersions.toList heq) (by decide)
  refine ⟨hbeq, invokesOnly_picking, mt hresolves.1 hne, ?_⟩
  rcases hunordered 10 Sample.picking Sample.atSecond Sample.atSecondRotated
    invokesOnly_picking rfl rfl rfl with ⟨t, ht, ht'⟩ | ⟨d, e, hd, -⟩
  · rw [ht', ← ht, hwalk]
  · rw [hwalk] at hd
    cases hd

/-- Lists that compare equal are not interchangeable: rotated by one place, they have a version at
another place, and a tree that is resolved in another way. -/
theorem beq_not_interchangeable :
    (Sample.threeVersions == Sample.threeRotated) = true ∧
    Sample.threeVersions.position? ⟨"v0"⟩ ≠ Sample.threeRotated.position? ⟨"v0"⟩ ∧
    (Resolver.walk ⟨(registry none).value, 10⟩ Sample.atSecond
      (.sequence [since ⟨"v0"⟩])).result = .ok (.sequence [.nil]) ∧
    (Resolver.walk ⟨(registry none).value, 10⟩ Sample.atSecondRotated
      (.sequence [since ⟨"v0"⟩])).result = .ok (.sequence []) ∧
    ¬ResolvesAlike none Sample.threeVersions Sample.threeRotated := by
  have hwalk : (Resolver.walk ⟨(registry none).value, 10⟩ Sample.atSecond
      (.sequence [since ⟨"v0"⟩])).result = .ok (.sequence [.nil]) := rfl
  have hwalk' : (Resolver.walk ⟨(registry none).value, 10⟩ Sample.atSecondRotated
      (.sequence [since ⟨"v0"⟩])).result = .ok (.sequence []) := rfl
  refine ⟨by decide, by decide, hwalk, hwalk', fun h => ?_⟩
  have hsame := h 10 (.sequence [since ⟨"v0"⟩]) Sample.atSecond Sample.atSecondRotated rfl rfl rfl
    rfl
  rw [hwalk, hwalk'] at hsame
  cases hsame

end Standard

end VersionedTree
