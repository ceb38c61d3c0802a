import VersionedTree.Proofs.Compiling
import VersionedTree.Proofs.Pivots

/-!
# How many groups a tree has

A tree that is made of `added`, `removed` and `changed` can change only at a version that one of
its pivots names. However many versions there are, such a tree has one group for the first version
and at most one more for each of the others that are named.

## What is proved

* `Grouping.length_distinct_le` — a list of trees has no more different ones than places at which it
  changes, and one.
* `Standard.eq_of_not_named` — a version that no pivot names has the tree of the version before it.
* `Standard.compaction` — nothing changes between two pivots, and groups are no more than pivots.
-/

namespace VersionedTree

/-- As many places of a list are picked as elements, at most, if what is at a picked place is
picked. -/
theorem length_filter_range_le {α : Type} {p : Nat → Bool} {q : α → Bool} {l : List α}
    (h : ∀ i (hi : i < l.length), p i = true → q l[i] = true) :
    ((List.range l.length).filter p).length ≤ (l.filter q).length := by
  induction l using List.reverseRecOn with
  | nil => simp
  | append_singleton l a ih =>
    have hinit : ∀ i (hi : i < l.length), p i = true → q l[i] = true := by
      intro i hi hp
      have hq := h i (by rw [List.length_append]; omega) hp
      rwa [List.getElem_append_left hi] at hq
    have hlast : p l.length = true → q a = true := by
      intro hp
      simpa using h l.length (by simp) hp
    have hle := ih hinit
    rw [List.length_append, List.length_singleton, List.range_succ, List.filter_append,
      List.filter_append, List.length_append, List.length_append]
    cases hp : p l.length with
    | false => simp [hp]; omega
    | true => simp [hp, hlast hp]; omega

namespace Grouping

variable {trees : List Node}

/-- A place at which a tree is met for the first time has another tree than the place before it. -/
theorem getElem?_ne_of_mem_firstPlaces (hwf : ∀ t ∈ trees, t.WellFormed) {i : Nat}
    (h : i + 1 ∈ firstPlaces trees) : trees[i + 1]? ≠ trees[i]? := by
  intro heq
  obtain ⟨hi, hfirst⟩ := List.mem_filter.1 h
  rw [List.mem_range] at hi
  have hlt : i < trees.length := by omega
  rw [heq, List.getElem?_eq_getElem hlt] at hfirst
  have hmem : trees[i] ∈ trees.take (i + 1) :=
    List.mem_take_iff_getElem.2 ⟨i, by omega, rfl⟩
  have hself := Node.beq_refl (hwf _ (List.getElem_mem hlt))
  have hany : (trees.take (i + 1)).any (fun s => trees[i] == s) = true :=
    List.any_eq_true.2 ⟨_, hmem, hself⟩
  rw [Option.any_some, hany] at hfirst
  cases hfirst

/-- A list of trees has no more different ones than places at which it changes, and one. -/
theorem length_distinct_le {α : Type} {marks : List α} {marked : α → Bool}
    (hwf : ∀ t ∈ trees, t.WellFormed) (hlen : trees.length = marks.length + 1)
    (h : ∀ i (hi : i < marks.length), marked marks[i] = false → trees[i + 1]? = trees[i]?) :
    (distinct trees).length ≤ 1 + (marks.filter marked).length := by
  have hplaces := congrArg List.length (distinct_eq_firstPlaces hwf)
  rw [List.length_map, List.length_map] at hplaces
  have hfirst : ∀ i (hi : i < marks.length), i + 1 ∈ firstPlaces trees →
      marked marks[i] = true := by
    intro i hi hmem
    by_contra hmarked
    exact getElem?_ne_of_mem_firstPlaces hwf hmem (h i hi (Bool.eq_false_iff.2 hmarked))
  unfold firstPlaces at hplaces hfirst
  rw [hplaces, hlen, List.range_succ_eq_map, List.filter_cons]
  -- the first place counts one, and every later one is marked
  have htail : (((List.range marks.length).map Nat.succ).filter fun i =>
      trees[i]?.any fun t => !(trees.take i).any fun s => t == s).length ≤
        (marks.filter marked).length := by
    rw [List.filter_map, List.length_map]
    refine length_filter_range_le fun i hi hp => hfirst i hi (List.mem_filter.2 ⟨?_, hp⟩)
    rw [List.mem_range]
    omega
  split
  · rw [List.length_cons]
    omega
  · omega

end Grouping

namespace Standard

/-- The known versions other than the first that a pivot of the tree names. -/
def namedVersions (known : KnownVersions) (tree : Node) : List Version :=
  known.toList.tail.filter fun v => (pivots tree).any fun p => decide (Version.ofNode? p = some v)

variable {m? : Option Manifest} {tree : Node}

/-- No pivot lies between two neighbouring versions if none names the later one. -/
theorem noneBetween_of_not_named {ctx ctx' : Context} (hknown : ctx.known = ctx'.known)
    (hposition : ctx'.position = ctx.position + 1)
    (hnamed : ∀ p ∈ pivots tree, Version.ofNode? p ≠ some ctx'.version) :
    NoneBetween ctx.known ctx.position ctx'.position (pivots tree) := by
  rintro p hp v hv k hk ⟨hlt, hle⟩
  obtain rfl : k = ctx'.position := by omega
  rw [hknown, KnownVersions.position?_eq_some_iff, ctx'.get?_position] at hk
  cases hk
  exact hnamed p hp hv

/-- Two neighbouring versions have the same tree if no pivot names the later one. -/
theorem walk_eq_of_not_named {maxPasses bound : Nat} {ctx ctx' : Context} {s t : Node}
    (honly : OnlySteps tree) (hknown : ctx.known = ctx'.known)
    (hposition : ctx'.position = ctx.position + 1)
    (hnamed : ∀ p ∈ pivots tree, Version.ofNode? p ≠ some ctx'.version)
    (hs : (Resolver.walkWithin ⟨(registry m?).value, maxPasses⟩ bound ctx tree).result = .ok s)
    (ht : (Resolver.walkWithin ⟨(registry m?).value, maxPasses⟩ bound ctx' tree).result = .ok t) :
    s = t := by
  have hnone := noneBetween_of_not_named hknown hposition hnamed
  rcases walkWithin_of_between honly hknown (by omega) hnone with
    ⟨u, hu, hu'⟩ | ⟨d, e, hd, -, -⟩
  · have hs := Except.ok.inj (hu.symm.trans hs)
    have ht := Except.ok.inj (hu'.symm.trans ht)
    exact hs.symm.trans ht
  · rw [hd] at hs
    cases hs

/-- A version that no pivot names has the tree of the version before it. -/
theorem eq_of_not_named {settings : Settings} {bound : Nat} {selector : Option String}
    {known : KnownVersions} {trees : List Node} (honly : OnlySteps tree)
    (houtcomes : Compiler.outcomes ⟨(registry m?).value, settings⟩ bound selector known tree =
      trees.map .ok) {i : Nat} (hi : i < known.toList.tail.length)
    (hnamed : ((pivots tree).any fun p =>
      decide (Version.ofNode? p = some known.toList.tail[i])) = false) :
    trees[i + 1]? = trees[i]? := by
  have hlen := Compiler.length_of_outcomes houtcomes
  have hall := Context.length_all known selector
  have htail := List.length_tail (l := known.toList)
  have hlt : i < (Context.all known selector).length := by omega
  have hlt' : i + 1 < (Context.all known selector).length := by omega
  obtain ⟨hknown, -⟩ := Context.mem_all_iff.1 (List.getElem_mem hlt)
  obtain ⟨hknown', -⟩ := Context.mem_all_iff.1 (List.getElem_mem hlt')
  have hposition := Context.position_getElem_all hlt
  have hposition' := Context.position_getElem_all hlt'
  have hversion := Context.version_getElem_all hlt' (by omega)
  rw [List.getElem?_eq_getElem (by omega), List.getElem?_eq_getElem (by omega)]
  refine congrArg some (walk_eq_of_not_named honly (hknown.trans hknown'.symm) (by omega) ?_
    (Compiler.walk_of_outcomes houtcomes hlt (by omega))
    (Compiler.walk_of_outcomes houtcomes hlt' (by omega))).symm
  intro p hp hv
  have hnot := List.any_eq_false.1 hnamed p hp
  rw [List.getElem_tail, ← hversion, hv] at hnot
  simp at hnot

/-- Between two pivots the tree that comes out is the same, or the error is, apart from the version
that it names. A compilation has one group, and at most one more for each version other than the
first that a pivot names. -/
theorem compaction (honly : OnlySteps tree) :
    (∀ maxPasses bound ctx ctx', ctx.known = ctx'.known → ctx.position < ctx'.position →
      NoneBetween ctx.known ctx.position ctx'.position (pivots tree) →
      (∃ t, (Resolver.walkWithin ⟨(registry m?).value, maxPasses⟩ bound ctx tree).result = .ok t ∧
        (Resolver.walkWithin ⟨(registry m?).value, maxPasses⟩ bound ctx' tree).result = .ok t) ∨
      ∃ d e,
        (Resolver.walkWithin ⟨(registry m?).value, maxPasses⟩ bound ctx tree).result = .error d ∧
        (Resolver.walkWithin ⟨(registry m?).value, maxPasses⟩ bound ctx' tree).result = .error e ∧
        ∀ v, d.withVersion v = e.withVersion v) ∧
    (tree.WellFormed → ∀ settings arrival bound selector known a,
      (Compiler.compileArrivingWithin ⟨(registry m?).value, settings⟩ arrival bound selector known
        tree).result = .ok a → a.groupCount ≤ 1 + (namedVersions known tree).length) := by
  constructor
  · intro maxPasses bound ctx ctx' hknown hlt hnone
    exact walkWithin_of_between honly hknown hlt hnone
  · intro htree settings arrival bound selector known a ha
    obtain ⟨hne, trees, houtcomes, rfl⟩ := Compiler.outcomes_of_compileArrivingWithin ha
    have hwf := Compiler.wellFormed_of_outcomes (inward_registry m?).keepsWellFormed htree houtcomes
    have hlen := Compiler.length_of_outcomes houtcomes
    have hpos := List.length_pos_iff.2 hne
    have htail : trees.length = known.toList.tail.length + 1 := by
      rw [hlen, List.length_tail]
      omega
    rw [Compiler.groupCount_artifactOf hlen]
    exact Grouping.length_distinct_le hwf htail fun i hi hnamed =>
      eq_of_not_named honly houtcomes hi hnamed

theorem compaction_growing :
    ((∃ t, (Resolver.walkWithin ⟨(registry none).value, 10⟩ 3
        ⟨Sample.threeVersions, ⟨"v1"⟩, 1, rfl, none⟩ Sample.growing).result = .ok t ∧
      (Resolver.walkWithin ⟨(registry none).value, 10⟩ 3
        ⟨Sample.threeVersions, ⟨"v2"⟩, 2, rfl, none⟩ Sample.growing).result = .ok t) ∨
    ∃ d e, (Resolver.walkWithin ⟨(registry none).value, 10⟩ 3
        ⟨Sample.threeVersions, ⟨"v1"⟩, 1, rfl, none⟩ Sample.growing).result = .error d ∧
      (Resolver.walkWithin ⟨(registry none).value, 10⟩ 3
        ⟨Sample.threeVersions, ⟨"v2"⟩, 2, rfl, none⟩ Sample.growing).result = .error e ∧
      ∀ v, d.withVersion v = e.withVersion v) ∧
    ∀ settings arrival bound selector known a,
      (Compiler.compileArrivingWithin ⟨(registry none).value, settings⟩ arrival bound selector known
        Sample.growing).result = .ok a →
        a.groupCount ≤ 1 + (namedVersions known Sample.growing).length := by
  have honly : OnlySteps Sample.growing := by
    intro tag args h
    simp only [Sample.growing, Sample.nested, Node.subnodes, Node.listSubnodes] at h
    rcases (by simpa using h : _ ∨ _) with ⟨rfl, -⟩ | ⟨rfl, -⟩
    · exact List.mem_cons_self ..
    · exact List.mem_cons_self ..
  have hnone : NoneBetween Sample.threeVersions 1 2 (pivots Sample.growing) := by
    intro p hp v hv k hk
    have hpivots : pivots Sample.growing = [.str "v0", .str "v1"] := rfl
    rw [hpivots, List.mem_pair] at hp
    rcases hp with rfl | rfl
    · cases hv
      have hplace : Sample.threeVersions.position? ⟨"v0"⟩ = some 0 := rfl
      rw [hplace] at hk
      cases hk
      omega
    · cases hv
      have hplace : Sample.threeVersions.position? ⟨"v1"⟩ = some 1 := rfl
      rw [hplace] at hk
      cases hk
      omega
  exact ⟨(compaction honly).1 10 3 _ _ rfl (by decide) hnone,
    (compaction honly).2 Sample.wellFormed_growing⟩

end Standard

end VersionedTree
