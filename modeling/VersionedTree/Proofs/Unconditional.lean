import VersionedTree.Proofs.Compiling
import VersionedTree.Proofs.Following

/-!
# Nothing conditional is left

By qualifiers that return arguments or what is inside of arguments, a tree that comes out of a walk
holds no invocation: in no item, member, key or value, at no depth. A walk copies the invocations
that it meets, so this rests on the resolution of slots. Forms with an invocation among them are
never stable, and every slot of a collection is resolved before the walk descends into it.

## What is proved

* `Node.hasInvocation_eq_false_iff` — a tree has no invocation if no subnode is one.
* `Resolver.resolve_unconditional` — there is no invocation among the stable forms of a slot.
* `Resolver.hasInvocation_of_walkWithin` — the tree of a walk has none.
* `Compiler.compile_unconditional` — nor have the trees of an artifact.
-/

namespace VersionedTree

/-! ### Trees without invocations -/

namespace Node

theorem anyInvocation_eq_false_iff {items : List Node} :
    anyInvocation items = false ↔ ∀ n ∈ items, n.hasInvocation = false := by
  induction items with
  | nil => simp [anyInvocation]
  | cons n rest ih => simp [anyInvocation, ih]

theorem anyPairInvocation_eq_false_iff {pairs : List (Node × Node)} :
    anyPairInvocation pairs = false ↔
      ∀ p ∈ pairs, p.1.hasInvocation = false ∧ p.2.hasInvocation = false := by
  induction pairs with
  | nil => simp [anyPairInvocation]
  | cons p rest ih =>
    obtain ⟨k, v⟩ := p
    simp [anyPairInvocation, ih, and_assoc]

/-- A node has no invocation if it is none and its parts have none. -/
theorem hasInvocation_eq_false_iff_parts {n : Node} :
    n.hasInvocation = false ↔
      n.isInvocation = false ∧ ∀ m ∈ n.parts, m.hasInvocation = false := by
  cases n with
  | scalar value => simp [hasInvocation, isInvocation, parts]
  | sequence items => simp [hasInvocation, isInvocation, parts, anyInvocation_eq_false_iff]
  | set members => simp [hasInvocation, isInvocation, parts, anyInvocation_eq_false_iff]
  | mapping pairs =>
    simp only [hasInvocation, isInvocation, anyPairInvocation_eq_false_iff, true_and,
      mem_parts_mapping]
    constructor
    · rintro h m ⟨p, hp, rfl | rfl⟩
      · exact (h p hp).1
      · exact (h p hp).2
    · intro h p hp
      exact ⟨h p.1 ⟨p, hp, .inl rfl⟩, h p.2 ⟨p, hp, .inr rfl⟩⟩
  | invocation tag args => simp [hasInvocation, isInvocation]

/-- A tree has no invocation if no subnode is one. -/
theorem hasInvocation_eq_false_iff {n : Node} :
    n.hasInvocation = false ↔ ∀ m ∈ n.subnodes, m.isInvocation = false := by
  induction n using parts_induction with
  | step n ih =>
    rw [hasInvocation_eq_false_iff_parts]
    constructor
    · rintro ⟨hn, hparts⟩ m hm
      rcases mem_subnodes_iff.1 hm with rfl | ⟨p, hp, hm⟩
      · exact hn
      · exact (ih p hp).1 (hparts p hp) m hm
    · intro h
      refine ⟨h n n.self_mem_subnodes, fun p hp => (ih p hp).2 fun m hm => ?_⟩
      exact h m (mem_subnodes_iff.2 (.inr ⟨p, hp, hm⟩))

end Node

namespace Resolver

variable {r : Resolver} {ctx : Context}

/-! ### Slots and walks -/

/-- What a well-formed slot becomes is well formed, and no invocation. -/
theorem resolve_unconditional (h : r.registry.Inward) {n : Node} (hn : n.WellFormed) :
    (r.resolve ctx n).Meets (NodesSatisfy fun m => m.WellFormed ∧ m.isInvocation = false)
      fun _ => True := by
  have hexpand : ∀ tag args, (Node.invocation tag args).WellFormed →
      (r.expandForm ctx (.node (.invocation tag args))).Meets (NodesSatisfy Node.WellFormed)
        fun _ => True := expandForm_wellFormed h.keepsWellFormed
  refine Traced.meets_of_ok fun forms hforms m hm => ?_
  have hwf : NodesSatisfy Node.WellFormed forms :=
    (resolve_meets hexpand (fun _ => trivial) hn).1 forms hforms
  refine ⟨hwf m hm, ?_⟩
  rcases resolve_eq_ok hforms with ⟨-, next, hpass, hstable⟩ | ⟨hi, rfl⟩
  · have hnext := (pass_meets hexpand hwf).1 next hpass
    exact (pass_stable_iff h hwf hnext hpass).1 hstable m hm
  · rw [List.mem_singleton, Form.node.injEq] at hm
    exact hm ▸ hi

/-- By inward qualifiers, the finished nodes of a walk have no invocation. -/
theorem unconditionalInvariant (h : r.registry.Inward) :
    WalkInvariant r ctx Node.WellFormed (fun n => n.WellFormed ∧ n.isInvocation = false)
      (fun n => n.hasInvocation = false) fun _ => True where
  slot _ hn := resolve_unconditional h hn
  side _ _ _ _ _ _ := trivial
  deep := trivial
  parts _ hn _ _ hm := hn.1.part hm
  scalar _ := rfl
  invocation _ _ hn := nomatch hn.2
  sequence _ hitems := Node.anyInvocation_eq_false_iff.2 hitems
  set _ hmembers := Node.anyInvocation_eq_false_iff.2 fun m hm =>
    hmembers m (Distinct.mem_of_mem_ofList hm)
  empty := rfl
  pair _ _ _ hbuilt hkey hvalue := Node.anyPairInvocation_eq_false_iff.2
    (Keyed.forall_insert (P := fun n : Node => n.hasInvocation = false)
      (Q := fun n : Node => n.hasInvocation = false) (Node.anyPairInvocation_eq_false_iff.1 hbuilt)
      hkey hvalue)

/-- The tree of a walk has no invocation. -/
theorem hasInvocation_of_walkWithin (h : r.registry.Inward) {bound : Nat} {tree t : Node}
    (htree : tree.WellFormed) (ht : (r.walkWithin bound ctx tree).result = .ok t) :
    t.hasInvocation = false :=
  (walkWithin_meets (unconditionalInvariant h) htree fun _ _ _ => trivial).1 t ht

end Resolver

/-! ### Artifacts -/

/-- All trees of an artifact. -/
def Artifact.trees : Artifact → List Node
  | .resolved tree => [tree]
  | .dispatch d => d.trees.values

namespace Compiler

variable {c : Compiler} {known : KnownVersions} {tree : Node}

/-- The trees of an artifact are trees that it was made of. -/
theorem mem_of_mem_trees_artifactOf {selector : String} {trees : List Node}
    (hlen : trees.length = known.toList.length) {t : Node}
    (ht : t ∈ (artifactOf selector known trees).trees) : t ∈ trees := by
  apply Distinct.mem_of_mem_ofList
  show t ∈ Grouping.distinct trees
  unfold artifactOf at ht
  split at ht
  · rename_i shared hshared
    rw [hshared]
    exact ht
  · rw [← Grouping.values_trees_tableOf hlen]
    exact ht

/-- By inward qualifiers, as the bundled ones are, no invocation is left at any depth, for all
limits on passes and in every context: not in the tree of a walk, and not in the trees of an
artifact. -/
theorem compile_unconditional (h : c.registry.Inward) (htree : tree.WellFormed) :
    (∀ bound ctx t, (c.resolver.walkWithin bound ctx tree).result = .ok t →
      t.hasInvocation = false ∧ ∀ m ∈ t.subnodes, m.isInvocation = false) ∧
    (∀ arrival bound selector known a,
      (c.compileArrivingWithin arrival bound selector known tree).result = .ok a →
        ∀ t ∈ a.trees, t.hasInvocation = false) ∧
    ∀ m?, (Standard.registry m?).value.Inward := by
  have hwalk : ∀ bound ctx t, (c.resolver.walkWithin bound ctx tree).result = .ok t →
      t.hasInvocation = false := fun bound ctx t =>
    Resolver.hasInvocation_of_walkWithin (r := c.resolver) h htree
  refine ⟨fun bound ctx t ht => ?_, fun arrival bound selector known a ha t ht => ?_,
    Standard.inward_registry⟩
  · have hnone := hwalk bound ctx t ht
    exact ⟨hnone, Node.hasInvocation_eq_false_iff.1 hnone⟩
  · obtain ⟨-, trees, houtcomes, rfl⟩ := outcomes_of_compileArrivingWithin ha
    have ht := mem_of_mem_trees_artifactOf (length_of_outcomes houtcomes) ht
    have hmem : .ok t ∈ c.outcomes bound (some selector) known tree :=
      houtcomes ▸ List.mem_map_of_mem ht
    obtain ⟨ctx, -, ht⟩ := List.mem_map.1 hmem
    exact hwalk bound ctx t ht

end Compiler

/-- Invocations in a key, a member and an item; the key is brought in by an expansion. -/
def Sample.everywhere : Node :=
  .mapping [(.invocation Standard.addedTag [.str "v0", .set [nested]], .sequence [nested])]

theorem Sample.wellFormed_everywhere : everywhere.WellFormed := by
  refine ⟨List.pairwise_singleton _ _, ⟨trivial, ⟨?_, wellFormed_nested, trivial⟩, trivial⟩,
    ⟨wellFormed_nested, trivial⟩, trivial⟩
  exact List.pairwise_singleton _ _

theorem Compiler.compile_unconditional_everywhere :
    (Resolver.walk ⟨(Standard.registry none).value, 10⟩ Sample.atSecond Sample.everywhere).result =
        .ok (.mapping [(.set [.str "y"], .sequence [.str "y"])]) ∧
      (Node.mapping [(.set [.str "y"], .sequence [.str "y"])]).hasInvocation = false ∧
      ∃ a, (compile ⟨(Standard.registry none).value, {}⟩ "api" Sample.threeVersions
          Sample.everywhere).result = .ok a ∧
        a.trees = [.mapping [(.set [], .sequence [])],
          .mapping [(.set [.str "y"], .sequence [.str "y"])]] ∧
        ∀ t ∈ a.trees, t.hasInvocation = false := by
  obtain ⟨hwalk, hcompile, -⟩ :=
    compile_unconditional (c := ⟨(Standard.registry none).value, {}⟩)
      (Standard.inward_registry none) Sample.wellFormed_everywhere
  have hresult : (Resolver.walk ⟨(Standard.registry none).value, 10⟩ Sample.atSecond
      Sample.everywhere).result = .ok (.mapping [(.set [.str "y"], .sequence [.str "y"])]) := rfl
  have hartifact : ∃ a, (compile ⟨(Standard.registry none).value, {}⟩ "api" Sample.threeVersions
      Sample.everywhere).result = .ok a ∧ a.trees = [.mapping [(.set [], .sequence [])],
        .mapping [(.set [.str "y"], .sequence [.str "y"])]] := ⟨_, rfl, rfl⟩
  obtain ⟨a, ha, htrees⟩ := hartifact
  exact ⟨hresult, (hwalk _ _ _ hresult).1, a, ha, htrees, hcompile _ _ _ _ a ha⟩

end VersionedTree
