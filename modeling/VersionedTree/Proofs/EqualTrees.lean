import VersionedTree.Proofs.Matching
import VersionedTree.Proofs.Selection

/-!
# Equal trees resolve to equal trees

Equality does not look at the order of members and pairs, at any depth and also inside of the
arguments of invocations, whereas everything that resolves a tree runs in order. The order shows
only where keys of a mapping collide: the value of the later one stays.

There are two relations between finished trees to choose from. Equality is kept as long as no keys
collide; that a tree comes out at all is kept in any case.

## What is proved

* `Standard.following_of_equal` — resolvers of bundled qualifiers follow each other on equal nodes.
* `Finishing.equal` and `Finishing.always` — what is kept when collections are filled.
* `Standard.resolves_of_equal` — equal trees both resolve or both do not, and without collisions
  they resolve to equal trees.
-/

namespace VersionedTree

/-- Any event but a collision of keys. -/
def Event.NoCollision (e : Event) : Prop := ∀ v, e ≠ .keysCollided v

/-- The computation records no collision of keys. -/
def Traced.CollisionFree {ε α : Type} (x : Traced ε α) : Prop := ∀ e ∈ x.events, e.NoCollision

namespace Sample

/-- A mapping that holds a set that grows at `v1`, and a form for each version. -/
def arranged : Node :=
  .mapping [(.str "a", .set [.str "x", nested]),
    (.str "b", .invocation Standard.switchTag
      [.mapping [(.str "v0", .str "p"), (.str "v1", .str "q"), (.str "v2", .str "r")]])]

/-- The same with pairs, members and clauses in another order. -/
def rearranged : Node :=
  .mapping [(.str "b", .invocation Standard.switchTag
      [.mapping [(.str "v2", .str "r"), (.str "v0", .str "p"), (.str "v1", .str "q")]]),
    (.str "a", .set [nested, .str "x"])]

theorem wellFormed_arranged : arranged.WellFormed := by
  simp only [arranged, nested, Node.WellFormed, Node.AllWellFormed, Node.PairsWellFormed, and_true]
  unfold Distinct.Unequal
  decide

theorem wellFormed_rearranged : rearranged.WellFormed := by
  simp only [rearranged, nested, Node.WellFormed, Node.AllWellFormed, Node.PairsWellFormed,
    and_true]
  unfold Distinct.Unequal
  decide

end Sample

/-! ### What is kept -/

/-- Where keys do not collide, collections that are filled with equal parts are equal. -/
theorem Finishing.equal (version : Version) :
    Finishing Event.NoCollision True Node.Equal version where
  scalar value := .refl (n := .scalar value) trivial
  sequence h := .sequence h
  set h := .ofMembers h
  mapping {ps qs} h hnew := by
    have hcollides : ¬(Event.keysCollided version).NoCollision := fun h => h version rfl
    obtain ⟨hequal, hnew'⟩ := Node.Equal.ofPairs h (hnew.resolve_left hcollides)
    exact ⟨hequal, .inr hnew'⟩

/-- Collections are filled whatever their parts. -/
theorem Finishing.always (version : Version) :
    Finishing (fun _ => True) True (fun _ _ => True) version where
  scalar _ := trivial
  sequence _ := trivial
  set _ := trivial
  mapping _ _ := ⟨trivial, .inl trivial⟩

namespace Standard

variable {s t : Node}

/-- Resolvers of bundled qualifiers follow each other on equal nodes. -/
theorem following_of_equal (m? : Option Manifest) (ctx : Context) (maxPasses : Nat)
    {permitted : Event → Prop} (hrecords : ∀ e : Event, e.NoCollision → permitted e)
    (S : Node → Node → Prop) :
    Following permitted True Node.Equal S ⟨(registry m?).value, maxPasses⟩ ctx
      ⟨(registry m?).value, maxPasses⟩ ctx := by
  have hflags : ∀ text, permitted (.flagSequence text) := by
    intro text
    apply hrecords
    intro v hcollides
    cases hcollides
  refine .of_inward (inward_registry m?) (inward_registry m?) rfl rfl hrecords
    (fun h => ⟨h.left, h.right⟩) Node.Equal.opened fun {m n} hmn hm => ?_
  cases hmn.opened with
  | invocation =>
    obtain ⟨rfl, hargs⟩ := hmn.arguments
    exact expandForm_leadsTo rfl rfl hflags Node.Equal.opened (.refl ctx) (fun _ => .refl _)
      (.of_forall₂ hargs)
  | _ => cases hm

/-- What is kept when collections are filled holds of what equal trees resolve to. -/
theorem walk_leadsTo_of_equal (m? : Option Manifest) (ctx : Context) (maxPasses : Nat)
    {permitted : Event → Prop} (hrecords : ∀ e : Event, e.NoCollision → permitted e)
    {S : Node → Node → Prop} (hfinish : Finishing permitted True S ctx.version)
    (hst : s.Equal t) :
    Traced.LeadsTo permitted S (Resolver.walk ⟨(registry m?).value, maxPasses⟩ ctx s)
      (Resolver.walk ⟨(registry m?).value, maxPasses⟩ ctx t) := by
  rw [Resolver.walk, Resolver.walk, ← Node.depth_eq_of_beq hst.left hst.right hst.beq]
  exact Resolver.walkWithin_leadsTo (following_of_equal m? ctx maxPasses hrecords S) hfinish hst

/-- Where one of two equal trees resolves, the other one does. -/
theorem exists_walk_of_equal {m? : Option Manifest} {ctx : Context} {maxPasses : Nat}
    (hst : s.Equal t)
    (h : ∃ u, (Resolver.walk ⟨(registry m?).value, maxPasses⟩ ctx s).result = .ok u) :
    ∃ u, (Resolver.walk ⟨(registry m?).value, maxPasses⟩ ctx t).result = .ok u := by
  obtain ⟨u, hu⟩ := h
  obtain ⟨u', hu', -⟩ := walk_leadsTo_of_equal m? ctx maxPasses (fun _ _ => trivial)
    (.always ctx.version) hst u ⟨hu, fun _ _ => trivial⟩
  exact ⟨u', hu'.1⟩

/-- Of two equal trees both resolve for a version or none does. If one resolves and no keys collide
on the way, none collide in the other one, and it resolves to an equal tree. -/
theorem resolves_of_equal (m? : Option Manifest) (ctx : Context) (maxPasses : Nat)
    (hs : s.WellFormed) (ht : t.WellFormed) (hst : (s == t) = true) :
    ((∃ u, (Resolver.walk ⟨(registry m?).value, maxPasses⟩ ctx s).result = .ok u) ↔
      ∃ u, (Resolver.walk ⟨(registry m?).value, maxPasses⟩ ctx t).result = .ok u) ∧
    ∀ u, (Resolver.walk ⟨(registry m?).value, maxPasses⟩ ctx s).result = .ok u →
      (Resolver.walk ⟨(registry m?).value, maxPasses⟩ ctx s).CollisionFree →
      (Resolver.walk ⟨(registry m?).value, maxPasses⟩ ctx t).CollisionFree ∧
        ∃ u', (Resolver.walk ⟨(registry m?).value, maxPasses⟩ ctx t).result = .ok u' ∧
          (u == u') = true := by
  have hequal : s.Equal t := ⟨hst, hs, ht⟩
  constructor
  · exact ⟨exists_walk_of_equal hequal, exists_walk_of_equal hequal.symm⟩
  · intro u hu hfree
    obtain ⟨u', hu', huu'⟩ := walk_leadsTo_of_equal m? ctx maxPasses (fun _ he => he)
      (.equal ctx.version) hequal u ⟨hu, hfree⟩
    exact ⟨hu'.2, u', hu'.1, huu'.beq⟩

theorem resolves_of_equal_rearranged :
    (Sample.arranged == Sample.rearranged) = true ∧
    ((∃ u, (Resolver.walk ⟨(registry none).value, 10⟩ Sample.atSecond Sample.arranged).result =
        .ok u) ↔
      ∃ u, (Resolver.walk ⟨(registry none).value, 10⟩ Sample.atSecond Sample.rearranged).result =
        .ok u) ∧
    (Resolver.walk ⟨(registry none).value, 10⟩ Sample.atSecond Sample.rearranged).CollisionFree ∧
    ∃ u', (Resolver.walk ⟨(registry none).value, 10⟩ Sample.atSecond Sample.rearranged).result =
        .ok u' ∧
      (Node.mapping [(.str "a", .set [.str "x", .str "y"]), (.str "b", .str "q")] == u') =
        true := by
  have hequal : (Sample.arranged == Sample.rearranged) = true := by decide
  have hwalk : (Resolver.walk ⟨(registry none).value, 10⟩ Sample.atSecond Sample.arranged).result =
      .ok (.mapping [(.str "a", .set [.str "x", .str "y"]), (.str "b", .str "q")]) := rfl
  have hfree : (Resolver.walk ⟨(registry none).value, 10⟩ Sample.atSecond
      Sample.arranged).CollisionFree := by
    have hevents : (Resolver.walk ⟨(registry none).value, 10⟩ Sample.atSecond
        Sample.arranged).events =
      [.walking ⟨"v1"⟩, .settled ⟨"v1"⟩ 2 1, .settled ⟨"v1"⟩ 1 1] := rfl
    intro e he v hcollides
    rw [hevents] at he
    simp only [List.mem_cons, List.not_mem_nil, or_false] at he
    rcases he with rfl | rfl | rfl <;> cases hcollides
  have hboth := resolves_of_equal none Sample.atSecond 10 Sample.wellFormed_arranged
    Sample.wellFormed_rearranged hequal
  exact ⟨hequal, hboth.1, hboth.2 _ hwalk hfree⟩

-- Where keys collide, equal trees resolve to trees that are not equal.
example :
    (Resolver.walk ⟨(registry none).value, 10⟩ Sample.atSecond
      (.mapping [(Sample.nested, .str "p"), (.str "y", .str "q")])).result =
        .ok (.mapping [(.str "y", .str "q")]) ∧
    (Resolver.walk ⟨(registry none).value, 10⟩ Sample.atSecond
      (.mapping [(.str "y", .str "q"), (Sample.nested, .str "p")])).result =
        .ok (.mapping [(.str "y", .str "p")]) := ⟨rfl, rfl⟩

end Standard

end VersionedTree
