import Mathlib.Data.List.NodupEquivFin
import VersionedTree.Proofs.Selection

/-!
# More known versions

New versions may be declared before, between and after the old ones. What qualifiers do with places
is to compare them, so an old version gets the same tree as before, as long as no `switch` asks for
a form for every version.

## What is proved

* `Context.Embeds.of_sublist` — the old versions stand in the same order among the new ones.
* `Standard.resolves_of_sublist` — what an old version got it still gets.
-/

namespace VersionedTree

/-- Where versions are added, the old ones stay in the same order. -/
theorem Context.Embeds.of_sublist {ctx ctx' : Context} (hversion : ctx.version = ctx'.version)
    (hknown : ctx.known.toList.Sublist ctx'.known.toList) : ctx.Embeds ctx' := by
  obtain ⟨f, hf⟩ := List.sublist_iff_exists_orderEmbedding_getElem?_eq.1 hknown
  have hplace : ∀ {v k}, ctx.position? v = some k → ctx'.position? v = some (f k) := by
    intro v k hk
    have hget : ctx.known.toList[k]? = some v := KnownVersions.position?_eq_some_iff.1 hk
    exact KnownVersions.position?_eq_some_iff.2 ((hf k).symm.trans hget)
  refine ⟨hversion, fun hk => ⟨_, hplace hk⟩, fun hk hl hk' hl' => ?_⟩
  rw [hplace hk, Option.some.injEq] at hk'
  rw [hplace hl, Option.some.injEq] at hl'
  rw [← hk', ← hl']
  exact f.le_iff_le.symm

namespace Sample

/-- `v1`, of two versions. -/
def amongTwo : Context := ⟨⟨[⟨"v0"⟩, ⟨"v1"⟩], by decide⟩, ⟨"v1"⟩, 1, rfl, none⟩

/-- `v1`, with one more version before it and one after it. -/
def amongFour : Context :=
  ⟨⟨[⟨"v0"⟩, ⟨"v0a"⟩, ⟨"v1"⟩, ⟨"v2"⟩], by decide⟩, ⟨"v1"⟩, 2, rfl, none⟩

end Sample

namespace Standard

variable {m? : Option Manifest} {ctx ctx' : Context} {tree result : Node}

/-- Without a `switch` a resolver gives the same where versions are added. -/
theorem following_of_embeds (m? : Option Manifest) (maxPasses : Nat) (h : ctx.Embeds ctx') :
    Following (fun _ => True) False (fun m n => m = n ∧ m.InvokesOnly (· ≠ switchTag)) Eq
      ⟨(registry m?).value, maxPasses⟩ ctx ⟨(registry m?).value, maxPasses⟩ ctx' := by
  have hopened : ∀ {m n : Node}, m = n ∧ m.InvokesOnly (· ≠ switchTag) →
      m.Opened False (fun m n => m = n ∧ m.InvokesOnly (· ≠ switchTag)) (fun _ _ => True) n := by
    rintro m _ ⟨rfl, hm⟩
    exact .self m fun p hp => ⟨rfl, hm.part hp⟩
  refine .of_eq rfl h.version (fun _ _ => trivial) And.left hopened ?_
  rintro m _ ⟨rfl, hm⟩ hinvocation
  cases m with
  | invocation tag args =>
    refine expandForm_leadsTo rfl rfl (fun _ => trivial) hopened h
      (fun htag => absurd htag hm.tag) (.arguments ⟨rfl, fun hx hy _ => ?_⟩)
    rw [hx, Option.some.injEq] at hy
    exact ⟨hy, hm.part (List.mem_of_getElem? hx)⟩
  | _ => cases hinvocation

/-- If a tree without a `switch` resolves for a version, it resolves to the same tree where more
versions are known, wherever they are declared. -/
theorem resolves_of_sublist (maxPasses bound : Nat) (htree : tree.InvokesOnly (· ≠ switchTag))
    (hversion : ctx.version = ctx'.version)
    (hknown : ctx.known.toList.Sublist ctx'.known.toList)
    (h : (Resolver.walkWithin ⟨(registry m?).value, maxPasses⟩ bound ctx tree).result =
      .ok result) :
    (Resolver.walkWithin ⟨(registry m?).value, maxPasses⟩ bound ctx' tree).result =
      .ok result := by
  obtain ⟨result', hresult, rfl⟩ :=
    Resolver.walkWithin_leadsTo (following_of_embeds m? maxPasses (.of_sublist hversion hknown))
      (.eq _ _) ⟨rfl, htree⟩ result ⟨h, fun _ _ => trivial⟩
  exact hresult.1

theorem resolves_of_sublist_growing :
    Sample.growing.InvokesOnly (· ≠ switchTag) ∧
      Sample.amongTwo.known.toList.Sublist Sample.amongFour.known.toList ∧
      (Resolver.walkWithin ⟨(registry none).value, 10⟩ 3 Sample.amongTwo Sample.growing).result =
        .ok (.sequence [.str "y"]) ∧
      (Resolver.walkWithin ⟨(registry none).value, 10⟩ 3 Sample.amongFour Sample.growing).result =
        .ok (.sequence [.str "y"]) := by
  have htree : Sample.growing.InvokesOnly (· ≠ switchTag) := by
    intro tag args h
    simp only [Sample.growing, Sample.nested, Node.subnodes, Node.listSubnodes] at h
    rcases (by simpa using h : _ ∨ _) with ⟨rfl, -⟩ | ⟨rfl, -⟩ <;> decide
  have hknown : Sample.amongTwo.known.toList.Sublist Sample.amongFour.known.toList := by decide
  have hversion : Sample.amongTwo.version = Sample.amongFour.version := rfl
  have hwalk : (Resolver.walkWithin ⟨(registry none).value, 10⟩ 3 Sample.amongTwo
      Sample.growing).result = .ok (.sequence [.str "y"]) := rfl
  exact ⟨htree, hknown, hwalk, resolves_of_sublist 10 3 htree hversion hknown hwalk⟩

end Standard

end VersionedTree
